import MiniPascal.Proofs.Types.Bases

/-!
# The words of a type

Sizes are 64-bit numbers and wrap, while the words that a type stands for can be counted without a bound:
one for a scalar, the words of the element for each index of an array, the words of all fields of a record.
A size is that count as long as the count fits; then the fields of a record tile it in order of declaration.
Only arrays are refused for being too large, so a record can have more words than a size can hold.
-/

namespace MiniPascal.TypeTable

open List Int64

/-- Fields lie in a row and fill a range of words. -/
structure Tiled (ts : TypeTable) (fields : List Field) (start finish : Int) : Prop where
  ordered : fields.Pairwise fun f g => f.offset.toInt + (ts.size f.type).toInt ≤ g.offset.toInt
  covered : ∀ w : Int, start ≤ w ∧ w < finish ↔
    ∃ f ∈ fields, f.offset.toInt ≤ w ∧ w < f.offset.toInt + (ts.size f.type).toInt

/-- What a type was made with: the number of its words, and its fields in order of declaration. -/
structure Extent where
  words : Nat
  fields : List (Text × TypeId) := []
deriving DecidableEq, Repr

def extentOf (made : List Extent) (t : TypeId) : Extent := (made[t.index]?).getD { words := 0 }

def indices (ts : TypeTable) (index : TypeId) : Nat :=
  ((ts.bounds index).upper.toInt - (ts.bounds index).lower.toInt + 1).toNat

/-- A table made from the built-in types by forming one type after the other, with what each type of it
was made with. -/
inductive Built : TypeTable → List Extent → Prop where
  | builtins : Built builtins (List.replicate 5 { words := 1 })
  | subrange {ts : TypeTable} {made : List Extent} (built : Built ts made) (host : TypeId)
      (lower upper : Int64) {d : TypeDesc} (hhost : ts.Has host)
      (hd : ts.subrange? host lower upper = .ok d) :
      Built (ts.add d).2 (made ++ [{ words := 1 }])
  | array {ts : TypeTable} {made : List Extent} (built : Built ts made) (index element : TypeId)
      {d : TypeDesc} (hindex : ts.Has index) (helement : ts.Has element)
      (hd : ts.array? index element = .ok d) :
      Built (ts.add d).2 (made ++ [{ words := ts.indices index * (extentOf made element).words }])
  | record {ts : TypeTable} {made : List Extent} (built : Built ts made)
      (fields : List (Text × TypeId)) (hne : fields ≠ []) (hfields : ∀ f ∈ fields, ts.Has f.2) :
      Built (ts.add (ts.record fields)).2
        (made ++ [{ words := (fields.map fun f => (extentOf made f.2).words).sum, fields }])
  | enumeration {ts : TypeTable} {made : List Extent} (built : Built ts made) (name : Text) (count : Nat)
      (hpos : 1 ≤ count) (hcount : count < 2 ^ 63) :
      Built (ts.add (.enumeration name (Int64.ofNat count))).2 (made ++ [{ words := 1 }])
  | pointer {ts : TypeTable} {made : List Extent} (built : Built ts made) (base : Option TypeId)
      (hbase : ∀ t, base = some t → ts.Has t) :
      Built (ts.add (.pointer base)).2 (made ++ [{ words := 1 }])

variable {ts ts' : TypeTable} {made : List Extent} {t : TypeId} {fields : List (Text × TypeId)}

/-! ## Rows of fields -/

/-- Fields that are placed one after the other tile their words, as long as these can be counted. -/
theorem Placed.tiled {fields : List Field} {offset : Int64} (h : ts.Placed offset fields)
    (hsize : ∀ f ∈ fields, 1 ≤ (ts.size f.type).toInt) (hupper : offset.toInt + ts.total fields < 2 ^ 63) :
    ts.Tiled fields offset.toInt (offset.toInt + ts.total fields) := by
  induction fields generalizing offset with
  | nil => exact ⟨.nil, fun w => by simp [TypeTable.total]⟩
  | cons f rest ih =>
    have hlower := offset.le_toInt
    rw [total_cons] at hupper ⊢
    have hf := hsize f (by simp)
    have hwords : (ts.size f.type).toInt = ts.words f.type := by
      unfold words
      omega
    have hnext : (offset + ts.size f.type).toInt = offset.toInt + ts.words f.type :=
      Word.add_eq rfl hwords (by omega)
    have hrest := ih h.2 (fun g hg => hsize g (by simp [hg])) (by omega)
    rw [hnext] at hrest
    refine ⟨pairwise_cons.mpr ⟨fun g hg => ?_, hrest.ordered⟩, fun w => ?_⟩
    · have hg' := hsize g (by simp [hg])
      rw [h.1, hwords]
      exact ((hrest.covered g.offset.toInt).mpr ⟨g, hg, by omega, by omega⟩).1
    · simp only [mem_cons, exists_eq_or_imp, ← hrest.covered w, h.1, hwords]
      omega

/-- The size of a record is the sum of the sizes of its fields, as a word that wraps. -/
theorem size_record (count : TypeId → Nat) (h : ∀ f ∈ fields, ts.size f.2 = Int64.ofNat (count f.2)) :
    (ts.record fields).size = Int64.ofNat (fields.map fun f => count f.2).sum := by
  suffices ∀ offset, (ts.placeFields offset fields).2 =
      offset + Int64.ofNat (fields.map fun f => count f.2).sum by
    show (ts.placeFields 0 fields).2 = _
    simpa using this 0
  intro offset
  induction fields generalizing offset with
  | nil => simp [placeFields]
  | cons f rest ih =>
    show (ts.placeFields (offset + ts.size f.2) rest).2 = _
    rw [ih (fun g hg => h g (by simp [hg])), h f (by simp), map_cons, sum_cons, ofNat_add, Int64.add_assoc]

/-! ## Types of a table that was built -/

/-- What holds of a type that was made with an extent. The size is the number of words up to wrapping,
whatever that number is. -/
structure Spans (ts : TypeTable) (made : List Extent) (d : TypeDesc) (e : Extent) : Prop where
  pos : 1 ≤ e.words
  size : d.size = Int64.ofNat e.words
  ordinal : d.kind.isOrdinal = true → d.bounds.lower.toInt ≤ d.bounds.upper.toInt ∧
    d.bounds.upper.toInt - d.bounds.lower.toInt + 1 < 2 ^ 63
  fields : d.fields.map (fun f => (f.name, f.type)) = e.fields
  has : ∀ f ∈ d.fields, ts.Has f.type
  placed : ts.Placed 0 d.fields
  record : d.kind = .record → e.words = (e.fields.map fun f => (extentOf made f.2).words).sum

/-- Every type of a table spans what it was made with. -/
structure Counted (ts : TypeTable) (made : List Extent) : Prop where
  length : made.length = ts.descs.size
  spans : ∀ t, ts.Has t → ts.Spans made (ts.get t) (extentOf made t)

namespace Spans

variable {d : TypeDesc} {e : Extent}

/-- A type without fields whose values take one word. -/
theorem scalar (hsize : d.size = 1) (hfields : d.fields = []) (hkind : d.kind ≠ .record)
    (hordinal : d.kind.isOrdinal = true → d.bounds.lower.toInt ≤ d.bounds.upper.toInt ∧
      d.bounds.upper.toInt - d.bounds.lower.toInt + 1 < 2 ^ 63) : ts.Spans made d { words := 1 } where
  pos := Nat.le_refl 1
  size := hsize
  ordinal := hordinal
  fields := by simp [hfields]
  has := by simp [hfields]
  placed := by rw [hfields]; trivial
  record hk := absurd hk hkind

end Spans

namespace Counted

variable (h : ts.Counted made)

include h

theorem extentOf_append (e : Extent) (ht : ts.Has t) : extentOf (made ++ [e]) t = extentOf made t := by
  have hlt : t.index < made.length := h.length ▸ ht
  rw [extentOf, extentOf, List.getElem?_append_left hlt]

theorem extentOf_add (d : TypeDesc) (e : Extent) : extentOf (made ++ [e]) (ts.add d).1 = e := by
  show ((made ++ [e])[ts.descs.size]?).getD _ = e
  rw [← h.length, List.getElem?_concat_length]
  rfl

variable {d : TypeDesc}

theorem spans_add {e : Extent} (hd : ts.Spans made d e) (d' : TypeDesc) (e' : Extent) :
    (ts.add d').2.Spans (made ++ [e']) d e where
  pos := hd.pos
  size := hd.size
  ordinal := hd.ordinal
  fields := hd.fields
  has f hf := (ts.grows_add d').has (hd.has f hf)
  placed := (ts.grows_add d').placed hd.has hd.placed
  record hk := by
    rw [hd.record hk, ← hd.fields, map_map, map_map]
    refine congrArg List.sum (map_congr_left fun f hf => ?_)
    exact (congrArg Extent.words (h.extentOf_append e' (hd.has f hf))).symm

/-- One more type that spans what it was made with. -/
theorem add {e : Extent} (hd : ts.Spans made d e) : (ts.add d).2.Counted (made ++ [e]) where
  length := by
    show _ = (ts.descs.push d).size
    rw [length_append, h.length, Array.size_push]
    rfl
  spans t ht := by
    rcases has_add_iff.mp ht with hold | rfl
    · rw [get_add_of_has d hold, h.extentOf_append e hold]
      exact h.spans_add (h.spans t hold) d e
    · rw [get_add, h.extentOf_add]
      exact h.spans_add hd d e

omit h in
theorem builtins : builtins.Counted (List.replicate 5 { words := 1 }) where
  length := rfl
  spans t ht := by
    have hscalar : ∀ i < 5, extentOf (List.replicate 5 { words := 1 }) ⟨i⟩ = { words := 1 } := by decide
    rw [hscalar t.index ht]
    have hdesc : ∀ i < 5, let d := TypeTable.builtins.get ⟨i⟩
        d.size = 1 ∧ d.fields = [] ∧ d.kind ≠ .record ∧ d.bounds.lower.toInt ≤ d.bounds.upper.toInt ∧
          d.bounds.upper.toInt - d.bounds.lower.toInt + 1 < 2 ^ 63 := by decide
    obtain ⟨hsize, hfields, hkind, hordinal⟩ := hdesc t.index ht
    exact .scalar hsize hfields hkind fun _ => hordinal

theorem subrange (hformed : ts.Formed False) {host : TypeId} (hhost : ts.Has host) {lower upper : Int64}
    (hd : ts.subrange? host lower upper = .ok d) : (ts.add d).2.Counted (made ++ [{ words := 1 }]) := by
  refine h.add ?_
  obtain ⟨hord, hle, hlower, hupper, rfl⟩ := subrange?_eq_ok hd
  obtain ⟨-, hspan⟩ := (h.spans _ (hformed.has_root hhost)).ordinal hord
  refine .scalar rfl rfl (fun hk => ?_) fun _ => ⟨le_iff_toInt_le.mp hle, ?_⟩
  · rw [show ts.kind (ts.root host) = .record from hk] at hord
    simp [TypeKind.isOrdinal] at hord
  · have hlower := le_iff_toInt_le.mp hlower
    have hupper := le_iff_toInt_le.mp hupper
    show upper.toInt - lower.toInt + 1 < 2 ^ 63
    have hspan : (ts.bounds (ts.root host)).upper.toInt - (ts.bounds (ts.root host)).lower.toInt + 1 < 2 ^ 63 :=
      hspan
    omega

theorem span_eq {index : TypeId} (hindex : ts.Has index) (hord : (ts.kind index).isOrdinal = true) :
    (ts.bounds index).span = Int64.ofNat (ts.indices index) ∧ 1 ≤ ts.indices index := by
  obtain ⟨hle, hspan⟩ : (ts.bounds index).lower.toInt ≤ (ts.bounds index).upper.toInt ∧
      (ts.bounds index).upper.toInt - (ts.bounds index).lower.toInt + 1 < 2 ^ 63 :=
    (h.spans _ hindex).ordinal hord
  refine ⟨toInt_inj.mp ?_, by unfold indices; omega⟩
  have hsub : ((ts.bounds index).upper - (ts.bounds index).lower).toInt =
      (ts.bounds index).upper.toInt - (ts.bounds index).lower.toInt :=
    Word.sub_eq rfl rfl (by omega)
  unfold indices
  rw [Bounds.span, Word.add_eq hsub Word.toInt_one (by omega), Word.toInt_ofNat (by omega)]
  omega

theorem array {index element : TypeId} (hindex : ts.Has index) (helement : ts.Has element)
    (hd : ts.array? index element = .ok d) :
    (ts.add d).2.Counted (made ++ [{ words := ts.indices index * (extentOf made element).words }]) := by
  refine h.add ?_
  obtain ⟨hord, -, rfl⟩ := array?_eq_ok hd
  obtain ⟨hspan, hpos⟩ := h.span_eq hindex hord
  have hsize : ts.size element = Int64.ofNat (extentOf made element).words := (h.spans _ helement).size
  exact {
    pos := Nat.mul_pos hpos (h.spans _ helement).pos
    size := by
      show (ts.bounds index).span * ts.size element = _
      rw [hspan, hsize, ← ofNat_mul]
    ordinal := fun hk => by simp [TypeKind.isOrdinal] at hk
    fields := rfl
    has := by simp
    placed := trivial
    record := fun hk => by simp at hk }

theorem record (hne : fields ≠ []) (hfields : ∀ f ∈ fields, ts.Has f.2) : (ts.add (ts.record fields)).2.Counted
      (made ++ [{ words := (fields.map fun f => (extentOf made f.2).words).sum, fields }]) :=
  h.add {
    pos := by
      obtain ⟨f, rest, rfl⟩ := exists_cons_of_ne_nil hne
      have hpos := (h.spans _ (hfields f (by simp))).pos
      simp only [map_cons, sum_cons]
      omega
    size := by
      have hsize : ∀ f ∈ fields, ts.size f.2 = Int64.ofNat (extentOf made f.2).words :=
        fun f hf => (h.spans _ (hfields f hf)).size
      exact size_record (fun t => (extentOf made t).words) hsize
    ordinal := fun hk => by simp [TypeTable.record, TypeKind.isOrdinal] at hk
    fields := ts.map_placeFields 0 fields
    has := fun f hf => hfields _ (mem_of_placeFields hf)
    placed := ts.placed_placeFields 0 fields
    record := fun _ => rfl }

theorem enumeration (name : Text) {count : Nat} (hpos : 1 ≤ count) (hcount : count < 2 ^ 63) :
    (ts.add (.enumeration name (Int64.ofNat count))).2.Counted (made ++ [{ words := 1 }]) := by
  refine h.add (.scalar rfl rfl (by simp [TypeDesc.enumeration]) fun _ => ?_)
  have hupper : (Int64.ofNat count - 1).toInt = count - 1 :=
    Word.sub_eq (Word.toInt_ofNat (by omega)) Word.toInt_one (by omega)
  simp only [TypeDesc.enumeration, hupper, Word.toInt_zero]
  omega

theorem pointer (base : Option TypeId) : (ts.add (.pointer base)).2.Counted (made ++ [{ words := 1 }]) :=
  h.add (.scalar rfl rfl (by simp [TypeDesc.pointer])
    fun hord => by simp [TypeDesc.pointer, TypeKind.isOrdinal] at hord)

end Counted

theorem Built.isMade (h : Built ts made) : ts.Made := by
  induction h with
  | builtins => exact .builtins
  | subrange _ _ _ _ hhost hd ih => exact ih.subrange hhost hd
  | array _ _ _ hindex helement hd ih => exact ih.array hindex helement hd
  | record _ _ _ hfields ih => exact ih.record hfields
  | enumeration _ name count _ _ ih => exact ih.enumeration name count
  | pointer _ _ hbase ih => exact ih.pointer hbase

/-- Whatever is formed, every type spans what it was made with. -/
theorem Built.counted (h : Built ts made) : ts.Counted made := by
  induction h with
  | builtins => exact .builtins
  | subrange built host lower upper hhost hd ih => exact ih.subrange built.isMade.formed.1 hhost hd
  | array _ index element hindex helement hd ih => exact ih.array hindex helement hd
  | record _ fields hne hfields ih => exact ih.record hne hfields
  | enumeration _ name count hpos hcount ih => exact ih.enumeration name hpos hcount
  | pointer _ base _ ih => exact ih.pointer base

theorem Spans.toInt_size {d : TypeDesc} {e : Extent} (h : ts.Spans made d e) (hlt : e.words < 2 ^ 63) :
    d.size.toInt = e.words := by
  rw [h.size, Word.toInt_ofNat (by omega)]

namespace Counted

variable (h : ts.Counted made)

include h

theorem words_field_le (ht : ts.Has t) (hk : ts.kind t = .record) {f : Field}
    (hf : f ∈ (ts.get t).fields) : (extentOf made f.type).words ≤ (extentOf made t).words := by
  obtain ⟨before, after, hsplit⟩ := append_of_mem hf
  rw [(h.spans t ht).record hk, ← (h.spans t ht).fields, hsplit, map_map, map_append, map_cons, sum_append, sum_cons]
  show _ ≤ _ + ((extentOf made f.type).words + _)
  omega

/-- The words of the fields of a record that is not too large are those of the record. -/
theorem total_fields (ht : ts.Has t) (hk : ts.kind t = .record) (hlt : (extentOf made t).words < 2 ^ 63) :
    ts.total (ts.get t).fields = (extentOf made t).words := by
  rw [(h.spans t ht).record hk, ← (h.spans t ht).fields, map_map]
  refine congrArg List.sum (map_congr_left fun f hf => ?_)
  have hle := h.words_field_le ht hk hf
  have hsize := (h.spans _ ((h.spans t ht).has f hf)).toInt_size (by omega)
  show ((ts.get f.type).size).toInt.toNat = (extentOf made f.type).words
  omega

theorem tiled (ht : ts.Has t) (hk : ts.kind t = .record) (hlt : (extentOf made t).words < 2 ^ 63) :
    ts.Tiled (ts.get t).fields 0 (extentOf made t).words := by
  have hfields : ∀ f ∈ (ts.get t).fields, 1 ≤ (ts.size f.type).toInt := by
    intro f hf
    have hspans := h.spans _ ((h.spans t ht).has f hf)
    have hle := h.words_field_le ht hk hf
    have hsize : (ts.size f.type).toInt = _ := hspans.toInt_size (by omega)
    have hpos := hspans.pos
    omega
  have htotal := h.total_fields ht hk hlt
  have htiled := (h.spans t ht).placed.tiled hfields (by rw [htotal, Word.toInt_zero]; omega)
  rwa [htotal, Word.toInt_zero, Int.zero_add] at htiled

end Counted

/-- A type has the size that its words add up to, and the fields of a record tile it in order of
declaration, exactly if it has fewer than `2 ^ 63` words. -/
theorem built_size_exact_iff (h : Built ts made) (ht : ts.Has t) :
    (1 ≤ (ts.size t).toInt ∧ (ts.size t).toInt = (extentOf made t).words ∧ (ts.kind t = .record →
        (ts.get t).fields.map (fun f => (f.name, f.type)) = (extentOf made t).fields ∧
          ts.Tiled (ts.get t).fields 0 (ts.size t).toInt)) ↔ (extentOf made t).words < 2 ^ 63 := by
  have hspans := h.counted.spans t ht
  constructor
  · rintro ⟨-, hsize, -⟩
    have hlt := (ts.size t).toInt_lt
    omega
  · intro hlt
    have hsize : (ts.size t).toInt = (extentOf made t).words := hspans.toInt_size hlt
    have hpos := hspans.pos
    refine ⟨by omega, hsize, fun hk => ⟨hspans.fields, ?_⟩⟩
    rw [hsize]
    exact h.counted.tiled ht hk hlt

/-- A record of a character, an array over a subrange and a pointer. -/
theorem built_size_exact_iff_mixed : ∃ ts made t, Built ts made ∧ ts.Has t ∧ ts.kind t = .record ∧
    (ts.get t).fields.map Field.offset = [0, 1, 11] ∧ (extentOf made t).words = 12 ∧
      (1 ≤ (ts.size t).toInt ∧ (ts.size t).toInt = (extentOf made t).words ∧ (ts.kind t = .record →
          (ts.get t).fields.map (fun f => (f.name, f.type)) = (extentOf made t).fields ∧
            ts.Tiled (ts.get t).fields 0 (ts.size t).toInt)) := by
  have hsubrange := Built.builtins.subrange .integer (-4) 5 (by decide) rfl
  have harray := hsubrange.array ⟨5⟩ .real (by decide) (by decide) rfl
  have hpointer := harray.pointer (some .char) (by rintro _ ⟨⟩; decide)
  have hrecord := hpointer.record [([97], .char), ([98], ⟨6⟩), ([99], ⟨7⟩)] (by decide) (by decide)
  exact ⟨_, _, ⟨8⟩, hrecord, by decide, by decide, by decide, by decide,
    (built_size_exact_iff hrecord (by decide)).mpr (by decide)⟩

/-- Eight fields of one type have eight times its words. -/
theorem Built.eightfold (h : Built ts made) (ht : ts.Has t) :
    ∃ ts' made' t', Built ts' made' ∧ ts'.Has t' ∧ ts'.kind t' = .record ∧
      (extentOf made' t').words = 8 * (extentOf made t).words := by
  have hrecord := h.record ((Text.ofString "abcdefgh").map fun c => ([c], t)) (by simp [Text.ofString, Text.ofChars])
    fun f hf => by
      obtain ⟨c, -, rfl⟩ := mem_map.mp hf
      exact ht
  refine ⟨_, _, _, hrecord, ts.has_add _, by rw [kind, get_add]; rfl, ?_⟩
  rw [h.counted.extentOf_add, map_map]
  show (List.map (Function.const _ (extentOf made t).words) (Text.ofString "abcdefgh")).sum = _
  rw [map_const, sum_replicate_nat]
  rfl

theorem exists_built_words (depth : Nat) :
    ∃ ts made t, Built ts made ∧ ts.Has t ∧ (extentOf made t).words = 8 ^ depth * 2 ^ 30 := by
  induction depth with
  | zero =>
    have hsubrange := Built.builtins.subrange .integer 1 (2 ^ 30) (by decide) rfl
    have harray := hsubrange.array ⟨5⟩ .char (by decide) (by decide) rfl
    exact ⟨_, _, ⟨6⟩, harray, by decide, by decide⟩
  | succ depth ih =>
    obtain ⟨ts, made, t, h, ht, hwords⟩ := ih
    obtain ⟨ts', made', t', h', ht', -, hwords'⟩ := h.eightfold ht
    exact ⟨ts', made', t', h', ht', by rw [hwords', hwords]; omega⟩

/-- A record of `2 ^ 63` words has a negative size. -/
theorem built_size_wraps : ∃ ts made t, Built ts made ∧ ts.Has t ∧ ts.kind t = .record ∧
    (extentOf made t).words = 2 ^ 63 ∧ (ts.size t).toInt = -2 ^ 63 := by
  obtain ⟨ts, made, t, h, ht, hwords⟩ := exists_built_words 10
  obtain ⟨ts', made', t', h', ht', hkind, hwords'⟩ := h.eightfold ht
  have hcount : (extentOf made' t').words = 2 ^ 63 := by omega
  refine ⟨ts', made', t', h', ht', hkind, hcount, ?_⟩
  have hsize : ts'.size t' = Int64.ofNat (extentOf made' t').words := (h'.counted.spans t' ht').size
  rw [hsize, hcount]
  decide

end MiniPascal.TypeTable
