import MiniPascal.Proofs.Word
import MiniPascal.Types.Conversion

/-!
# Formation of types

What holds of every type that a program can declare. Tables of types only grow: names and bases may be
set later, and all else stays. Sizes and offsets are exact as long as no type is too large.
-/

namespace MiniPascal

open List Word

/-- Two descriptions that differ in the name and the base at most. -/
structure TypeDesc.Alike (d d' : TypeDesc) : Prop where
  kind : d'.kind = d.kind
  size : d'.size = d.size
  bounds : d'.bounds = d.bounds
  index : d'.index = d.index
  fields : d'.fields = d.fields

theorem TypeDesc.Alike.refl (d : TypeDesc) : d.Alike d := ⟨rfl, rfl, rfl, rfl, rfl⟩

theorem TypeDesc.Alike.trans {d d' d'' : TypeDesc} (h : d.Alike d') (h' : d'.Alike d'') : d.Alike d'' :=
  ⟨h'.kind.trans h.kind, h'.size.trans h.size, h'.bounds.trans h.bounds, h'.index.trans h.index,
    h'.fields.trans h.fields⟩

variable {named : List (Text × TypeId)}

namespace TypeTable

def Has (ts : TypeTable) (t : TypeId) : Prop := t.index < ts.descs.size

instance (ts : TypeTable) (t : TypeId) : Decidable (ts.Has t) :=
  inferInstanceAs (Decidable (t.index < ts.descs.size))

/-- A table has all types of another one, up to names and bases. -/
def Grows (ts ts' : TypeTable) : Prop :=
  ∀ (i : Nat) (d : TypeDesc), ts.descs[i]? = some d → ∃ d', ts'.descs[i]? = some d' ∧ d.Alike d'

section

variable (ts : TypeTable)

theorem Grows.refl : ts.Grows ts := fun _ d h => ⟨d, h, .refl d⟩

theorem Grows.trans {ts ts' ts'' : TypeTable} (h : ts.Grows ts') (h' : ts'.Grows ts'') : ts.Grows ts'' := by
  intro i d hd
  obtain ⟨d', hd', halike⟩ := h i d hd
  obtain ⟨d'', hd'', halike'⟩ := h' i d' hd'
  exact ⟨d'', hd'', halike.trans halike'⟩

theorem grows_add (d : TypeDesc) : ts.Grows (ts.add d).2 := by
  intro i e he
  refine ⟨e, ?_, .refl e⟩
  have hlt := (Array.getElem?_eq_some_iff.mp he).1
  show (ts.descs.push d)[i]? = _
  rw [Array.getElem?_push, if_neg (Nat.ne_of_lt hlt)]
  exact he

theorem grows_modify (t : TypeId) {f : TypeDesc → TypeDesc} (hf : ∀ d : TypeDesc, d.Alike (f d)) :
    ts.Grows (ts.modify t f) := by
  intro i d hd
  by_cases hi : t.index = i
  · refine ⟨f d, ?_, hf d⟩
    show (ts.descs.modify t.index f)[i]? = _
    rw [Array.getElem?_modify, if_pos hi, hd]
    rfl
  · refine ⟨d, ?_, .refl d⟩
    show (ts.descs.modify t.index f)[i]? = _
    rw [Array.getElem?_modify, if_neg hi]
    exact hd

theorem grows_setName (t : TypeId) (name : Text) : ts.Grows (ts.setName t name) :=
  ts.grows_modify t fun _ => ⟨rfl, rfl, rfl, rfl, rfl⟩

theorem grows_setBase (t : TypeId) (base : Option TypeId) : ts.Grows (ts.setBase t base) :=
  ts.grows_modify t fun _ => ⟨rfl, rfl, rfl, rfl, rfl⟩

theorem Has.getElem? {ts : TypeTable} {t : TypeId} (h : ts.Has t) : ts.descs[t.index]? = some (ts.get t) := by
  rw [get, Array.getElem?_eq_getElem h]
  rfl

theorem get_eq {ts : TypeTable} {t : TypeId} {d : TypeDesc} (h : ts.descs[t.index]? = some d) : ts.get t = d := by
  rw [get, h]
  rfl

theorem has_add (d : TypeDesc) : (ts.add d).2.Has (ts.add d).1 := by
  show ts.descs.size < (ts.descs.push d).size
  rw [Array.size_push]
  omega

theorem get_add (d : TypeDesc) : (ts.add d).2.get (ts.add d).1 = d :=
  get_eq Array.getElem?_push_size

end

section

variable {ts ts' : TypeTable} {t : TypeId}

theorem get_add_of_has (d : TypeDesc) (ht : ts.Has t) : (ts.add d).2.get t = ts.get t := by
  refine get_eq ?_
  show (ts.descs.push d)[t.index]? = _
  rw [Array.getElem?_push, if_neg (Nat.ne_of_lt ht)]
  exact ht.getElem?

theorem has_add_iff {d : TypeDesc} : (ts.add d).2.Has t ↔ ts.Has t ∨ t = (ts.add d).1 := by
  obtain ⟨i⟩ := t
  show i < (ts.descs.push d).size ↔ i < ts.descs.size ∨ TypeId.mk i = ⟨ts.descs.size⟩
  rw [Array.size_push, TypeId.mk.injEq]
  omega

namespace Grows

variable (h : ts.Grows ts') (ht : ts.Has t)

include h ht

theorem has : ts'.Has t := by
  obtain ⟨d', hd', -⟩ := h _ _ ht.getElem?
  exact (Array.getElem?_eq_some_iff.mp hd').1

theorem alike : (ts.get t).Alike (ts'.get t) := by
  obtain ⟨d', hd', halike⟩ := h _ _ ht.getElem?
  rwa [get_eq hd']

theorem size : ts'.size t = ts.size t := (h.alike ht).size

theorem kind : ts'.kind t = ts.kind t := (h.alike ht).kind

theorem bounds : ts'.bounds t = ts.bounds t :=
  (h.alike ht).bounds

end Grows

end

def words (ts : TypeTable) (t : TypeId) : Nat := (ts.size t).toInt.toNat

def total (ts : TypeTable) (fields : List Field) : Nat := (fields.map fun f => ts.words f.type).sum

/-- The words of fields one after the other, as a word that wraps. -/
def width (ts : TypeTable) (fields : List Field) : Int64 := fields.foldr (fun f n => ts.size f.type + n) 0

/-- Fields lie one after the other from an offset on. -/
def Placed (ts : TypeTable) : Int64 → List Field → Prop
  | _, [] => True
  | offset, f :: rest => f.offset = offset ∧ ts.Placed (offset + ts.size f.type) rest

/-- No record of the table is too large. Arrays that are too large are refused. -/
def Small (ts : TypeTable) : Prop :=
  ∀ (i : Nat) (d : TypeDesc), ts.descs[i]? = some d → ts.total d.fields < 2 ^ 31

section

variable {ts ts' : TypeTable} {fields : List Field} {offset : Int64}

theorem total_cons (f : Field) (rest : List Field) : ts.total (f :: rest) = ts.words f.type + ts.total rest :=
  rfl

theorem width_append (a b : List Field) : ts.width (a ++ b) = ts.width a + ts.width b := by
  induction a with
  | nil => exact (Int64.zero_add _).symm
  | cons f rest ih =>
    show ts.size f.type + ts.width (rest ++ b) = ts.size f.type + ts.width rest + ts.width b
    rw [ih, Int64.add_assoc]

theorem placed_append {a b : List Field} :
    ts.Placed offset (a ++ b) ↔ ts.Placed offset a ∧ ts.Placed (offset + ts.width a) b := by
  induction a generalizing offset with
  | nil => simp [Placed, width]
  | cons f rest ih =>
    show _ ∧ ts.Placed _ (rest ++ b) ↔ (_ ∧ ts.Placed _ rest) ∧ ts.Placed (offset + (_ + ts.width rest)) b
    rw [ih, Int64.add_assoc, and_assoc]

theorem placed_placeFields (offset : Int64) (named : List (Text × TypeId)) :
    ts.Placed offset (ts.placeFields offset named).1 := by
  induction named generalizing offset with
  | nil => trivial
  | cons f rest ih => exact ⟨rfl, ih _⟩

theorem placeFields_end (offset : Int64) (named : List (Text × TypeId)) :
    (ts.placeFields offset named).2 = offset + ts.width (ts.placeFields offset named).1 := by
  induction named generalizing offset with
  | nil => exact (Int64.add_zero _).symm
  | cons f rest ih =>
    show (ts.placeFields (offset + ts.size f.2) rest).2 = offset + (ts.size f.2 + ts.width _)
    rw [ih, Int64.add_assoc]

/-- The names and the types of fields do not depend on where they are placed. -/
theorem map_placeFields (offset : Int64) (named : List (Text × TypeId)) :
    (ts.placeFields offset named).1.map (fun f => (f.name, f.type)) = named := by
  induction named generalizing offset with
  | nil => rfl
  | cons f rest ih =>
    show _ :: ((ts.placeFields (offset + ts.size f.2) rest).1.map _) = _
    rw [ih]

theorem mem_of_placeFields {f : Field} (hf : f ∈ (ts.placeFields offset named).1) : (f.name, f.type) ∈ named := by
  rw [← ts.map_placeFields offset named]
  exact mem_map_of_mem hf

theorem width_placeFields (offset offset' : Int64) (named : List (Text × TypeId)) :
    ts.width (ts.placeFields offset named).1 = ts.width (ts.placeFields offset' named).1 := by
  induction named generalizing offset offset' with
  | nil => rfl
  | cons f rest ih =>
    show ts.size f.2 + ts.width _ = ts.size f.2 + ts.width _
    rw [ih (offset + ts.size f.2) (offset' + ts.size f.2)]

section

variable (hf : ∀ f ∈ fields, ts.Has f.type)

include hf

theorem Grows.total (h : ts.Grows ts') : ts'.total fields = ts.total fields := by
  unfold TypeTable.total words
  rw [map_congr_left fun f hmem => by rw [h.size (hf f hmem)]]

theorem Grows.width (h : ts.Grows ts') : ts'.width fields = ts.width fields := by
  induction fields with
  | nil => rfl
  | cons f rest ih =>
    show ts'.size f.type + ts'.width rest = ts.size f.type + ts.width rest
    rw [h.size (hf f (by simp)), ih fun g hg => hf g (by simp [hg])]

theorem Grows.placed (h : ts.Grows ts') (hp : ts.Placed offset fields) : ts'.Placed offset fields := by
  induction fields generalizing offset with
  | nil => trivial
  | cons f rest ih =>
    refine ⟨hp.1, ?_⟩
    rw [h.size (hf f (by simp))]
    exact ih (fun g hg => hf g (by simp [hg])) hp.2

end

section

variable (hsize : ∀ f ∈ fields, 0 ≤ (ts.size f.type).toInt)

include hsize

/-- The words of fields of which none is too large. -/
theorem toInt_width (htotal : ts.total fields < 2 ^ 63) : (ts.width fields).toInt = ts.total fields := by
  induction fields with
  | nil => rfl
  | cons f rest ih =>
    have hf := hsize f (by simp)
    rw [total_cons] at htotal ⊢
    have hrest := ih (fun g hg => hsize g (by simp [hg])) (by omega)
    have hwords : (ts.size f.type).toInt = ts.words f.type := by
      unfold words
      omega
    show (ts.size f.type + ts.width rest).toInt = _
    rw [toInt_add, hrest, hwords]
    · omega
    · rw [hrest, hwords]
      exact ⟨by omega, by omega⟩

/-- Where fields lie of which none is too large. -/
theorem Placed.bounds (h : ts.Placed offset fields)
    (htotal : ts.total fields < 2 ^ 31) (hlower : -2 ^ 31 ≤ offset.toInt)
    (hupper : offset.toInt + ts.total fields < 2 ^ 31) : ∀ f ∈ fields, offset.toInt ≤ f.offset.toInt ∧
      f.offset.toInt + (ts.size f.type).toInt ≤ offset.toInt + ts.total fields := by
  induction fields generalizing offset with
  | nil => simp
  | cons f rest ih =>
    obtain ⟨hf, hrest⟩ := forall_mem_cons.mp hsize
    rw [total_cons] at htotal hupper ⊢
    have hwords : (ts.size f.type).toInt = ts.words f.type := (Int.toNat_of_nonneg hf).symm
    have hnext : (offset + ts.size f.type).toInt = offset.toInt + ts.words f.type :=
      add_eq rfl hwords (by omega)
    refine forall_mem_cons.mpr ⟨?_, fun g hg => ?_⟩
    · rw [h.1]
      omega
    · have := ih hrest h.2 (by omega) (by omega) (by omega) g hg
      omega

/-- Fields of which none is too large do not overlap. -/
theorem Placed.apart (h : ts.Placed offset fields) (htotal : ts.total fields < 2 ^ 31) (hlower : -2 ^ 31 ≤ offset.toInt)
    (hupper : offset.toInt + ts.total fields < 2 ^ 31) :
    fields.Pairwise fun f g => f.offset.toInt + (ts.size f.type).toInt ≤ g.offset.toInt := by
  induction fields generalizing offset with
  | nil => exact .nil
  | cons f rest ih =>
    obtain ⟨hf, hrest⟩ := forall_mem_cons.mp hsize
    rw [total_cons] at htotal hupper
    have hwords : (ts.size f.type).toInt = ts.words f.type := (Int.toNat_of_nonneg hf).symm
    have hnext : (offset + ts.size f.type).toInt = offset.toInt + ts.words f.type :=
      add_eq rfl hwords (by omega)
    refine pairwise_cons.mpr ⟨fun g hg => ?_, ih hrest h.2 (by omega) (by omega) (by omega)⟩
    have hbounds := h.2.bounds hrest (by omega) (by omega) (by omega) g hg
    rw [h.1]
    omega

end

end

end TypeTable

/-- The ordinals of the kinds of which there is one type without a host. -/
def TypeKind.range? : TypeKind → Option Bounds
  | .integer => some TypeDesc.integer.bounds
  | .boolean => some TypeDesc.boolean.bounds
  | .character => some TypeDesc.char.bounds
  | _ => none

/-- The ordinals of one range are ordinals of another one. -/
def Bounds.Within (b host : Bounds) : Prop := host.lower.toInt ≤ b.lower.toInt ∧ b.upper.toInt ≤ host.upper.toInt

/-- What holds of a type in its table. Sizes, offsets and bounds are as they should be if they are exact,
that is, if no type is too large. -/
structure TypeDesc.Formed (exact : Prop) (ts : TypeTable) (d : TypeDesc) : Prop where
  scalar : d.kind.isAggregate = false → d.size = 1
  host : d.kind.isOrdinal = true → ∀ h, d.base = some h → ts.Has h ∧ ts.kind h = d.kind ∧ d.bounds.Within (ts.bounds h)
  full : d.base = none → ∀ b, d.kind.range? = some b → d.bounds = b
  array : d.kind = .array → ∃ element index, d.base = some element ∧ d.index = some index ∧
    ts.Has element ∧ ts.Has index ∧ (ts.kind index).isOrdinal = true ∧ d.bounds = ts.bounds index ∧
    (exact → ((ts.bounds index).upper.toInt - (ts.bounds index).lower.toInt + 1) *
      (ts.size element).toInt = d.size.toInt)
  target : d.kind = .pointer → ∀ t, d.base = some t → ¬exact ∧ ts.Has t
  fields : ∀ f ∈ d.fields, ts.Has f.type ∧
    (exact → 0 ≤ f.offset.toInt ∧ f.offset.toInt + (ts.size f.type).toInt ≤ d.size.toInt)
  apart : exact → d.fields.Pairwise fun f g => f.offset.toInt + (ts.size f.type).toInt ≤ g.offset.toInt
  size : exact → 1 ≤ d.size.toInt ∧ d.size.toInt < 2 ^ 31
  bounds : exact → d.kind.isOrdinal = true → -2 ^ 31 ≤ d.bounds.lower.toInt ∧
    d.bounds.lower.toInt ≤ d.bounds.upper.toInt ∧ d.bounds.upper.toInt < 2 ^ 48

def TypeTable.Formed (exact : Prop) (ts : TypeTable) : Prop :=
  ∀ (i : Nat) (d : TypeDesc), ts.descs[i]? = some d → d.Formed exact ts

variable {base : Option TypeId}

namespace TypeDesc.Formed

variable {exact : Prop} {ts ts' : TypeTable} {d d' : TypeDesc}

theorem grow (h : ts.Grows ts') (hd : d.Formed exact ts) : d.Formed exact ts' where
  scalar := hd.scalar
  host hk t ht := by
    obtain ⟨hhas, hkind, hwithin⟩ := hd.host hk t ht
    exact ⟨h.has hhas, (h.kind hhas).trans hkind, (h.bounds hhas).symm ▸ hwithin⟩
  full := hd.full
  array hk := by
    obtain ⟨element, index, hbase, hindex, he, hi, hord, hbounds, hsize⟩ := hd.array hk
    refine ⟨element, index, hbase, hindex, h.has he, h.has hi, (h.kind hi).symm ▸ hord, ?_, fun hx => ?_⟩
    · rw [h.bounds hi]
      exact hbounds
    · rw [h.bounds hi, h.size he]
      exact hsize hx
  target hk t ht := ⟨(hd.target hk t ht).1, h.has (hd.target hk t ht).2⟩
  fields f hf := by
    obtain ⟨hhas, hoffset⟩ := hd.fields f hf
    refine ⟨h.has hhas, fun hx => ?_⟩
    rw [h.size hhas]
    exact hoffset hx
  apart hx := (hd.apart hx).imp_of_mem fun {f _} hf _ hfg => by
    rw [h.size (hd.fields f hf).1]
    exact hfg
  size := hd.size
  bounds := hd.bounds

theorem setName (hd : d.Formed exact ts) (name : Text) : TypeDesc.Formed exact ts { d with name } :=
  ⟨hd.scalar, hd.host, hd.full, hd.array, hd.target, hd.fields, hd.apart, hd.size, hd.bounds⟩

theorem setBase (hd : d.Formed exact ts) (hk : d.kind = .pointer) (hbase : ∀ t, base = some t → ¬exact ∧ ts.Has t) :
    TypeDesc.Formed exact ts { d with base } where
  scalar := hd.scalar
  host hord := by simp [hk, TypeKind.isOrdinal] at hord
  full _ b hb := by simp [hk, TypeKind.range?] at hb
  array harray := by simp [hk] at harray
  target _ := hbase
  fields := hd.fields
  apart := hd.apart
  size := hd.size
  bounds := hd.bounds

/-- A type whose values take one word. -/
theorem ofScalar (hk : d.kind.isAggregate = false) (hsize : d.size = 1) (hfields : d.fields = [])
    (htarget : d.kind = .pointer → ∀ t, d.base = some t → ¬exact ∧ ts.Has t)
    (hhost : d.kind.isOrdinal = true → ∀ h, d.base = some h →
      ts.Has h ∧ ts.kind h = d.kind ∧ d.bounds.Within (ts.bounds h))
    (hfull : d.base = none → ∀ b, d.kind.range? = some b → d.bounds = b)
    (hbounds : exact → d.kind.isOrdinal = true → -2 ^ 31 ≤ d.bounds.lower.toInt ∧
      d.bounds.lower.toInt ≤ d.bounds.upper.toInt ∧ d.bounds.upper.toInt < 2 ^ 48) : d.Formed exact ts where
  scalar _ := hsize
  host := hhost
  full := hfull
  array harray := by simp [harray, TypeKind.isAggregate] at hk
  target := htarget
  fields f hf := by simp [hfields] at hf
  apart _ := hfields ▸ .nil
  size _ := by rw [hsize]; decide
  bounds := hbounds

theorem enumeration (name : Text) {count : Nat} (hpos : exact → 0 < count) (hle : exact → count ≤ 2 ^ 48) :
    (TypeDesc.enumeration name (Int64.ofNat count)).Formed exact ts := by
  refine ofScalar rfl rfl rfl (fun hk => nomatch hk) (fun _ h hh => nomatch hh) (fun _ b hb => nomatch hb)
    fun hx _ => ?_
  have hpos := hpos hx
  have hle := hle hx
  have hcount : (Int64.ofNat count).toInt = count := toInt_ofNat (by omega)
  have hupper : (Int64.ofNat count - 1).toInt = count - 1 := by
    rw [toInt_sub, hcount]
    · rfl
    · rw [hcount]
      exact ⟨by show -2 ^ 63 ≤ (count : Int) - 1; omega, by show (count : Int) - 1 < 2 ^ 63; omega⟩
  simp only [TypeDesc.enumeration, hupper]
  refine ⟨by decide, ?_, by omega⟩
  show (0 : Int) ≤ _
  omega

theorem pointer (hbase : ∀ t, base = some t → ¬exact ∧ ts.Has t) : (TypeDesc.pointer base).Formed exact ts :=
  ofScalar rfl rfl rfl (fun _ => hbase) (fun hord => by simp [TypeDesc.pointer, TypeKind.isOrdinal] at hord)
    (fun _ b hb => nomatch hb) fun _ hord => by simp [TypeDesc.pointer, TypeKind.isOrdinal] at hord

end TypeDesc.Formed

namespace TypeTable

variable {exact : Prop} {ts : TypeTable} {t element index : TypeId} {d : TypeDesc}

theorem formed_builtins : builtins.Formed exact := by
  intro i d hd
  have hmem : d ∈ builtins.descs := Array.mem_of_getElem? hd
  simp only [builtins, mem_toArray, mem_cons, not_mem_nil, or_false] at hmem
  rcases hmem with rfl | rfl | rfl | rfl | rfl <;>
    exact .ofScalar rfl rfl rfl (fun _ t ht => nomatch ht) (fun _ h hh => nomatch hh)
      (fun _ b hb => by cases hb <;> rfl) fun _ => by decide

theorem root_of_not_ordinal (h : (ts.kind t).isOrdinal = false) : ts.root t = t := by
  unfold root
  cases ts.descs.size with
  | zero => rfl
  | succ fuel =>
    unfold rootFrom
    dsimp only
    split
    · rw [if_neg]
      rw [show (ts.get t).kind = ts.kind t from rfl, h]
      decide
    · rfl

theorem subrange?_eq_ok {host : TypeId} {lower upper : Int64} (h : ts.subrange? host lower upper = .ok d) :
    (ts.kind (ts.root host)).isOrdinal = true ∧ lower ≤ upper ∧
      (ts.bounds (ts.root host)).lower ≤ lower ∧ upper ≤ (ts.bounds (ts.root host)).upper ∧
      d = { kind := ts.kind (ts.root host), bounds := ⟨lower, upper⟩, base := some (ts.root host) } := by
  unfold subrange? at h
  dsimp only at h
  split at h
  · simp at h
  · next hord =>
    split at h
    · simp at h
    · next hle =>
      split at h
      · simp at h
      · next hcontains =>
        simp only [Bounds.contains, Bool.not_eq_true, Bool.not_eq_false', Bool.and_eq_true,
          decide_eq_true_eq] at hcontains hord
        exact ⟨hord, Int64.not_lt.mp hle, hcontains.1.1, hcontains.2.2, (Except.ok.inj h).symm⟩

theorem array?_eq_ok (h : ts.array? index element = .ok d) :
    (ts.kind index).isOrdinal = true ∧ (ts.bounds index).span ≤ 2147483647 / max (ts.size element) 1 ∧
      d = { kind := .array, size := (ts.bounds index).span * ts.size element, bounds := ts.bounds index,
            base := some element, index := some index } := by
  unfold array? at h
  dsimp only at h
  split at h
  · simp at h
  · next hord =>
    split at h
    · simp at h
    · next hspan => exact ⟨by simpa [kind] using hord, Int64.not_lt.mp hspan, (Except.ok.inj h).symm⟩

/-- The ordinals of a range whose bounds are far from the ends of the words. -/
theorem toInt_span {b : Bounds} (hlower : -2 ^ 31 ≤ b.lower.toInt) (hle : b.lower.toInt ≤ b.upper.toInt)
    (hupper : b.upper.toInt < 2 ^ 48) : b.span.toInt = b.upper.toInt - b.lower.toInt + 1 := by
  have hsub : (b.upper - b.lower).toInt = b.upper.toInt - b.lower.toInt :=
    toInt_sub ⟨by omega, by omega⟩
  have hone : (1 : Int64).toInt = 1 := rfl
  rw [Bounds.span, toInt_add, hsub, hone]
  rw [hsub, hone]
  exact ⟨by omega, by omega⟩

/-- A number of elements that passes the check gives an array that is not too large. -/
theorem mul_le_of_le_quotient {span size : Int64} (hsize : 1 ≤ size.toInt)
    (h : span ≤ 2147483647 / max size 1) : span.toInt * size.toInt ≤ 2147483647 := by
  have hmax : max size 1 = size := by
    show (if size ≤ 1 then 1 else size) = size
    split
    · next hle =>
      have : size.toInt ≤ 1 := Int64.le_iff_toInt_le.mp hle
      exact Int64.toInt_inj.mp (show (1 : Int) = size.toInt by omega)
    · rfl
  rw [hmax, Int64.le_iff_toInt_le, Int64.toInt_div_of_ne_left _ _ (by decide),
    Int.tdiv_eq_ediv_of_nonneg (by decide)] at h
  exact (Int.le_ediv_iff_mul_le (by omega)).mp h

namespace Formed

variable (h : ts.Formed exact)

include h

section

variable (ht : ts.Has t)

include ht

theorem scalar (hk : ts.isAggregate t = false) : ts.size t = 1 :=
  (h _ _ ht.getElem?).scalar hk

theorem size (hx : exact) : 1 ≤ (ts.size t).toInt ∧ (ts.size t).toInt < 2 ^ 31 :=
  (h _ _ ht.getElem?).size hx

theorem bounds (hx : exact) (hord : (ts.kind t).isOrdinal = true) : -2 ^ 31 ≤ (ts.bounds t).lower.toInt ∧
      (ts.bounds t).lower.toInt ≤ (ts.bounds t).upper.toInt ∧ (ts.bounds t).upper.toInt < 2 ^ 48 :=
  (h _ _ ht.getElem?).bounds hx hord

theorem kind_rootFrom (fuel : Nat) : ts.Has (ts.rootFrom fuel t) ∧ ts.kind (ts.rootFrom fuel t) = ts.kind t := by
  induction fuel generalizing t with
  | zero => exact ⟨ht, rfl⟩
  | succ fuel ih =>
    unfold rootFrom
    dsimp only
    split
    · next host hbase =>
      split
      · next hord =>
        obtain ⟨hhas, hkind, -⟩ := (h _ _ ht.getElem?).host hord host hbase
        obtain ⟨hroot, hkind'⟩ := ih hhas
        exact ⟨hroot, hkind'.trans hkind⟩
      · exact ⟨ht, rfl⟩
    · exact ⟨ht, rfl⟩

theorem rootKind : ts.rootKind t = ts.kind t :=
  (h.kind_rootFrom ht _).2

theorem has_root : ts.Has (ts.root t) :=
  (h.kind_rootFrom ht _).1

end

theorem kind_of_same {a b : TypeId} (ha : ts.Has a) (hb : ts.Has b)
    (hsame : ts.same a b = true) : ts.kind a = ts.kind b := by
  rw [← h.rootKind ha, ← h.rootKind hb]
  unfold same at hsame
  dsimp only at hsame
  split at hsame
  · next heq => rw [TypeTable.rootKind, TypeTable.rootKind, heq]
  · split at hsame
    · simp at hsame
    · next hkind => exact Decidable.not_not.mp hkind

/-- Two types of which one is an aggregate are the same only if they are one type. -/
theorem eq_of_same {a b : TypeId} (hb : ts.Has b)
    (hagg : ts.isAggregate a = true) (hsame : ts.same a b = true) : a = b := by
  have not_ordinal {k : TypeKind} (hk : k.isAggregate = true) : k.isOrdinal = false := by
    cases k <;> simp_all [TypeKind.isAggregate, TypeKind.isOrdinal]
  have hroot : ts.root a = a := root_of_not_ordinal (not_ordinal hagg)
  unfold same at hsame
  simp only [hroot] at hsame
  split at hsame
  · next heq =>
    have hkind : ts.kind b = ts.kind a := by rw [heq, ← h.rootKind hb]; rfl
    rw [root_of_not_ordinal] at heq
    · exact heq
    · exact not_ordinal (hkind ▸ hagg)
  · have : (ts.get a).kind = ts.kind a := rfl
    unfold isAggregate at hagg
    split at hsame
    · simp at hsame
    · rw [this] at hsame
      revert hsame hagg
      cases ts.kind a <;> simp [TypeKind.isAggregate]

theorem scalar_of_convert {target source : TypeId} (ht : ts.Has target)
    (hs : ts.Has source) {c : Conversion} (hc : ts.convert target source = .ok c)
    (hscalar : ts.isAggregate target = false) : ts.isAggregate source = false := by
  have hsource : ts.kind (ts.root source) = ts.kind source := h.rootKind hs
  have htarget : ts.kind (ts.root target) = ts.kind target := h.rootKind ht
  unfold TypeTable.convert at hc
  unfold isAggregate at hscalar ⊢
  dsimp only at hc
  split at hc
  · next hk =>
    rw [← hsource, hk]
    rfl
  · next hk =>
    rw [← hsource, hk]
    rfl
  · split at hc
    · next hsame =>
      have hkind := h.kind_of_same (h.has_root ht) (h.has_root hs) hsame
      rw [← hsource, ← hkind, htarget]
      exact hscalar
    · simp at hc

theorem subrange {host : TypeId} (hhost : ts.Has host) {lower upper : Int64}
    (hd : ts.subrange? host lower upper = .ok d) : d.Formed exact ts := by
  have hroot := h.has_root hhost
  obtain ⟨hord, hle, hlower, hupper, rfl⟩ := subrange?_eq_ok hd
  simp only [Int64.le_iff_toInt_le] at hle hlower hupper
  refine .ofScalar ?_ rfl rfl (fun hk => ?_) (fun _ t ht => ?_) (fun hb => nomatch hb) fun hx _ => ?_
  · revert hord
    dsimp only
    cases ts.kind (ts.root host) <;> simp [TypeKind.isOrdinal, TypeKind.isAggregate]
  · rw [show ts.kind (ts.root host) = .pointer from hk] at hord
    cases hord
  · cases ht
    exact ⟨hroot, rfl, hlower, hupper⟩
  · have hb := h.bounds hroot hx hord
    dsimp only
    omega

theorem array_exact (hi : ts.Has index) (hord : (ts.kind index).isOrdinal = true)
    (he : ts.Has element) (hspan : (ts.bounds index).span ≤ 2147483647 / max (ts.size element) 1) (hx : exact) :
    ((ts.bounds index).span * ts.size element).toInt =
        ((ts.bounds index).upper.toInt - (ts.bounds index).lower.toInt + 1) * (ts.size element).toInt ∧
      1 ≤ ((ts.bounds index).span * ts.size element).toInt ∧
      ((ts.bounds index).span * ts.size element).toInt < 2 ^ 31 := by
  obtain ⟨hlower, hle, hupper⟩ := h.bounds hi hx hord
  obtain ⟨hpos, -⟩ := h.size he hx
  have hspan' := toInt_span hlower hle hupper
  have hmul := mul_le_of_le_quotient hpos hspan
  have hone : 1 ≤ (ts.bounds index).span.toInt := by
    rw [hspan']
    omega
  have hprod : 1 * 1 ≤ (ts.bounds index).span.toInt * (ts.size element).toInt :=
    Int.mul_le_mul hone hpos (by decide) (by omega)
  have heq : ((ts.bounds index).span * ts.size element).toInt = _ :=
    toInt_mul ⟨by omega, Int.lt_of_le_of_lt hmul (by decide)⟩
  exact ⟨by rw [heq, hspan'], by omega, by omega⟩

theorem array (hi : ts.Has index) (he : ts.Has element) (hd : ts.array? index element = .ok d) : d.Formed exact ts := by
  obtain ⟨hord, hspan, rfl⟩ := array?_eq_ok hd
  have hexact := h.array_exact hi hord he hspan
  exact {
    scalar := fun hk => nomatch hk
    host := fun hk => nomatch hk
    full := fun hb => nomatch hb
    array := fun _ => ⟨element, index, rfl, rfl, he, hi, hord, rfl, fun hx => (hexact hx).1.symm⟩
    target := fun hk => nomatch hk
    fields := fun f hf => nomatch hf
    apart := fun _ => .nil
    size := fun hx => (hexact hx).2
    bounds := fun _ hk => nomatch hk }

theorem record (hne : exact → named ≠ []) (hhas : ∀ f ∈ named, ts.Has f.2)
    (htotal : exact → ts.total (ts.record named).fields < 2 ^ 31) : (ts.record named).Formed exact ts := by
  have hfield : ∀ f ∈ (ts.record named).fields, ts.Has f.type := fun f hf =>
    hhas _ (mem_of_placeFields hf)
  have hpos (hx : exact) : ∀ f ∈ (ts.record named).fields, 0 ≤ (ts.size f.type).toInt := fun f hf => by
    have := (h.size (hfield f hf) hx).1
    omega
  have hsize (hx : exact) : (ts.record named).size.toInt = ts.total (ts.record named).fields := by
    rw [← toInt_width (hpos hx) (Nat.lt_trans (htotal hx) (by decide))]
    show (ts.placeFields 0 named).2.toInt = _
    rw [placeFields_end, Int64.zero_add]
    rfl
  have hplaced : ts.Placed 0 (ts.record named).fields := ts.placed_placeFields 0 named
  refine ⟨fun hk => by simp [TypeTable.record, TypeKind.isAggregate] at hk,
    fun hk => by simp [TypeTable.record, TypeKind.isOrdinal] at hk, fun _ b hb => (nomatch hb),
    fun hk => by simp [TypeTable.record] at hk, fun hk => by simp [TypeTable.record] at hk,
    fun f hf => ⟨hfield f hf, fun hx => ?_⟩, fun hx => ?_, fun hx => ?_,
    fun _ hk => by simp [TypeTable.record, TypeKind.isOrdinal] at hk⟩
  · have hlt := htotal hx
    have hzero : (0 : Int64).toInt = 0 := rfl
    have := hplaced.bounds (hpos hx) hlt (by decide) (by rw [hzero]; omega) f hf
    rw [hsize hx]
    rw [hzero] at this
    exact ⟨this.1, by omega⟩
  · have hlt := htotal hx
    exact hplaced.apart (hpos hx) hlt (by decide) (by rw [toInt_zero]; omega)
  · rw [hsize hx]
    refine ⟨?_, by exact_mod_cast htotal hx⟩
    cases named with
    | nil => exact absurd rfl (hne hx)
    | cons f rest =>
      have hf := (h.size (hhas f (by simp)) hx).1
      show 1 ≤ ((ts.words f.2 + ts.total _ : Nat) : Int)
      unfold words
      omega

/-- A type may be entered that is formed as it should be. -/
theorem add (hd : d.Formed exact ts) : (ts.add d).2.Formed exact := by
  intro i e he
  have he : (ts.descs.push d)[i]? = some e := he
  rw [Array.getElem?_push] at he
  split at he
  · simp only [Option.some.injEq] at he
    exact he ▸ hd.grow (ts.grows_add d)
  · exact (h i e he).grow (ts.grows_add d)

theorem modify {f : TypeDesc → TypeDesc} (hgrows : ts.Grows (ts.modify t f))
    (hf : ∀ d, ts.descs[t.index]? = some d → d.Formed exact ts → (f d).Formed exact ts) :
    (ts.modify t f).Formed exact := by
  intro i e he
  have he : (ts.descs.modify t.index f)[i]? = some e := he
  rw [Array.getElem?_modify] at he
  split at he
  · next hi =>
    subst hi
    obtain ⟨d, hd, rfl⟩ := Option.map_eq_some_iff.mp he
    exact (hf d hd (h _ d hd)).grow hgrows
  · exact (h i e he).grow hgrows

theorem setName (t : TypeId) (name : Text) : (ts.setName t name).Formed exact :=
  h.modify (ts.grows_setName t name) fun _ _ hd => hd.setName name

theorem setBase (hk : ts.Has t → ts.kind t = .pointer)
    (hbase : ∀ u, base = some u → ¬exact ∧ ts.Has u) : (ts.setBase t base).Formed exact :=
  h.modify (ts.grows_setBase t base) fun d hd hformed => by
    have hhas : ts.Has t := (Array.getElem?_eq_some_iff.mp hd).1
    have hkind : d.kind = .pointer := by
      rw [← hk hhas, kind, get_eq hd]
    exact hformed.setBase hkind hbase

end Formed

end TypeTable

end MiniPascal
