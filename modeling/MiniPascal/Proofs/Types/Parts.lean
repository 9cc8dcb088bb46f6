import MiniPascal.Proofs.Types.Formation

/-!
# Parts of values

A value of an aggregate type has other values inside it: the elements of an array, the fields of a record, and
the parts of these. A part lies within the words of the whole, and no word is shared by two scalar parts, so the
type of the scalar at a word is known.
-/

namespace MiniPascal.TypeTable

/-- A value of a type has a value of another type inside it, a number of words from its start. -/
inductive Part (ts : TypeTable) : TypeId → Nat → TypeId → Prop
  | whole (t : TypeId) : Part ts t 0 t
  | element {a e t : TypeId} {k i : Nat} (hkind : ts.kind a = .array) (hbase : (ts.get a).base = some e)
      (hwithin : (k + 1) * ts.words e ≤ ts.words a) (hpart : Part ts e i t) : Part ts a (k * ts.words e + i) t
  | field {r t : TypeId} {f : Field} {i : Nat} (hkind : ts.kind r = .record) (hf : f ∈ (ts.get r).fields)
      (hpart : Part ts f.type i t) : Part ts r (f.offset.toInt.toNat + i) t

namespace Part

variable {ts : TypeTable} {a b t t' : TypeId} {i j : Nat}

theorem trans (h : ts.Part a i b) (h' : ts.Part b j t) : ts.Part a (i + j) t := by
  induction h with
  | whole => rwa [Nat.zero_add]
  | element hkind hbase hwithin _ ih =>
    rw [Nat.add_assoc]
    exact .element hkind hbase hwithin (ih h')
  | field hkind hf _ ih =>
    rw [Nat.add_assoc]
    exact .field hkind hf (ih h')

theorem of_element {k : Nat} (hkind : ts.kind a = .array) (hbase : (ts.get a).base = some t)
    (hwithin : (k + 1) * ts.words t ≤ ts.words a) : ts.Part a (k * ts.words t) t :=
  element hkind hbase hwithin (.whole t)

theorem of_field {f : Field} (hkind : ts.kind a = .record) (hf : f ∈ (ts.get a).fields) :
    ts.Part a f.offset.toInt.toNat f.type :=
  field hkind hf (.whole f.type)

theorem eq_of_scalar (h : ts.Part a i t) (ha : ts.isAggregate a = false) : i = 0 ∧ t = a := by
  cases h with
  | whole => exact ⟨rfl, rfl⟩
  | element hkind | field hkind =>
    rw [isAggregate, hkind] at ha
    cases ha

end Part

variable {ts : TypeTable}

theorem eq_of_shared {fields : List Field}
    (h : fields.Pairwise fun f g => f.offset.toInt + (ts.size f.type).toInt ≤ g.offset.toInt) {f g : Field}
    (hf : f ∈ fields) (hg : g ∈ fields) {w : Int}
    (hfw : f.offset.toInt ≤ w ∧ w < f.offset.toInt + (ts.size f.type).toInt)
    (hgw : g.offset.toInt ≤ w ∧ w < g.offset.toInt + (ts.size g.type).toInt) : f = g := by
  induction h with
  | nil => cases hf
  | cons hfirst _ ih =>
    rcases List.mem_cons.mp hf with rfl | hmem <;> rcases List.mem_cons.mp hg with rfl | hmem'
    · rfl
    · have := hfirst g hmem'
      omega
    · have := hfirst f hmem
      omega
    · exact ih hmem hmem'

/-- The quotient and the remainder of a number by another one are known. -/
theorem eq_of_mul_add {n k k' i i' : Nat} (hi : i < n) (hi' : i' < n) (h : k * n + i = k' * n + i') : i = i' := by
  have hmod := congrArg (· % n) h
  simpa only [Nat.mul_add_mod_self_right, Nat.mod_eq_of_lt hi, Nat.mod_eq_of_lt hi'] using hmod

section

variable {a t t' : TypeId} {i : Nat} {exact : Prop} (hx : exact) (hformed : ts.Formed exact)

include hx hformed

theorem Formed.words_pos (ht : ts.Has t) : 1 ≤ ts.words t := by
  have := (hformed.size ht hx).1
  unfold words
  omega

theorem Part.within (h : ts.Part a i t) (ha : ts.Has a) : ts.Has t ∧ i + ts.words t ≤ ts.words a := by
  induction h with
  | whole => exact ⟨ha, Nat.le_of_eq (Nat.zero_add _)⟩
  | @element a e t k i hkind hbase hwithin _ ih =>
    obtain ⟨element, _, hbase', -, helement, -⟩ := (hformed _ _ ha.getElem?).array hkind
    obtain rfl : e = element := Option.some.inj (hbase.symm.trans hbase')
    obtain ⟨ht, hle⟩ := ih helement
    rw [Nat.succ_mul] at hwithin
    exact ⟨ht, by omega⟩
  | @field r t f i hkind hf _ ih =>
    obtain ⟨hhas, hoffset⟩ := (hformed _ _ ha.getElem?).fields f hf
    obtain ⟨ht, hle⟩ := ih hhas
    obtain ⟨hlower, hupper⟩ := hoffset hx
    have hsize := (hformed.size hhas hx).1
    have hrecord : f.offset.toInt + (ts.size f.type).toInt ≤ (ts.size r).toInt := hupper
    unfold words at hle ⊢
    exact ⟨ht, by omega⟩

/-- The type of the scalar at a word is known. -/
theorem Part.unique (h : ts.Part a i t) (h' : ts.Part a i t') (ha : ts.Has a) (ht : ts.isAggregate t = false)
    (ht' : ts.isAggregate t' = false) : t = t' := by
  induction h with
  | whole a => exact (h'.eq_of_scalar ht).2.symm
  | @element a e t k i hkind hbase hwithin hpart ih =>
    obtain ⟨element, _, hbase', -, helement, -⟩ := (hformed _ _ ha.getElem?).array hkind
    obtain rfl : e = element := Option.some.inj (hbase.symm.trans hbase')
    have hwithin := (hpart.within hx hformed helement).2
    have hpos := hformed.words_pos hx (hpart.within hx hformed helement).1
    generalize hword : k * ts.words e + i = word at h'
    cases h' with
    | whole =>
      rw [isAggregate, hkind] at ht'
      cases ht'
    | @element _ e' _ k' i' _ hbase' _ hpart' =>
      obtain rfl : e = e' := Option.some.inj (hbase.symm.trans hbase')
      have hwithin' := (hpart'.within hx hformed helement).2
      have hpos' := hformed.words_pos hx (hpart'.within hx hformed helement).1
      obtain rfl : i = i' := eq_of_mul_add (by omega) (by omega) hword
      exact ih hpart' helement ht
    | field hkind' =>
      rw [hkind] at hkind'
      cases hkind'
  | @field r t f i hkind hf hpart ih =>
    have hdesc := hformed _ _ ha.getElem?
    obtain ⟨hhas, hoffset⟩ := hdesc.fields f hf
    have hwithin := (hpart.within hx hformed hhas).2
    have hpos := hformed.words_pos hx (hpart.within hx hformed hhas).1
    generalize hword : f.offset.toInt.toNat + i = word at h'
    cases h' with
    | whole =>
      rw [isAggregate, hkind] at ht'
      cases ht'
    | element hkind' =>
      rw [hkind] at hkind'
      cases hkind'
    | @field _ _ g i' _ hg hpart' =>
      obtain ⟨hhas', hoffset'⟩ := hdesc.fields g hg
      have hwithin' := (hpart'.within hx hformed hhas').2
      have hpos' := hformed.words_pos hx (hpart'.within hx hformed hhas').1
      have hlower := (hoffset hx).1
      have hlower' := (hoffset' hx).1
      unfold words at hwithin hwithin' hpos hpos'
      obtain rfl : f = g := eq_of_shared (hdesc.apart hx) hf hg (w := f.offset.toInt + i) (by omega) (by omega)
      obtain rfl : i = i' := by omega
      exact ih hpart' hhas ht

end

end MiniPascal.TypeTable
