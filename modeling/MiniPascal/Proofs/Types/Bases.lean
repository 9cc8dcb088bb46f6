import MiniPascal.Proofs.Types.Formation

/-!
# Bases of types

A type that is declared later leaves the bases of the types that are there; only a pointer that has no base yet may
be given one later. The host of a subrange is declared before it. So the root of a type does not change, nor does it change
whether the values of a type have to be checked.
-/

namespace MiniPascal.TypeTable

variable {ts ts' ts'' : TypeTable} {t : TypeId}

/-- A pointer has no base yet. -/
structure Waits (ts : TypeTable) (t : TypeId) : Prop where
  has : ts.Has t
  kind : ts.kind t = .pointer
  base : (ts.get t).base = none

theorem Waits.grow (h : ts.Waits t) (hgrows : ts.Grows ts') (hbase : (ts'.get t).base = (ts.get t).base) : ts'.Waits t :=
  ⟨hgrows.has h.has, (hgrows.kind h.has).trans h.kind, hbase.trans h.base⟩

/-- A table has the bases of another one, those apart that are still to come. -/
def Retains (ts ts' : TypeTable) : Prop :=
  ∀ t, ts.Has t → ¬ts.Waits t → (ts'.get t).base = (ts.get t).base

/-- Hosts of subranges come before these. -/
def Ordered (ts : TypeTable) : Prop :=
  ∀ t, ts.Has t → (ts.kind t).isOrdinal = true → ∀ h, (ts.get t).base = some h → h.index < t.index

theorem Retains.refl (ts : TypeTable) : ts.Retains ts := fun _ _ _ => rfl

theorem Retains.trans (h : ts.Retains ts') (hgrows : ts.Grows ts') (h' : ts'.Retains ts'') : ts.Retains ts'' := by
  intro t ht hwaits
  have hbase := h t ht hwaits
  refine (h' t (hgrows.has ht) fun hwaits' => hwaits ?_).trans hbase
  exact ⟨ht, (hgrows.kind ht).symm.trans hwaits'.kind, hbase.symm.trans hwaits'.base⟩

/-- A type of an order keeps its base. -/
theorem Retains.ordinal (h : ts.Retains ts') (ht : ts.Has t) (hord : (ts.kind t).isOrdinal = true) :
    (ts'.get t).base = (ts.get t).base := by
  refine h t ht fun hwaits => ?_
  rw [hwaits.kind] at hord
  cases hord

/-! ### A type is added -/

theorem Ordered.add {exact : Prop} (h : ts.Ordered) {d : TypeDesc} (hd : d.Formed exact ts) : (ts.add d).2.Ordered := by
  intro t ht hord host hbase
  rcases has_add_iff.mp ht with ht | rfl
  · rw [kind, get_add_of_has d ht] at hord
    rw [get_add_of_has d ht] at hbase
    exact h t ht hord host hbase
  · rw [kind, get_add] at hord
    rw [get_add] at hbase
    exact (hd.host hord host hbase).1

/-! ### A type is changed -/

theorem has_modify {f : TypeDesc → TypeDesc} {u : TypeId} : (ts.modify t f).Has u ↔ ts.Has u := by
  show u.index < (ts.descs.modify t.index f).size ↔ _
  rw [Array.size_modify]
  rfl

/-- A change of a type leaves the others alone. -/
theorem get_setBase_of_ne {ts : TypeTable} {t u : TypeId} {base : Option TypeId} (h : t ≠ u) :
    (ts.setBase t base).get u = ts.get u := by
  have hne : t.index ≠ u.index := by
    intro heq
    cases t
    cases u
    exact h (congrArg TypeId.mk heq)
  simp [get, setBase, modify, Array.getElem?_modify, hne]

theorem base_setName (ts : TypeTable) (t u : TypeId) (name : Text) :
    ((ts.setName t name).get u).base = (ts.get u).base := by
  simp only [get, setName, modify, Array.getElem?_modify]
  split
  · cases ts.descs[u.index]? <;> rfl
  · rfl

theorem get_setBase (hpointer : ts.kind t = .pointer) (base : Option TypeId) {u : TypeId}
    (hkind : ts.kind u ≠ .pointer) : (ts.setBase t base).get u = ts.get u := by
  refine get_setBase_of_ne ?_
  rintro rfl
  exact hkind hpointer

theorem Ordered.setName (h : ts.Ordered) (t : TypeId) (name : Text) : (ts.setName t name).Ordered := by
  intro u hu hord host hbase
  have hu := has_modify.mp hu
  rw [(ts.grows_setName t name).kind hu] at hord
  rw [base_setName] at hbase
  exact h u hu hord host hbase

theorem Ordered.setBase (h : ts.Ordered) (hpointer : ts.kind t = .pointer) (base : Option TypeId) :
    (ts.setBase t base).Ordered := by
  intro u hu hord host hbase
  have hu := has_modify.mp hu
  rw [(ts.grows_setBase t base).kind hu] at hord
  have hkind : ts.kind u ≠ .pointer := by
    intro hkind
    rw [hkind] at hord
    cases hord
  rw [get_setBase hpointer base hkind] at hbase
  exact h u hu hord host hbase

theorem ordered_builtins : builtins.Ordered := by
  intro t ht _ host hbase
  have hall : ∀ i < 5, (builtins.get ⟨i⟩).base = none := by decide
  rw [hall t.index ht] at hbase
  cases hbase

/-- A table made from the built-in types by forming one type after the other. Types may be given names, and pointers their
bases, later. -/
inductive Made : TypeTable → Prop where
  | builtins : Made builtins
  | subrange {ts : TypeTable} {host : TypeId} {lower upper : Int64} {d : TypeDesc} (made : Made ts) (hhost : ts.Has host)
      (hd : ts.subrange? host lower upper = .ok d) : Made (ts.add d).2
  | array {ts : TypeTable} {index element : TypeId} {d : TypeDesc} (made : Made ts) (hindex : ts.Has index)
      (helement : ts.Has element) (hd : ts.array? index element = .ok d) : Made (ts.add d).2
  | record {ts : TypeTable} {fields : List (Text × TypeId)} (made : Made ts) (hfields : ∀ f ∈ fields, ts.Has f.2) :
      Made (ts.add (ts.record fields)).2
  | enumeration {ts : TypeTable} (made : Made ts) (name : Text) (count : Nat) :
      Made (ts.add (.enumeration name (Int64.ofNat count))).2
  | pointer {ts : TypeTable} {base : Option TypeId} (made : Made ts) (hbase : ∀ t, base = some t → ts.Has t) :
      Made (ts.add (.pointer base)).2
  | named {ts : TypeTable} (made : Made ts) (t : TypeId) (name : Text) : Made (ts.setName t name)
  | based {ts : TypeTable} {t base : TypeId} (made : Made ts) (ht : ts.kind t = .pointer) (hbase : ts.Has base) :
      Made (ts.setBase t (some base))

/-- Types that are formed one after the other are formed as they should be, and hosts come before their subranges. -/
theorem Made.formed (h : ts.Made) : ts.Formed False ∧ ts.Ordered := by
  have add {ts : TypeTable} {d : TypeDesc} (h : ts.Formed False ∧ ts.Ordered) (hd : d.Formed False ts) :
      (ts.add d).2.Formed False ∧ (ts.add d).2.Ordered := ⟨h.1.add hd, h.2.add hd⟩
  induction h with
  | builtins => exact ⟨formed_builtins, ordered_builtins⟩
  | subrange _ hhost hd ih => exact add ih (ih.1.subrange hhost hd)
  | array _ hindex helement hd ih => exact add ih (ih.1.array hindex helement hd)
  | record _ hfields ih => exact add ih (ih.1.record False.elim hfields False.elim)
  | enumeration _ name count ih => exact add ih (.enumeration name False.elim False.elim)
  | pointer _ hbase ih => exact add ih (.pointer fun t ht => ⟨not_false, hbase t ht⟩)
  | named _ t name ih => exact ⟨ih.1.setName t name, ih.2.setName t name⟩
  | based _ ht hbase ih =>
    exact ⟨ih.1.setBase (fun _ => ht) fun t ht => ⟨not_false, Option.some.inj ht ▸ hbase⟩, ih.2.setBase ht _⟩

/-! ### Roots -/

section

variable {exact : Prop} (hordered : ts.Ordered) (hformed : ts.Formed exact)

include hordered hformed

/-- The last host of an ordinal type has no host itself and has all values of the type. -/
theorem rootFrom_last {n : Nat} (ht : ts.Has t) (hord : ts.isOrdinal t = true) (hn : t.index < n) :
    (ts.get (ts.rootFrom n t)).base = none ∧ (ts.bounds t).Within (ts.bounds (ts.rootFrom n t)) := by
  induction n generalizing t with
  | zero => omega
  | succ n ih =>
    unfold rootFrom
    dsimp only
    cases hbase : (ts.get t).base with
    | none => exact ⟨hbase, Int.le_refl _, Int.le_refl _⟩
    | some host =>
      have hord' : (ts.get t).kind.isOrdinal = true := hord
      obtain ⟨hhas, hkind, hwithin⟩ := (hformed _ _ ht.getElem?).host hord host hbase
      have hlt := hordered t ht hord host hbase
      obtain ⟨hnone, hlast⟩ := ih hhas (by rw [isOrdinal, hkind]; exact hord) (by omega)
      dsimp only
      rw [if_pos hord']
      exact ⟨hnone, Int.le_trans hlast.1 hwithin.1, Int.le_trans hwithin.2 hlast.2⟩

theorem within_root (ht : ts.Has t) (hord : ts.isOrdinal t = true) :
    (ts.bounds t).Within (ts.bounds (ts.root t)) := (rootFrom_last hordered hformed ht hord ht).2

/-- The numbers, the truth values and the characters without their subranges. -/
theorem bounds_root (ht : ts.Has t) {b : Bounds} (hb : (ts.kind t).range? = some b) : ts.bounds (ts.root t) = b := by
  have hkind : (ts.get (ts.root t)).kind = ts.kind t := hformed.rootKind ht
  have hord : ts.isOrdinal t = true := by
    unfold isOrdinal
    cases hk : ts.kind t <;> rw [hk] at hb <;> first | rfl | cases hb
  exact (hformed _ _ (hformed.has_root ht).getElem?).full (rootFrom_last hordered hformed ht hord ht).1 b (hkind ▸ hb)

end

/-- The values of a type without a host are those of its root. -/
theorem bounds_of_not_narrow (ht : ts.Has t) (hord : ts.isOrdinal t = true) (h : ts.isNarrow t = false) :
    ts.bounds t = ts.bounds (ts.root t) := by
  have hord : (ts.get t).kind.isOrdinal = true := hord
  unfold isNarrow TypeDesc.isSubrange at h
  cases hbase : (ts.get t).base with
  | none =>
    obtain ⟨n, hn⟩ := Nat.exists_eq_succ_of_ne_zero (Nat.ne_zero_of_lt ht)
    rw [root, hn, rootFrom, hbase]
  | some host =>
    show (ts.get t).bounds = _
    simpa [hord, hbase] using h

section

variable {exact : Prop} (hordered : ts.Ordered) (hformed : ts.Formed exact) (hgrows : ts.Grows ts')
  (hretains : ts.Retains ts')

include hordered hformed hgrows hretains

/-- The hosts of a type are found in a later table too, given fuel for each of the types before it. -/
theorem rootFrom_eq {n n' : Nat} (ht : ts.Has t) (hn : t.index < n) (hn' : t.index < n') :
    ts'.rootFrom n' t = ts.rootFrom n t := by
  induction n generalizing t n' with
  | zero => omega
  | succ n ih =>
    obtain ⟨k, rfl⟩ := Nat.exists_eq_succ_of_ne_zero (Nat.ne_zero_of_lt hn')
    have hkind : (ts'.get t).kind = (ts.get t).kind := hgrows.kind ht
    unfold rootFrom
    dsimp only
    rw [hkind]
    cases hord : (ts.get t).kind.isOrdinal with
    | false =>
      cases (ts'.get t).base <;> cases (ts.get t).base <;> simp
    | true =>
      rw [hretains.ordinal ht hord]
      cases hbase : (ts.get t).base with
      | none => rfl
      | some host =>
        have hlt := hordered t ht hord host hbase
        have hhost := ((hformed _ _ ht.getElem?).host hord host hbase).1
        exact ih hhost (by omega) (by omega)

theorem root_eq (ht : ts.Has t) : ts'.root t = ts.root t :=
  rootFrom_eq hordered hformed hgrows hretains ht ht (hgrows.has ht)

/-- Whether the values of a type have to be checked does not change. -/
theorem isNarrow_eq (ht : ts.Has t) : ts'.isNarrow t = ts.isNarrow t := by
  have halike := hgrows.alike ht
  have hroot : ts'.bounds (ts.root t) = ts.bounds (ts.root t) := hgrows.bounds (hformed.has_root ht)
  unfold isNarrow
  dsimp only
  rw [root_eq hordered hformed hgrows hretains ht, hroot, halike.bounds]
  unfold TypeDesc.isSubrange
  rw [halike.kind]
  cases hord : (ts.get t).kind.isOrdinal with
  | false => rfl
  | true => rw [hretains.ordinal ht hord]

end

end MiniPascal.TypeTable
