import MiniPascal.Proofs.Tree.Slots

/-!
# Balance of typed code

The code of a typed expression puts as many words on the stack as its type has, the code of a place one
address, and the code of a statement leaves the stack as it found it. Where sizes are exact, every address that
is used is the address of a variable that has all the words asked for.
-/

namespace MiniPascal

open List Word TypeTable Opcode

/-- The variables of a block lie where they should. -/
structure Level.Laid (ts : TypeTable) (exact : Prop) (l : Level) : Prop where
  routine : l.routine.WellPlaced ts
  types : ∀ f ∈ l.vars, ts.Has f.type
  placed : ts.Placed 0 l.vars
  small : exact → ts.total l.routine.params < 2 ^ 31 ∧ ts.total l.vars < 2 ^ 31

/-- Types have sizes, calls find the subprograms that are known, and the variables around a place lie where
they should. -/
structure Context.Laid (C : Context) (sig : Signatures) (entries : Entries) : Prop where
  formed : C.WellFormed
  sized : ∀ t, C.types.Has t → 1 ≤ (C.types.size t).toInt
  signed : ∀ r around, C.known r around → sig (entries.target r.id) = some r
  params : ∀ r around, C.known r around → r.WellPlaced C.types ∧ C.types.total r.params < 2 ^ 63
  levels : ∀ l ∈ C.levels, l.Laid C.types C.exact
  shallow : C.exact → C.levels.length ≤ 127

/-! ### Types -/

variable {t : TypeId}

namespace Context.WellFormed

variable {C : Context} (h : C.WellFormed)

include h

theorem words_scalar (ht : C.types.Has t) (hscalar : C.types.isAggregate t = false) : C.types.words t = 1 := by
  rw [words, h.formed.scalar ht hscalar]
  rfl

theorem has_builtin (ht : TypeTable.builtins.Has t) : C.types.Has t := h.builtins.has ht

theorem resultType (function : Builtin) (ht : C.types.Has t) : C.types.Has (function.resultTypeIn C.types t) ∧
      C.types.kind (function.resultTypeIn C.types t) = function.resultKind (C.types.kind t) := by
  have builtin {t : TypeId} (ht : TypeTable.builtins.Has t) :
      C.types.Has t ∧ C.types.kind t = TypeTable.builtins.kind t := ⟨h.has_builtin ht, h.builtins.kind ht⟩
  cases function with
  | abs | sqr => exact ⟨h.formed.has_root ht, h.formed.rootKind ht⟩
  | pred | succ => exact ⟨ht, rfl⟩
  | round | trunc | ord => exact builtin (t := .integer) (by decide)
  | odd => exact builtin (t := .boolean) (by decide)
  | chr => exact builtin (t := .char) (by decide)
  | _ => exact builtin (t := .real) (by decide)

theorem has_designator : (d : Designator) → {t : TypeId} → d.HasType C t → C.types.Has t
  | .variable .., _, ht => ht.2.2
  | .result .., _, ht => ht.2.1
  | .element array _ _ _, _, ⟨_, _, ha, _, hkind, hbase, _⟩ => (h.formed.dimension (has_designator array ha) hkind hbase).1
  | .field record _ _, _, ⟨r, hr, _, f, hf, _, ht⟩ => by
    have hhas := has_designator record hr
    exact ht ▸ ((h.formed _ _ hhas.getElem?).fields f hf).1
  | .pointee pointer _, _, ⟨_, hp, hkind, hbase⟩ =>
    ((h.formed _ _ (has_designator pointer hp).getElem?).target hkind _ hbase).2

theorem has_expr : (e : Expr) → {t : TypeId} → e.HasType C t → C.types.Has t
  | .literal .., _, ht => ht.2.1
  | .load source _ _, _, ht => h.has_designator source ht.1
  | .call .., _, ⟨_, _, _, ht, _⟩ => ht
  | .sign _ operand _, _, ht => has_expr operand ht.1
  | .complement operand _, _, ⟨_, ht, rfl, _⟩ => h.formed.has_root (has_expr operand ht)
  | .binary op _ _ kinds _, _, ⟨_, _, _, _, _, _, ht⟩ => ht ▸ h.has_builtin (op.has_resultType kinds)
  | .compare .., _, ⟨_, _, _, _, _, _, ht⟩ => ht ▸ h.has_builtin (by decide)
  | .apply function arg _ _ _, _, ⟨_, ht, _, _, rfl, _⟩ => (h.resultType function (has_expr arg ht)).1

end Context.WellFormed

/-! ### Selected operations -/

variable {k : TypeKind}

section

variable (C : Context) (sig : Signatures)

/-- Operations that leave one word in the place of one. -/
def Alters (code : List Instr) : Prop := ∀ v S, ∃ v', Turns C sig (v :: S) code (v' :: S)

/-- Operations that leave one word in the place of two. -/
def Joins (code : List Instr) : Prop := ∀ a b S, ∃ v, Turns C sig (b :: a :: S) code (v :: S)

variable {C sig} in
theorem Alters.append {code code' : List Instr} (h : Alters C sig code) (h' : Alters C sig code') :
    Alters C sig (code ++ code') := by
  intro v S
  obtain ⟨w, hw⟩ := h v S
  obtain ⟨v', hv'⟩ := h' w S
  exact ⟨v', hw.append hv'⟩

theorem alters_nil : Alters C sig [] := fun v _ => ⟨v, .nil⟩

theorem alters_unary (op : UnaryOp) : Alters C sig [{ op := .unary op }] := by
  intro v S
  have hmeets : Instr.Meets C sig { op := .unary op } (v :: S) := .of_eq (n := 1) rfl (by simp) (by simp) fun _ => trivial
  cases op with
  | ord => exact ⟨v.ordinal, .single hmeets⟩
  | _ => exact ⟨.any, .single hmeets⟩

variable {C sig} in
theorem turns_binary (op : BinaryOp) (a b : Slot) (S : List Slot) :
    Turns C sig (b :: a :: S) [{ op := .binary op }] (Slot.combine op a b :: S) :=
  .single (.of_eq (n := 2) rfl (by simp) (by simp) fun _ => trivial)

variable {C sig} in
theorem turns_itor2 (a b : Slot) (S : List Slot) : Turns C sig (b :: a :: S) [{ op := .itor2 }] (b :: .any :: S) :=
  .single (.of_eq (n := 2) rfl (by simp) (by simp) fun _ => trivial)

variable {C sig} in
theorem turns_push {d : Datum} (hd : C.exact → d.Bounded) (S : List Slot) :
    Turns C sig S [{ op := .push, arg := d }] (Slot.ofDatum d :: S) :=
  .single (.of_eq (n := 0) rfl (by simp) (by simp) hd)

variable {C sig} in
theorem Bounds.turns_code (b : Bounds) (v : Slot) (S : List Slot) :
    Turns C sig (v :: S) b.code (.within b.lower.toInt b.upper.toInt :: S) :=
  .cons (.of_eq (n := 1) rfl (by simp) (by simp) fun _ => ⟨_, rfl⟩)
    (.single (.of_eq (n := 1) rfl (by simp [Instr.effect, Instr.pushed]) (by simp) fun _ => ⟨_, rfl⟩))

theorem Promotion.turns_code (p : Promotion) (a b : Slot) (S : List Slot) :
    ∃ a' b', Turns C sig (b :: a :: S) p.code (b' :: a' :: S) := by
  cases p with
  | neither => exact ⟨a, b, .nil⟩
  | left => exact ⟨.any, b, turns_itor2 a b S⟩
  | right => exact ⟨a, alters_unary C sig .itor b (a :: S)⟩

/-- A value that is converted is known to be within the bounds that are checked. -/
theorem Conversion.turns_checked (c : Conversion) (v : Slot) (S : List Slot) :
    ∃ v', Turns C sig (v :: S) c.code (v' :: S) ∧
      ∀ b, c.bounds = some b → v' = .within b.lower.toInt b.upper.toInt := by
  obtain ⟨coercion, bounds⟩ := c
  have hcoercion : Alters C sig coercion.code := by
    cases coercion with
    | keep => exact alters_nil C sig
    | widen | round => exact alters_unary C sig _
  obtain ⟨v', hv'⟩ := hcoercion v S
  cases bounds with
  | none => exact ⟨v', hv'.append .nil, fun b hb => nomatch hb⟩
  | some b => exact ⟨_, hv'.append (b.turns_code v' S), fun b' hb => Option.some.inj hb ▸ rfl⟩

theorem Conversion.alters_code (c : Conversion) : Alters C sig c.code := by
  intro v S
  obtain ⟨v', hv', -⟩ := c.turns_checked C sig v S
  exact ⟨v', hv'⟩

theorem TypeKind.scalar_of_isNumeric (h : k.isNumeric = true) : k.isAggregate = false := by
  cases k <;> first | rfl | cases h

theorem OperandKinds.scalars_of_select {op : Operator} {k : OperandKinds} {code : List Instr}
    (h : op.select k = some code) : k.left.isAggregate = false ∧ k.right.isAggregate = false := by
  obtain ⟨l, r⟩ := k
  cases l <;> cases r <;> first | exact ⟨rfl, rfl⟩ | (cases op <;> cases h)

theorem joins_promoted (k : OperandKinds) (op : BinaryOp) :
    Joins C sig ((Promotion.ofKinds k).code ++ [{ op := .binary op }]) := by
  intro a b S
  obtain ⟨a', b', hp⟩ := (Promotion.ofKinds k).turns_code C sig a b S
  exact ⟨_, hp.append (turns_binary op a' b' S)⟩

theorem Operator.joins_select {op : Operator} {k : OperandKinds} {code : List Instr} (h : op.select k = some code) :
    Joins C sig code := by
  have numbers {op : BinaryOp} (h : onNumbers op k = some code) : Joins C sig code := by
    simp only [onNumbers, Option.ite_none_right_eq_some, Option.some.injEq] at h
    exact h.2 ▸ joins_promoted C sig k op
  have integers {op : BinaryOp} (h : onIntegers op k = some code) : Joins C sig code := by
    simp only [onIntegers, Option.ite_none_right_eq_some, Option.some.injEq] at h
    exact h.2 ▸ fun a b S => ⟨_, turns_binary op a b S⟩
  have logical {p q : BinaryOp} (h : onLogical p q k = some code) : Joins C sig code := by
    unfold onLogical at h
    split at h
    · exact Option.some.inj h ▸ fun a b S => ⟨_, turns_binary p a b S⟩
    · exact integers h
  have reals (h : onReals k = some code) : Joins C sig code := by
    simp only [onReals, Option.ite_none_right_eq_some, Option.some.injEq] at h
    obtain ⟨-, rfl⟩ := h
    intro a b S
    have hleft : ∃ a', Turns C sig (b :: a :: S) (if k.left = .integer then [{ op := .itor2 }] else [])
        (b :: a' :: S) := by
      split
      · exact ⟨_, turns_itor2 a b S⟩
      · exact ⟨a, .nil⟩
    have hright : Alters C sig (if k.right = .integer then [{ op := .unary .itor }] else []) := by
      split
      · exact alters_unary C sig .itor
      · exact alters_nil C sig
    obtain ⟨a', ha⟩ := hleft
    obtain ⟨b', hb⟩ := hright b (a' :: S)
    exact ⟨_, (ha.append hb).append (turns_binary .div a' b' S)⟩
  cases op with
  | add | sub | mul => exact numbers h
  | divide => exact reals h
  | div | mod | shl | shr => exact integers h
  | and | or | xor => exact logical h

theorem Builtin.alters_select (f : Builtin) (k : TypeKind) : Alters C sig (f.select k) := by
  have real (op : UnaryOp) : Alters C sig (onReal op k) := by
    unfold onReal
    split
    · exact (alters_unary C sig .itor).append (alters_unary C sig op)
    · exact alters_unary C sig op
  cases f with
  | sin | cos | arctan | exp | ln | sqrt | round | trunc => exact real _
  | _ => exact alters_unary C sig _

variable {C} in
theorem Dimension.turns_code {d : Dimension} {words : Int}
    (h : C.exact → d.Covers words ∧ words < 2 ^ 31 ∧ 1 ≤ d.elementSize.toInt) (i p : Slot) (S : List Slot) :
    ∃ v, Turns C sig (i :: p :: S) d.code (v :: S) ∧ (C.exact → ∀ k spot, p = .place k spot →
      v = .place (k - (d.bounds.upper.toInt - d.bounds.lower.toInt) * d.elementSize.toInt)
        (spot.move ⟨0, d.bounds.upper.toInt - d.bounds.lower.toInt, d.elementSize.toInt⟩)) := by
  obtain ⟨n, hn⟩ : ∃ n, d.bounds.upper.toInt - d.bounds.lower.toInt = n := ⟨_, rfl⟩
  rw [hn]
  have hspan (hx : C.exact) : n < 2 ^ 31 ∧ n * d.elementSize.toInt < 2 ^ 31 ∧ d.elementSize.toInt < 2 ^ 31 := by
    obtain ⟨hcovers, hwords, hsize⟩ := h hx
    have hordered := hcovers.ordered
    have heq := hcovers.words
    rw [hn, Int.add_mul] at heq
    have hspan : 0 ≤ n := by omega
    have hproduct := Int.mul_le_mul_of_nonneg_left hsize hspan
    have hpositive := Int.mul_nonneg hspan (by omega : 0 ≤ d.elementSize.toInt)
    omega
  -- the kind of the index
  have hord : Turns C sig (.within d.bounds.lower.toInt d.bounds.upper.toInt :: p :: S)
      (if d.kind = .integer then [] else [{ op := .unary .ord }])
      (.within d.bounds.lower.toInt d.bounds.upper.toInt :: p :: S) := by
    split
    · exact .nil
    · exact .single (.of_eq (n := 1) rfl (by simp) (by simp) fun _ => trivial)
  -- counting from zero
  have hzero : ∃ v, Turns C sig (.within d.bounds.lower.toInt d.bounds.upper.toInt :: p :: S)
      (if d.bounds.lower = 0 then []
        else [{ op := .push, arg := .integer d.bounds.lower }, { op := .binary .sub }]) (v :: p :: S) ∧
      (C.exact → v = .within 0 n) := by
    split
    · next heq =>
      refine ⟨_, .nil, fun _ => ?_⟩
      rw [← hn, heq, toInt_zero, Int.sub_zero]
    · refine ⟨_, (turns_push (fun hx => ?_) _).append (turns_binary .sub _ _ _), fun hx => ?_⟩
      · have := (h hx).1.lower
        have := (h hx).1.ordered
        have := (h hx).1.upper
        constructor <;> omega
      · have := hspan hx
        simp only [Slot.ofDatum, Slot.combine]
        rw [if_pos (by omega), Int.sub_self, hn]
  obtain ⟨v₁, hv₁, hknown₁⟩ := hzero
  -- the words of the elements
  have hscaled : ∃ v, Turns C sig (v₁ :: p :: S) (if d.elementSize = 1 then []
        else [{ op := .push, arg := .integer d.elementSize }, { op := .binary .mul }]) (v :: p :: S) ∧
      (C.exact → ∀ k spot, Slot.combine .add (.place k spot) v =
        .place (k - n * d.elementSize.toInt)
          (spot.move ⟨0, n, d.elementSize.toInt⟩)) := by
    split
    · next heq =>
      refine ⟨_, .nil, fun hx k spot => ?_⟩
      rw [hknown₁ hx, heq, toInt_one, Int.mul_one]
      rfl
    · refine ⟨_, (turns_push (fun hx => ?_) _).append (turns_binary .mul _ _ _), fun hx k spot => ?_⟩
      · have := hspan hx
        have := (h hx).2.2
        constructor <;> omega
      · have := hspan hx
        have := (h hx).2.2
        rw [hknown₁ hx]
        have hmul : Slot.combine .mul (.within 0 n)
            (.within d.elementSize.toInt d.elementSize.toInt) =
            .multiple n d.elementSize.toInt :=
          if_pos ⟨by omega, by omega, rfl, by omega⟩
        rw [Slot.ofDatum, hmul]
        exact if_pos (by omega)
  obtain ⟨v₂, hv₂, hknown₂⟩ := hscaled
  refine ⟨_, ((((d.bounds.turns_code i (p :: S)).append hord).append hv₁).append hv₂).append
    (turns_binary .add p v₂ S), fun hx k spot hk => ?_⟩
  rw [hk, hknown₂ hx]

end

/-! ### Variables -/

variable {f : Field}

namespace Level.Laid

variable {ts : TypeTable} {exact : Prop} {l : Level} (h : l.Laid ts exact) (hx : exact)
  (hsized : ∀ t, ts.Has t → 1 ≤ (ts.size t).toInt)

include h

theorem has (hf : f ∈ l.fields) : ts.Has f.type :=
  (mem_append.mp hf).elim (h.routine.types f) (h.types f)

include hx hsized

theorem toInt_start : (-l.routine.paramSize).toInt = -(ts.total l.routine.params : Int) := by
  have hsmall := (h.small hx).1
  have hnonneg : ∀ g ∈ l.routine.params, 0 ≤ (ts.size g.type).toInt := fun g hg =>
    Int.le_trans (by decide) (hsized g.type (h.routine.types g hg))
  have hwidth := toInt_width hnonneg (by omega)
  rw [← h.routine.size] at hwidth
  rw [toInt_neg (by rw [hwidth]; constructor <;> omega), hwidth]

theorem frameOffset_param (hf : f ∈ l.routine.params) : f.frameOffset.toInt = f.offset.toInt ∧
    -(ts.total l.routine.params : Int) ≤ f.offset.toInt ∧ f.offset.toInt + (ts.size f.type).toInt ≤ 0 := by
  have hsmall := (h.small hx).1
  have hstart := h.toInt_start hx hsized
  have hsize := hsized f.type (h.routine.types f hf)
  have hbounds := h.routine.placed.bounds
    (fun g hg => Int.le_trans (by decide) (hsized g.type (h.routine.types g hg))) (by omega) (by omega) (by omega) f hf
  have hoffset : f.frameOffset = f.offset := if_neg (by
    rw [Int64.le_iff_toInt_le, toInt_zero]
    show ¬0 ≤ f.offset.toInt
    omega)
  rw [hoffset]
  omega

theorem frameOffset_local (hf : f ∈ l.vars) : f.frameOffset.toInt = f.offset.toInt + 4 ∧
    0 ≤ f.offset.toInt ∧ f.offset.toInt + (ts.size f.type).toInt ≤ ts.total l.vars := by
  have hsmall := (h.small hx).2
  have hsize := hsized f.type (h.types f hf)
  have hbounds := h.placed.bounds (fun g hg => Int.le_trans (by decide) (hsized g.type (h.types g hg))) hsmall
    (by decide) (by rw [toInt_zero]; omega) f hf
  rw [toInt_zero] at hbounds
  have hoffset : f.frameOffset = f.offset + 4 := if_pos (by
    rw [Int64.le_iff_toInt_le, toInt_zero]
    exact hbounds.1)
  have heq : (f.offset + 4).toInt = f.offset.toInt + 4 := add_eq rfl rfl (by omega)
  rw [hoffset, heq]
  omega

theorem frameOffset_bounds (hf : f ∈ l.fields) : -(ts.total l.routine.params : Int) ≤ f.frameOffset.toInt ∧
        f.frameOffset.toInt + (ts.size f.type).toInt ≤ 0 ∨ 4 ≤ f.frameOffset.toInt ∧
        f.frameOffset.toInt + (ts.size f.type).toInt ≤ 4 + ts.total l.vars := by
  rcases mem_append.mp hf with hf | hf
  · obtain ⟨hoffset, hbounds⟩ := h.frameOffset_param hx hsized hf
    omega
  · obtain ⟨hoffset, hbounds⟩ := h.frameOffset_local hx hsized hf
    omega

end Level.Laid

namespace Context.Laid

variable {C : Context} {sig : Signatures} {entries : Entries} (h : C.Laid sig entries)

theorem frameOffset_eq {v : Variable} (hoffset : f.offset = v.offset) : v.frameOffset = f.frameOffset := by
  unfold Field.frameOffset Variable.frameOffset
  rw [hoffset]

include h

theorem words_eq (ht : C.types.Has t) : (C.types.words t : Int) = (C.types.size t).toInt := by
  have := h.sized t ht
  unfold words
  omega

theorem paramSize_eq {r : Routine} {around : List Level} (hr : C.known r around) :
    r.paramSize.toInt = C.types.total r.params := by
  obtain ⟨hplaced, htotal⟩ := h.params r around hr
  rw [hplaced.size]
  refine toInt_width (fun f hf => ?_) htotal
  have := h.sized f.type (hplaced.types f hf)
  omega

theorem toInt_level (hx : C.exact) {k : Nat} (hk : k ≤ C.levels.length) : (Int8.ofInt k).toInt = k := by
  have := h.shallow hx
  rw [Int8.toInt_ofInt_of_le] <;> omega

theorem toInt_hops (hx : C.exact) {k : Nat} {l : Level} (hl : C.levels[k]? = some l) : (Int8.ofInt k).toInt = k :=
  h.toInt_level hx (Nat.le_of_lt (List.getElem?_eq_some_iff.mp hl).1)

theorem reach_field (hx : C.exact) {k : Nat} {l : Level} (hl : C.levels[k]? = some l) (hf : f ∈ l.fields) :
    (C.types.size f.type).toInt ≤ C.reach (Int8.ofInt k) f.frameOffset := by
  have hlaid := h.levels l (mem_of_getElem? hl)
  have hsize := h.sized f.type (hlaid.has hf)
  have hbounds := hlaid.frameOffset_bounds hx h.sized hf
  unfold reach
  rw [h.toInt_hops hx hl, Int.toNat_natCast, hl]
  show _ ≤ if f.frameOffset.toInt < 0 then -f.frameOffset.toInt else
    4 + C.types.total l.vars - f.frameOffset.toInt
  split <;> omega

theorem reach_result (hx : C.exact) {k : Nat} {l : Level} (hl : C.levels[k]? = some l) :
    1 ≤ C.reach (Int8.ofInt k) FrameSlot.result.offset := by
  unfold reach
  rw [h.toInt_hops hx hl, Int.toNat_natCast, hl]
  show _ ≤ if (3 : Int64).toInt < 0 then _ else 4 + C.types.total l.vars - (3 : Int64).toInt
  rw [show (3 : Int64).toInt = 3 from rfl]
  split <;> omega

section

variable (hx : C.exact)

include hx

theorem places_variable {v : Variable} (hv : C.Declares v) :
    ∃ l, C.levels[v.spot.level.toInt.toNat]? = some l ∧ l.Places v.spot.offset.toInt v.type := by
  obtain ⟨k, l, hhops, hl, f, hf, hoffset, htype⟩ := hv
  unfold Variable.spot
  rw [hhops, h.toInt_hops hx hl, Int.toNat_natCast, frameOffset_eq hoffset, ← htype]
  exact ⟨l, hl, .field hf⟩

theorem spots_variable {v : Variable} (hv : C.Declares v) : C.Spots v.spot v.type := by
  obtain ⟨l, hl, hplaces⟩ := h.places_variable hx hv
  exact .of_places hl hplaces

end

theorem turns_address {v : Variable} (hv : C.Declares v) (S : List Slot) :
    Turns C sig S [v.address] (C.placeOf v :: S) ∧ (C.exact → C.Refers (C.placeOf v) v.type) := by
  refine ⟨.single (.of_eq (n := 0) rfl (by simp) (by simp [Variable.address]) fun hx => ?_),
    fun hx => ⟨_, _, rfl, ?_, h.spots_variable hx hv⟩⟩ <;>
  obtain ⟨k, l, hhops, hl, f, hf, hoffset, htype⟩ := hv
  · refine ⟨k, l, v.frameOffset, ?_, rfl, hl, .inl ⟨f, hf, frameOffset_eq hoffset⟩⟩
    show (Int8.ofInt v.hops).toInt = k
    rw [hhops, h.toInt_hops hx hl]
  · rw [hhops, frameOffset_eq hoffset, ← htype]
    exact h.reach_field hx hl hf

theorem spots_element {spot : Spot} {a t : TypeId} (hspot : C.Spots spot a) (hkind : C.types.kind a = .array)
    (hbase : (C.types.get a).base = some t) {dimension : Dimension} (hsize : dimension.elementSize = C.types.size t)
    (hcovers : dimension.Covers (C.types.size a).toInt) (ht : C.types.Has t) :
    C.Spots (spot.move ⟨0, dimension.bounds.upper.toInt - dimension.bounds.lower.toInt,
      dimension.elementSize.toInt⟩) t := by
  obtain ⟨l, hl, hlocates⟩ := hspot
  refine ⟨l, hl, fun d hd => ?_⟩
  obtain ⟨e, k, he, hlower, hupper, rfl⟩ := hd
  obtain ⟨k, rfl⟩ := Int.eq_ofNat_of_zero_le hlower
  have hwords : (C.types.words t : Int) = dimension.elementSize.toInt := by rw [h.words_eq ht, hsize]
  have hwithin : (k + 1) * C.types.words t ≤ C.types.words a := by
    have hle : (k + 1 : Int) * dimension.elementSize.toInt ≤ (C.types.size a).toInt := by
      rw [← hcovers.words]
      exact Int.mul_le_mul_of_nonneg_right (by dsimp only at hupper; omega) (by omega)
    have htotal : (C.types.size a).toInt ≤ C.types.words a := by
      unfold words
      omega
    have hcast : ((k + 1) * C.types.words t : Nat) = (k + 1 : Int) * dimension.elementSize.toInt := by
      rw [← hwords]
      rfl
    omega
  have hpart := (hlocates e he).part (.of_element hkind hbase hwithin)
  have heq : ((k * C.types.words t : Nat) : Int) = k * dimension.elementSize.toInt := by
    rw [← hwords]
    rfl
  show l.Locates C.types (spot.offset.toInt + (e + k * dimension.elementSize.toInt)) t
  rw [← heq, ← Int.add_assoc]
  exact hpart

end Context.Laid

/-! ### Expressions -/

theorem TypeKind.scalar_of_holds {v : Datum} (h : k.holds v = true) : k.isAggregate = false := by
  cases k <;> first | rfl | (cases v <;> cases h)

theorem TypeKind.scalar_of_isOrdinal (h : k.isOrdinal = true) : k.isAggregate = false := by
  cases k <;> first | rfl | cases h

theorem OperandKinds.scalars_of_comparable {k : OperandKinds} (h : k.comparable = true) :
    k.left.isAggregate = false ∧ k.right.isAggregate = false := by
  obtain ⟨l, r⟩ := k
  cases l <;> cases r <;> first | exact ⟨rfl, rfl⟩ | cases h

theorem Builtin.scalar_of_accepts {f : Builtin} (h : f.accepts k = true) :
    k.isAggregate = false ∧ (f.resultKind k).isAggregate = false := by
  cases f <;> cases k <;> first | exact ⟨rfl, rfl⟩ | cases h

section

variable {C : Context} {sig : Signatures} {entries : Entries} {e : Expr}

theorem Expr.eq_load (h : C.WellFormed) (he : e.HasType C t) (ht : C.types.isAggregate t = true) :
    ∃ source line, e = .load source (C.types.size t) line ∧ source.HasType C t := by
  have scalar {k : TypeKind} (hk : C.types.kind t = k) (hscalar : k.isAggregate = false) : False := by
    rw [isAggregate, hk, hscalar] at ht
    cases ht
  have builtin (hhas : builtins.Has t) : False := by
    have hall : ∀ i < 5, (builtins.kind ⟨i⟩).isAggregate = false := by decide
    exact scalar (h.builtins.kind hhas) (hall t.index hhas)
  cases e with
  | absent => exact he.elim
  | literal value _ _ =>
    obtain ⟨-, -, hholds, -⟩ := he
    exact (scalar rfl (TypeKind.scalar_of_holds hholds)).elim
  | load source size line =>
    obtain ⟨hsource, rfl⟩ := he
    exact ⟨source, line, rfl, hsource⟩
  | call _ _ _ =>
    obtain ⟨_, -, -, -, hscalar, -⟩ := he
    exact (scalar rfl hscalar).elim
  | sign _ _ _ => exact (scalar rfl (TypeKind.scalar_of_isNumeric he.2)).elim
  | complement operand _ =>
    obtain ⟨t', hoperand, rfl, hkinds⟩ := he
    have hroot : C.types.kind (C.types.root t') = C.types.kind t' := h.formed.rootKind (h.has_expr operand hoperand)
    rcases hkinds with hk | hk <;> exact (scalar (hroot.trans hk) rfl).elim
  | binary op _ _ kinds _ =>
    obtain ⟨_, _, -, -, -, -, rfl⟩ := he
    exact (builtin (op.has_resultType kinds)).elim
  | compare _ _ _ _ _ =>
    obtain ⟨_, _, -, -, -, -, rfl⟩ := he
    exact (builtin (by decide)).elim
  | apply function arg _ _ _ =>
    obtain ⟨_, harg, rfl, haccepts, rfl, -⟩ := he
    exact (scalar (h.resultType function (h.has_expr arg harg)).2 (Builtin.scalar_of_accepts haccepts).2).elim

theorem TypeTable.Passes.length_eq {ts : TypeTable} {params : List Field} {vs : List Slot}
    (h : ts.Passes (params.map Field.type) vs) : vs.length = ts.total params := by
  induction params generalizing vs with
  | nil =>
    obtain rfl : vs = [] := h
    rfl
  | cons p rest ih =>
    obtain ⟨ws, us, rfl, hus, -, hws⟩ := h
    rw [length_append, ih hws, hus, total_cons, Nat.add_comm]

section

variable (h : C.Laid sig entries)

include h

theorem Context.Laid.has_params {c : Callee} {r : Routine} (hc : C.Calls c r) :
    ∀ p ∈ r.params.map Field.type, C.types.Has p := by
  obtain ⟨k, -, -, -, -, hknown⟩ := hc
  exact forall_mem_map.mpr (h.params r _ hknown).1.types

theorem Context.Laid.turns_call {c : Callee} {r : Routine} (hc : C.Calls c r)
    {vs : List Slot} (hvs : C.types.Passes (r.params.map Field.type) vs) (S : List Slot) :
    Turns C sig (vs ++ S) [c.code entries] (if r.result.isSome then .any :: S else S) := by
  obtain ⟨k, hhops, hk, hid, -, hknown⟩ := hc
  have hsig : sig (c.code entries).arg = some r := by
    rw [← h.signed r _ hknown, ← hid]
    rfl
  have hparams : r.paramSize.toInt = vs.length := by
    rw [hvs.length_eq]
    exact h.paramSize_eq hknown
  have hmeets : (c.code entries).Meets C sig (vs ++ S) := by
    refine .of_eq ((Instr.consumes_call sig rfl hsig).trans hparams) (by simp) (by simp [Callee.code])
      fun hx => ⟨k, r, ?_, hk, hsig, hknown, vs, S, rfl, hvs⟩
    show (Int8.ofInt c.hops).toInt = k
    rw [hhops, h.toInt_level hx hk]
  have heffect : (c.code entries).effect C sig (vs ++ S) = if r.result.isSome then .any :: S else S := by
    rw [Instr.effect_call C sig rfl hsig, hparams, Int.toNat_natCast, drop_left]
  exact heffect ▸ .single hmeets

/-- Loading takes an address and leaves what is stored there. -/
theorem Context.Laid.turns_eval (ht : C.types.Has t) {v : Slot} (hv : C.exact → C.Refers v t) (S : List Slot) :
    Turns C sig (v :: S) [eval.withInt (C.types.size t)] (List.replicate (C.types.words t) .any ++ S) := by
  have hsize := h.sized t ht
  refine .single (.of_eq (n := 1) rfl (by simp) (fun _ => ?_) fun hx => ?_)
  · show 0 ≤ (C.types.size t).toInt
    omega
  · obtain ⟨k, spot, rfl, hk, -⟩ := hv hx
    exact ⟨k, spot, rfl, hsize, hk⟩

/-- The elements of an array are within it, and there is no room for more words than a number can tell. -/
theorem Context.Laid.covered {array : Designator} {a : TypeId} (harray : array.HasType C a)
    (hkind : C.types.kind a = .array) (hbase : (C.types.get a).base = some t) (hx : C.exact) :
    (C.types.dimension a).Covers (C.types.size a).toInt ∧ (C.types.size a).toInt < 2 ^ 31 ∧
      1 ≤ (C.types.dimension a).elementSize.toInt := by
  have ha := h.formed.has_designator array harray
  obtain ⟨ht, -, hsize, hcovers⟩ := h.formed.formed.dimension ha hkind hbase
  exact ⟨hcovers hx, (h.formed.formed.size ha hx).2, hsize ▸ h.sized t ht⟩

omit h in
theorem turns_loadWord (hexact : ¬C.exact) (v : Slot) (S : List Slot) :
    Turns C sig (v :: S) [eval.withInt 1] (.any :: S) :=
  .single (.of_eq (n := 1) rfl (by simp) (fun _ => (by decide : (0 : Int) ≤ 1)) fun hx => absurd hx hexact)

theorem Context.Laid.turns_word (he : e.HasType C t) (hscalar : C.types.isAggregate t = false) {code : List Instr}
    {S : List Slot} (hcode : ∃ vs, vs.length = C.types.words t ∧ Turns C sig S code (vs ++ S)) :
    ∃ v, Turns C sig S code (v :: S) := by
  obtain ⟨vs, hlength, hvs⟩ := hcode
  obtain ⟨v, rfl⟩ := length_eq_one_iff.mp (hlength.trans (h.formed.words_scalar (h.formed.has_expr e he) hscalar))
  exact ⟨v, hvs⟩

/-- All values but those that are loaded have one word. -/
theorem Context.Laid.turns_one (he : e.HasType C t) (hload : ∀ source size line, e ≠ .load source size line)
    {code : List Instr} {S : List Slot} (hcode : ∃ v, Turns C sig S code (v :: S)) :
    ∃ vs, vs.length = C.types.words t ∧ Turns C sig S code (vs ++ S) := by
  obtain ⟨v, hv⟩ := hcode
  have hscalar : C.types.isAggregate t = false := by
    refine Bool.eq_false_iff.mpr fun haggregate => ?_
    obtain ⟨source, line, heq, -⟩ := Expr.eq_load h.formed he haggregate
    exact hload _ _ _ heq
  exact ⟨[v], (h.formed.words_scalar (h.formed.has_expr e he) hscalar).symm, hv⟩

/-- Both operands are found, and joined. -/
theorem Context.Laid.turns_operands {left right : Expr} {l r : TypeId} (hleft : left.HasType C l)
    (hright : right.HasType C r) {k : OperandKinds} (hkinds : k = ⟨C.types.kind l, C.types.kind r⟩)
    (hscalars : k.left.isAggregate = false ∧ k.right.isAggregate = false) {code leftCode rightCode : List Instr}
    (hcode : Joins C sig code) {S : List Slot}
    (hl : ∃ vs, vs.length = C.types.words l ∧ Turns C sig S leftCode (vs ++ S))
    (hr : ∀ S, ∃ vs, vs.length = C.types.words r ∧ Turns C sig S rightCode (vs ++ S)) :
    ∃ v, Turns C sig S (leftCode ++ rightCode ++ code) (v :: S) := by
  subst hkinds
  obtain ⟨v, hv⟩ := h.turns_word hleft hscalars.1 hl
  obtain ⟨w, hw⟩ := h.turns_word hright hscalars.2 (hr (v :: S))
  obtain ⟨u, hu⟩ := hcode v w S
  exact ⟨u, (hv.append hw).append hu⟩

/-- A value that can be stored as another type is checked and has as many words after its conversion. -/
theorem Context.Laid.turns_stored {target source : TypeId} {c : Conversion}
    (hcode : ∀ S, ∃ vs, vs.length = C.types.words source ∧ Turns C sig S (instrs (e.code entries)) (vs ++ S))
    (he : e.HasType C source) (ht : C.types.Has target) (hstores : C.types.Stores target source c) (S : List Slot) :
    ∃ vs, vs.length = C.types.words target ∧ (∀ v ∈ vs, C.types.Checks target v) ∧
      Turns C sig S (instrs (e.code entries) ++ c.code) (vs ++ S) := by
  unfold TypeTable.Stores at hstores
  split at hstores
  · next haggregate =>
    obtain ⟨rfl, rfl⟩ := hstores
    obtain ⟨vs, hlength, hvs⟩ := hcode S
    refine ⟨vs, hlength, fun v _ hnarrow => ?_, hvs.append .nil⟩
    rw [scalar_of_isNarrow hnarrow] at haggregate
    cases haggregate
  · next hscalar =>
    obtain ⟨v, hv⟩ := h.turns_word he hstores.1 (hcode S)
    obtain ⟨v', hv', hchecked⟩ := c.turns_checked C sig v S
    exact ⟨[v'], (h.formed.words_scalar ht (by simpa using hscalar)).symm,
      forall_mem_singleton.mpr fun hnarrow => hchecked _ (hstores.2 hnarrow), hv.append hv'⟩

end

mutual

theorem Expr.turns_code (h : C.Laid sig entries) : (e : Expr) → {t : TypeId} → e.HasType C t →
    (S : List Slot) → ∃ vs, vs.length = C.types.words t ∧ Turns C sig S (instrs (e.code entries)) (vs ++ S)
  | .literal value _ _, t, he, S => h.turns_one he nofun ⟨_, turns_push he.2.2.2 S⟩
  | .load source size _, t, ⟨hsource, hsize⟩, S => by
    obtain ⟨v, hv, hplace⟩ := Designator.turns_code h source hsource S
    refine ⟨List.replicate (C.types.words t) .any, length_replicate, ?_⟩
    rw [hsize, Expr.code, instrs_append, instrs_emitAt]
    exact hv.append (h.turns_eval (h.formed.has_designator source hsource) hplace S)
  | .call callee args _, t, he@⟨r, hcalls, hresult, _, _, hargs⟩, S => by
    obtain ⟨vs, hpasses, hvs⟩ := Args.turns_code h args hargs (h.has_params hcalls) S
    have hcall := h.turns_call hcalls hpasses S
    rw [hresult] at hcall
    exact h.turns_one he nofun ⟨.any, by simpa [Expr.code] using hvs.append hcall⟩
  | .sign negative operand _, t, he@⟨hoperand, hnumeric⟩, S => by
    obtain ⟨v, hv⟩ := h.turns_word hoperand (TypeKind.scalar_of_isNumeric hnumeric) (Expr.turns_code h operand hoperand S)
    obtain ⟨v', hv'⟩ := alters_unary C sig .neg v S
    refine h.turns_one he nofun ?_
    cases negative with
    | false => exact ⟨v, by simpa [Expr.code] using hv⟩
    | true => exact ⟨v', by simpa [Expr.code] using hv.append hv'⟩
  | .complement operand _, t, he@⟨t', hoperand, _, hkinds⟩, S => by
    have hscalar : (C.types.kind t').isAggregate = false := by
      rcases hkinds with hk | hk <;> rw [hk] <;> rfl
    obtain ⟨v, hv⟩ := h.turns_word hoperand hscalar (Expr.turns_code h operand hoperand S)
    obtain ⟨v', hv'⟩ := alters_unary C sig .not v S
    exact h.turns_one he nofun ⟨v', by simpa [Expr.code] using hv.append hv'⟩
  | .binary op left right kinds _, t, he@⟨l, r, hleft, hright, hkinds, hselect, _⟩, S => by
    obtain ⟨code, hcode⟩ := Option.isSome_iff_exists.mp hselect
    obtain ⟨v, hv⟩ := h.turns_operands hleft hright hkinds (OperandKinds.scalars_of_select hcode)
      (Operator.joins_select C sig hcode) (Expr.turns_code h left hleft S) (Expr.turns_code h right hright)
    exact h.turns_one he nofun ⟨v, by simpa [Expr.code, hcode] using hv⟩
  | .compare relation left right kinds _, t, he@⟨l, r, hleft, hright, hkinds, hcompare, _⟩, S => by
    obtain ⟨v, hv⟩ := h.turns_operands hleft hright hkinds (OperandKinds.scalars_of_comparable hcompare)
      (joins_promoted C sig kinds (.compare relation)) (Expr.turns_code h left hleft S) (Expr.turns_code h right hright)
    exact h.turns_one he nofun ⟨v, by simpa [Expr.code, Relation.select] using hv⟩
  | .apply function arg kind bounds _, t, he@⟨a, harg, hkind, haccepts, _⟩, S => by
    subst hkind
    obtain ⟨v, hv⟩ := h.turns_word harg (Builtin.scalar_of_accepts haccepts).1 (Expr.turns_code h arg harg S)
    obtain ⟨w, hw⟩ := function.alters_select C sig _ v S
    refine h.turns_one he nofun ?_
    cases bounds with
    | none => exact ⟨w, by simpa [Expr.code] using hv.append hw⟩
    | some b => exact ⟨_, by simpa [Expr.code] using (hv.append hw).append (b.turns_code w S)⟩

/-- A place adds its address. -/
theorem Designator.turns_code (h : C.Laid sig entries) : (d : Designator) → {t : TypeId} →
    d.HasType C t → (S : List Slot) → ∃ v, Turns C sig S (instrs (d.code entries)) (v :: S) ∧ (C.exact → C.Refers v t)
  | .variable v _, t, ⟨hdeclares, ht, _⟩, S => by
    obtain ⟨hturns, hrefers⟩ := h.turns_address hdeclares S
    exact ⟨_, hturns, fun hx => ht ▸ hrefers hx⟩
  | .result hops _, t, ⟨⟨k, l, hhops, hl, hresult⟩, hhas, hscalar⟩, S => by
    refine ⟨_, .single (.of_eq (n := 0) rfl (by simp) (by simp) fun hx => ?_), fun hx => ⟨_, _, rfl, ?_, ?_⟩⟩
    · refine ⟨k, l, _, ?_, rfl, hl, .inr ⟨by rw [hresult]; rfl, rfl⟩⟩
      show (Int8.ofInt hops).toInt = k
      rw [hhops, h.toInt_hops hx hl]
    · rw [h.formed.formed.scalar hhas hscalar, hhops]
      exact h.reach_result hx hl
    · refine .of_places (l := l) ?_ (.result hresult)
      rw [hhops, h.toInt_hops hx hl, Int.toNat_natCast, hl]
  | .element array index dimension _, t, ⟨a, i, harray, hindex, hkind, hbase, hdimension, hord⟩, S => by
    obtain ⟨ht, hordinal, hsize, hcovers⟩ :=
      h.formed.formed.dimension (h.formed.has_designator array harray) hkind hbase
    have hcovered := h.covered harray hkind hbase
    rw [← hdimension] at hordinal hsize hcovers hcovered
    obtain ⟨p, hp, hplace⟩ := Designator.turns_code h array harray S
    obtain ⟨v, hv⟩ := h.turns_word hindex (TypeKind.scalar_of_isOrdinal (hord ▸ hordinal))
      (Expr.turns_code h index hindex (p :: S))
    obtain ⟨w, hw, hmoved⟩ := dimension.turns_code sig hcovered v p S
    refine ⟨w, by simpa [Designator.code] using (hp.append hv).append hw, fun hx => ?_⟩
    obtain ⟨k, spot, hk, hle, hspot⟩ := hplace hx
    refine ⟨_, _, hmoved hx k spot hk, ?_, h.spots_element hspot hkind hbase hsize (hcovers hx) ht⟩
    have hwords := (hcovers hx).words
    rw [Int.add_mul, Int.one_mul] at hwords
    rw [← hsize]
    omega
  | .field record offset _, t, ⟨r, hrecord, hkind, f, hf, hoffset, ht⟩, S => by
    obtain ⟨p, hp, hplace⟩ := Designator.turns_code h record hrecord S
    have hr := h.formed.has_designator record hrecord
    obtain ⟨hhas, hfield⟩ : C.types.Has f.type ∧ (C.exact → 0 ≤ f.offset.toInt ∧
      f.offset.toInt + (C.types.size f.type).toInt ≤ (C.types.size r).toInt) :=
        (h.formed.formed _ _ hr.getElem?).fields f hf
    have hsize := h.sized f.type hhas
    rw [← hoffset, ← ht, Designator.code, instrs_append]
    split
    · next hzero =>
      refine ⟨p, hp.append .nil, fun hx => ?_⟩
      obtain ⟨k, spot, hk, hle, hspot⟩ := hplace hx
      exact ⟨k, spot, hk, by have := hfield hx; omega, hspot.field_zero hkind hf hzero⟩
    · refine ⟨_, hp.append ((turns_push (fun hx => ?_) _).append (turns_binary .add p _ S)), fun hx => ?_⟩
      · have := hfield hx
        have := h.formed.formed.size hr hx
        constructor <;> omega
      · obtain ⟨k, spot, rfl, hle, hspot⟩ := hplace hx
        have := hfield hx
        refine ⟨k - f.offset.toInt, _, ?_, by omega, hspot.field hkind hf (by omega)⟩
        show (if 0 ≤ f.offset.toInt then _ else _) = _
        rw [if_pos (by omega)]
  | .pointee pointer _, t, ⟨p, hpointer, hkind, hbase⟩, S => by
    obtain ⟨hexact, -⟩ :=
      (h.formed.formed _ _ (h.formed.has_designator pointer hpointer).getElem?).target hkind t hbase
    obtain ⟨v, hv, -⟩ := Designator.turns_code h pointer hpointer S
    refine ⟨.any, ?_, fun hx => absurd hx hexact⟩
    rw [Designator.code, instrs_append, instrs_emitAt]
    exact hv.append (turns_loadWord hexact v S)

/-- Arguments add the words of the parameters, which were checked. -/
theorem Args.turns_code (h : C.Laid sig entries) : (a : Args) → {ps : List TypeId} → a.HaveTypes C ps →
    (∀ p ∈ ps, C.types.Has p) → (S : List Slot) → ∃ vs, C.types.Passes ps vs ∧
      Turns C sig S (instrs (a.code entries)) (vs ++ S)
  | .nil, [], _, _, S => ⟨[], rfl, .nil⟩
  | .cons arg conversion _ rest, p :: ps, ⟨⟨t, harg, hstores⟩, hrest⟩, hhas, S => by
    obtain ⟨hp, hps⟩ := forall_mem_cons.mp hhas
    obtain ⟨vs, hlength, hchecks, hvs⟩ := h.turns_stored (Expr.turns_code h arg harg) harg hp hstores S
    obtain ⟨ws, hpasses, hws⟩ := Args.turns_code h rest hrest hps (vs ++ S)
    exact ⟨ws ++ vs, ⟨ws, vs, rfl, hlength, hchecks, hpasses⟩, by simpa [Args.code] using hvs.append hws⟩

end

/-! ### Statements -/

theorem Stmt.WellTyped.inner {s s' : Stmt} (hs : s.WellTyped C) (h : .inner s' ∈ s.pieces entries) : s'.WellTyped C := by
  cases s with
  | seq | ifElse =>
    simp only [pieces, mem_cons, Piece.inner.injEq, not_mem_nil, or_false, reduceCtorEq, false_or] at h
    rcases h with rfl | rfl <;> simp_all [WellTyped]
  | _ => simp_all [pieces, ForLoop.pieces, WellTyped]

theorem turns_jneq (target : Nat) (v : Slot) (S : List Slot) : Turns C sig (v :: S) [jneq.withTarget target] S :=
  .single (.of_eq (n := 1) rfl (by simp) (by simp) fun _ => trivial)

theorem turns_jump (target : Nat) (S : List Slot) : Turns C sig S [jump.withTarget target] S :=
  .single (.of_eq (n := 0) rfl (by simp) (by simp) fun _ => trivial)

namespace Context.Laid

variable (h : C.Laid sig entries)

include h

theorem turns_assign (ht : C.types.Has t) (hscalar : C.types.isAggregate t = false) {v p : Slot}
    (hp : C.exact → C.Refers p t) (S : List Slot) : Turns C sig (v :: p :: S) [assign.withInt 1] S := by
  refine .single (.of_eq (n := 2) rfl (by simp) (by simp [withInt]) fun hx => ?_)
  obtain ⟨k, spot, rfl, hk, -⟩ := hp hx
  rw [h.formed.formed.scalar ht hscalar] at hk
  exact ⟨k, spot, rfl, by decide, hk⟩

theorem turns_scalar (he : e.IsScalar C) (S : List Slot) : ∃ v, Turns C sig S (instrs (e.code entries)) (v :: S) := by
  obtain ⟨t, ht, hscalar⟩ := he
  exact h.turns_word ht hscalar (e.turns_code h ht S)

end Context.Laid

theorem Expr.HasKind.isScalar (h : e.HasKind C k) (hk : k.isAggregate = false) : e.IsScalar C := by
  obtain ⟨t, ht, rfl⟩ := h
  exact ⟨t, ht, hk⟩

/-- A value is written with its format arguments, of which there are two at most. -/
theorem turns_write {n : Nat} (hn : n ≤ 2) {vs : List Slot} (hvs : vs.length = n) (v : Slot) (S : List Slot) :
    Turns C sig (vs ++ v :: S) [{ op := .write, level := Int8.ofNat n }] S := by
  have hlevel : (Int8.ofNat n).toInt = n := Int8.toInt_ofNat_of_lt (by omega)
  have hconsumes : Instr.consumes sig { op := .write, level := Int8.ofNat n } = (n + 1 : Nat) := by
    show (Int8.ofNat n).toInt + 1 = _
    rw [hlevel]
    rfl
  have hmeets : Instr.Meets C sig { op := .write, level := Int8.ofNat n } (vs ++ v :: S) := by
    refine .of_eq hconsumes (by simp; omega) (by simp) fun _ => ?_
    show 0 ≤ (Int8.ofNat n).toInt ∧ (Int8.ofNat n).toInt ≤ 2
    rw [hlevel]
    omega
  have heffect : Instr.effect C sig { op := .write, level := Int8.ofNat n } (vs ++ v :: S) = S := by
    rw [Instr.effect, hconsumes, Int.toNat_natCast, ← hvs, drop_length_add_append]
    rfl
  have := Turns.single hmeets
  rwa [heffect] at this

theorem Context.Laid.turns_formats (h : C.Laid sig entries) {format : List Expr}
    (hformat : ∀ e ∈ format, e.HasKind C .integer) (S : List Slot) : ∃ vs : List Slot, vs.length = format.length ∧
        Turns C sig S (instrs (format.flatMap fun e => e.code entries)) (vs ++ S) := by
  induction format generalizing S with
  | nil => exact ⟨[], rfl, .nil⟩
  | cons e rest ih =>
    obtain ⟨he, hrest⟩ := forall_mem_cons.mp hformat
    obtain ⟨v, hv⟩ := h.turns_scalar (he.isScalar rfl) S
    obtain ⟨vs, hlength, hvs⟩ := ih hrest (v :: S)
    refine ⟨vs ++ [v], by simp [hlength], ?_⟩
    rw [flatMap_cons, instrs_append, append_assoc]
    exact hv.append hvs

namespace Stmt

/-- A value that would be loaded is copied. -/
theorem instrs_storeWhole (target source : List Emission) (size : Int64) (sourceLine line : Nat) :
    instrs (storeWhole (target ++ (source ++ emitAt sourceLine [eval.withInt size])) size line) =
      instrs target ++ instrs source ++ [copy.withInt size] := by
  rw [← append_assoc]
  simp [storeWhole, emitAt, withInt, instrs]

theorem turns_leaf (h : C.Laid sig entries) {s : Stmt} (hs : s.WellTyped C) (hleaf : s.isLeaf = true)
    (here : Nat) (S : List Slot) : Turns C sig S (instrs (s.code entries here)) S := by
  cases s with
  | skip => exact .nil
  | assign target value conversion line =>
    obtain ⟨⟨t, ht, hscalar, -⟩, hvalue⟩ := hs
    obtain ⟨p, hp, hplace⟩ := target.turns_code h ht S
    obtain ⟨v, hv⟩ := h.turns_scalar hvalue (p :: S)
    obtain ⟨w, hw⟩ := conversion.alters_code C sig v (p :: S)
    simpa [code] using ((hp.append hv).append hw).append
      (h.turns_assign (h.formed.has_designator target ht) hscalar hplace S)
  | assignWhole target value size line =>
    obtain ⟨t, ht, haggregate, rfl, hvalue⟩ := hs
    obtain ⟨source, sourceLine, rfl, hsource⟩ := Expr.eq_load h.formed hvalue haggregate
    obtain ⟨p, hp, hplace⟩ := target.turns_code h ht S
    obtain ⟨q, hq, hplace'⟩ := source.turns_code h hsource (p :: S)
    rw [code, Expr.code, instrs_storeWhole]
    refine (hp.append hq).append (.single (.of_eq (n := 2) rfl (by simp) (by simp [withInt]) fun hx => ?_))
    exact ⟨q, p, S, t, rfl, rfl, h.sized t (h.formed.has_designator target ht), haggregate, hplace' hx, hplace hx⟩
  | abandoned target value => exact hs.elim
  | call callee args line =>
    obtain ⟨r, hcalls, hresult, hargs⟩ := hs
    obtain ⟨vs, hpasses, hvs⟩ := args.turns_code h hargs (h.has_params hcalls) S
    have hcall := h.turns_call hcalls hpasses S
    rw [hresult] at hcall
    simpa [code] using hvs.append hcall
  | write _ _ _ =>
    obtain ⟨hvalue, hlength, hformat⟩ := hs
    obtain ⟨v, hv⟩ := h.turns_scalar hvalue S
    obtain ⟨vs, hvs, hturns⟩ := h.turns_formats hformat (v :: S)
    simpa [code] using (hv.append hturns).append (turns_write hlength hvs v S)
  | writeText text line =>
    rw [code]
    induction text with
    | nil => exact .nil
    | cons c rest ih =>
      rw [flatMap_cons, instrs_append, instrs_emitAt]
      have hempty : ([] : List Slot).length = 0 := rfl
      have hchar : Turns C sig S [{ op := .push, arg := .character c }] (.any :: S) :=
        turns_push (d := .character c) (fun _ => trivial) S
      exact (hchar.append (turns_write (by decide) hempty .any S)).append (ih trivial rfl)
  | writeln line => exact .single (.of_eq (n := 0) rfl (by simp) (by simp) fun _ => trivial)
  | new target size line =>
    obtain ⟨hexact, t, ht, hkind⟩ := hs
    obtain ⟨p, hp, hplace⟩ := target.turns_code h ht S
    have hpush : Turns C sig (p :: S) [push.withInt size] (Slot.ofDatum (.integer size) :: p :: S) :=
      turns_push (fun hx => absurd hx hexact) (p :: S)
    have hnew : Turns C sig (Slot.ofDatum (.integer size) :: p :: S) [{ op := .new }] (.any :: p :: S) :=
      .single (.of_eq (n := 1) rfl (by simp) (by simp) fun hx => absurd hx hexact)
    simpa [code] using hp.append ((hpush.append hnew).append (h.turns_assign (h.formed.has_designator target ht)
      (by rw [isAggregate, hkind]; rfl) hplace S))
  | dispose target line =>
    obtain ⟨hexact, t, ht, hkind⟩ := hs
    obtain ⟨p, hp, -⟩ := target.turns_code h ht S
    have hdispose : Turns C sig (.any :: S) [{ op := .dispose }] S :=
      .single (.of_eq (n := 1) rfl (by simp) (by simp) fun hx => absurd hx hexact)
    simpa [code] using hp.append ((turns_loadWord hexact p S).append hdispose)
  | _ => cases hleaf

section

variable (h : C.Laid sig entries) {control : Variable} (hcontrol : C.Declares control)
  (hhas : C.types.Has control.type) (hord : C.types.isOrdinal control.type = true)

include h hcontrol hhas hord

theorem turns_loadControl (S : List Slot) :
    Turns C sig (C.placeOf control :: S) [eval.withInt 1] (.any :: S) := by
  have hscalar : C.types.isAggregate control.type = false := TypeKind.scalar_of_isOrdinal hord
  have hload := h.turns_eval hhas (h.turns_address hcontrol S).2 S
  rwa [h.formed.words_scalar hhas hscalar, h.formed.formed.scalar hhas hscalar] at hload

/-- The stack in front of a comparison of the limit of a loop with its control variable, which has one word. -/
theorem turns_compareControl (r : Relation) (v : Slot) (S : List Slot) :
    ∃ w, Turns C sig (v :: S) (compareControl control r) (w :: v :: S) := by
  have hdup : Turns C sig (v :: S) [{ op := .dup }] (v :: v :: S) := .single (.of_eq (n := 1) rfl (by simp) (by simp) fun _ => trivial)
  have haddress := (h.turns_address hcontrol (v :: v :: S)).1
  exact ⟨_, ((hdup.append haddress).append (turns_loadControl h hcontrol hhas hord _)).append
    (turns_binary (.compare r) v .any (v :: S))⟩

theorem turns_stepControl (downward : Bool) (S : List Slot) : Turns C sig S (stepControl control downward) S := by
  obtain ⟨haddress, hrefers⟩ := h.turns_address hcontrol S
  have haddress' := (h.turns_address hcontrol (C.placeOf control :: S)).1
  obtain ⟨w, hw⟩ := alters_unary C sig (if downward then .pred else .succ) .any (C.placeOf control :: S)
  exact (((haddress.append haddress').append (turns_loadControl h hcontrol hhas hord _)).append hw).append
    (h.turns_assign hhas (TypeKind.scalar_of_isOrdinal hord) hrefers S)

end

end Stmt

namespace ForLoop

section

variable (L : ForLoop) (entries : Entries)

variable (C sig) in
/-- What the parts of a loop do to the stack: a value is found for the control variable and stored, the limit is found,
and the tests compare it with the control variable. -/
structure Parts (S : List Slot) (v l p q : Slot) : Prop where
  value : Turns C sig S (L.init entries) (v :: C.placeOf L.control :: S)
  checked : ∀ b, L.conversion.bounds = some b → v = .within b.lower.toInt b.upper.toInt
  store : Turns C sig (v :: C.placeOf L.control :: S) [assign.withInt 1] S
  limit : Turns C sig S (instrs (L.limit.code entries)) (l :: S)
  test : Turns C sig (l :: S) L.test (p :: l :: S)
  again : Turns C sig (l :: S) (Stmt.compareControl L.control .notEqual) (q :: l :: S)

end

variable {L : ForLoop} (h : C.Laid sig entries) (hL : L.stmt.WellTyped C)

include h hL

theorem exists_parts (S : List Slot) : ∃ v l p q, L.Parts C sig entries S v l p q := by
  obtain ⟨hcontrol, hhas, ⟨hord, -⟩, hstart, hlimit, -⟩ := hL
  obtain ⟨haddress, hrefers⟩ := h.turns_address hcontrol S
  obtain ⟨v, hv⟩ := h.turns_scalar hstart (C.placeOf L.control :: S)
  obtain ⟨w, hw, hchecked⟩ := L.conversion.turns_checked C sig v (C.placeOf L.control :: S)
  obtain ⟨l, hl⟩ := h.turns_scalar hlimit S
  obtain ⟨p, hp⟩ := Stmt.turns_compareControl h hcontrol hhas hord
    (if L.downward then .lessEqual else .greaterEqual) l S
  obtain ⟨q, hq⟩ := Stmt.turns_compareControl h hcontrol hhas hord .notEqual l S
  exact ⟨w, l, p, q, (haddress.append hv).append hw, hchecked,
    h.turns_assign hhas (TypeKind.scalar_of_isOrdinal hord) hrefers S, hl, hp, hq⟩

/-- The limit of a loop stays on the stack while the loop runs. -/
theorem exists_threads (hbody : ∀ here S, Turns C sig S (instrs (L.body.code entries here)) S ∧
    Joined C sig here S (instrs (L.body.code entries here))) (S : List Slot) : ∃ v l p q, L.Parts C sig entries S v l p q ∧
      Piece.Threads C sig entries [S, S, l :: S, p :: l :: S, l :: S, l :: S, q :: l :: S, l :: S, l :: S, l :: S, S]
        [S, S, l :: S, p :: l :: S, l :: S, l :: S, q :: l :: S, l :: S, l :: S, l :: S, S] (L.pieces entries) := by
  obtain ⟨v, l, p, q, hparts⟩ := exists_parts h hL S
  obtain ⟨hcontrol, hhas, ⟨hord, -⟩, -⟩ := hL
  have hpop : Turns C sig (l :: S) [pop.withInt 1] S :=
    .single (.of_eq (n := 1) rfl (by simp) (by simp [withInt]) fun _ => (by decide : (1 : Int) ≤ 1))
  exact ⟨v, l, p, q, hparts, hparts.value.append hparts.store, hparts.limit, hparts.test,
    ⟨(turns_jneq · p (l :: S)), rfl⟩, (hbody · (l :: S)), hparts.again, ⟨(turns_jneq · q (l :: S)), rfl⟩,
    Stmt.turns_stepControl h hcontrol hhas hord L.downward (l :: S), ⟨(turns_jump · (l :: S)), rfl⟩, hpop, trivial⟩

end ForLoop

namespace Stmt

/-- A typed statement leaves the stack as it found it, and so do all ways through it. -/
theorem turns_code (h : C.Laid sig entries) {s : Stmt} (hs : s.WellTyped C) (here : Nat) (S : List Slot) :
    Turns C sig S (instrs (s.code entries here)) S ∧ Joined C sig here S (instrs (s.code entries here)) := by
  induction s generalizing here S with
  | seq first second ih₁ ih₂ =>
    refine turns_of_threads _ [S, S] ?_ rfl here
    exact ⟨(ih₁ hs.1 · S), (ih₂ hs.2 · S), trivial⟩
  | ifThen _ _ _ ih =>
    obtain ⟨v, htest⟩ := h.turns_scalar (hs.1.isScalar rfl) S
    refine turns_of_threads _ [v :: S, S, S] ?_ rfl here
    exact ⟨htest, ⟨(turns_jneq · v S), rfl⟩, (ih hs.2 · S), trivial⟩
  | ifElse _ _ _ _ _ ih₁ ih₂ =>
    obtain ⟨v, htest⟩ := h.turns_scalar (hs.1.isScalar rfl) S
    refine turns_of_threads _ [v :: S, S, S, S, S] ?_ rfl here
    exact ⟨htest, ⟨(turns_jneq · v S), rfl⟩, (ih₁ hs.2.1 · S), ⟨(turns_jump · S), rfl⟩, (ih₂ hs.2.2 · S), trivial⟩
  | whileDo _ _ _ _ ih =>
    obtain ⟨v, htest⟩ := h.turns_scalar (hs.1.isScalar rfl) S
    refine turns_of_threads _ [v :: S, S, S, S] ?_ rfl here
    exact ⟨htest, ⟨(turns_jneq · v S), rfl⟩, (ih hs.2 · S), ⟨(turns_jump · S), rfl⟩, trivial⟩
  | repeatUntil _ _ _ ih =>
    obtain ⟨v, htest⟩ := h.turns_scalar (hs.2.isScalar rfl) S
    refine turns_of_threads _ [S, v :: S, S] ?_ rfl here
    exact ⟨(ih hs.1 · S), htest, ⟨(turns_jneq · v S), rfl⟩, trivial⟩
  | forLoop control controlLine start conversion startLine downward limit limitLine body endLine ih =>
    let L : ForLoop := ⟨control, controlLine, start, conversion, startLine, downward, limit, limitLine, body, endLine⟩
    obtain ⟨v, l, p, q, -, hthreads⟩ := L.exists_threads h hs (ih hs.2.2.2.2.2) S
    exact turns_of_threads L.stmt _ hthreads rfl here
  | _ =>
    refine turns_of_threads _ [S] ?_ rfl here
    exact ⟨turns_leaf h hs rfl 0 S, trivial⟩

end Stmt

end

end MiniPascal
