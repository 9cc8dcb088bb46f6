import MiniPascal.Proofs.Tree.Loops
import MiniPascal.Proofs.Tree.Places

/-!
# What typed code stores

The addresses that typed code computes are those of parts of variables, and their types are known. A scalar is
checked before it is stored or passed if its type asks for that; only the steps of loops store what was not checked.
-/

namespace MiniPascal

open List Opcode Piece

namespace TypeTable.Passes

variable {ts : TypeTable} {exact : Prop} {params : List Field} {vs : List Slot}

/-- The argument for a parameter lies as far below the frame as the parameter. -/
theorem getElem? (h : ts.Passes (params.map Field.type) vs) (hformed : ts.Formed exact) (hx : exact)
    (hhas : ∀ p ∈ params, ts.Has p.type) {offset : Int64} (hplaced : ts.Placed offset params)
    (hoffset : offset.toInt = -(ts.total params : Int)) (hsmall : ts.total params < 2 ^ 31) {f : Field}
    (hf : f ∈ params) (hnarrow : ts.isNarrow f.type = true) : vs[(-f.offset.toInt - 1).toNat]? =
      some (.within (ts.bounds f.type).lower.toInt (ts.bounds f.type).upper.toInt) := by
  induction params generalizing vs offset with
  | nil => cases hf
  | cons p rest ih =>
    obtain ⟨ws, us, rfl, hus, hchecks, hws⟩ := h
    obtain ⟨hp, hrest⟩ := forall_mem_cons.mp hhas
    have hlength := hws.length_eq
    have hsized {q : Field} (hq : ts.Has q.type) : (ts.size q.type).toInt = ts.words q.type :=
      (Int.toNat_of_nonneg (Int.le_trans (by decide) (hformed.size hq hx).1)).symm
    rw [total_cons] at hoffset hsmall
    have hnext : (offset + ts.size p.type).toInt = -(ts.total rest : Int) := by
      rw [Word.add_eq rfl (hsized hp) (by omega)]
      omega
    rcases mem_cons.mp hf with rfl | hf
    · have hone : ts.words f.type = 1 := by
        rw [words, hformed.scalar hp (scalar_of_isNarrow hnarrow)]
        rfl
      obtain ⟨v, rfl⟩ := length_eq_one_iff.mp (hus.trans hone)
      rw [hplaced.1, List.getElem?_append_right (by omega), show (-offset.toInt - 1).toNat - ws.length = 0 by omega]
      exact congrArg some (hchecks v mem_cons_self hnarrow)
    · have hbounds := hplaced.2.bounds (fun q hq => by rw [hsized (hrest q hq)]; omega) (by omega) (by omega) (by omega)
        f hf
      have hpos := (hformed.size (hrest f hf) hx).1
      rw [List.getElem?_append_left (by omega)]
      exact ih hws hrest hplaced.2 hnext (by omega) hf

end TypeTable.Passes

/-- An instruction stores what it should: a scalar, which is checked if that is asked for. -/
def Instr.Heeds (C : Context) (unchecked : Prop) (x : Instr) (S : List Slot) : Prop :=
  x.op = .assign → ∃ v k spot t T, S = v :: .place k spot :: T ∧ x.arg = .integer 1 ∧ C.Spots spot t ∧
    C.types.isAggregate t = false ∧ (unchecked ∨ C.types.Checks t v)

/-- Every instruction of some code stores what it should. What is stored at some addresses need not be checked. -/
def Heeded (C : Context) (sig : Signatures) (unchecked : Nat → Prop) (here : Nat) (S : List Slot) (code : List Instr) :
    Prop :=
  ∀ (i : Nat) (x : Instr), code[i]? = some x → x.Heeds C (unchecked (here + i)) (scan C sig S (code.take i))

def Opcode.isCalm (op : Opcode) : Bool := op ≠ .assign

@[simp] theorem AllOps.calm {code : List Instr} (h : AllOps Opcode.inExpression code) : AllOps Opcode.isCalm code :=
  h.mono fun op hop => by cases op <;> first | rfl | cases hop

section

variable {C : Context} {sig : Signatures} {entries : Entries} {unchecked : Nat → Prop} {here : Nat} {S : List Slot}
  {code : List Instr}

namespace Heeded

theorem of_calm (h : AllOps isCalm code) : Heeded C sig unchecked here S code := fun _ x hx hop =>
  absurd hop (of_decide_eq_true (h x (mem_of_getElem? hx)))

/-- A store at the end. -/
theorem concat {a : List Instr} (h : AllOps isCalm a) {x : Instr}
    (hx : x.Heeds C (unchecked (here + a.length)) (scan C sig S a)) : Heeded C sig unchecked here S (a ++ [x]) := by
  intro i y hy
  rcases Nat.lt_or_ge i a.length with hlt | hge
  · rw [List.getElem?_append_left hlt] at hy
    rw [take_append_of_le_length (Nat.le_of_lt hlt)]
    exact of_calm h i y hy
  · have hlt := (List.getElem?_eq_some_iff.mp hy).1
    obtain rfl : i = a.length := by
      rw [length_append, length_singleton] at hlt
      omega
    rw [List.getElem?_concat_length, Option.some.injEq] at hy
    rw [← hy, take_left]
    exact hx

/-- The code of pieces that store what they should. -/
theorem weave {ps : List Piece} (h : ∀ j p, ps[j]? = some p → Heeded C sig unchecked (start entries here ps j)
      (scan C sig S (front entries here ps j))
      (p.code entries (start entries here ps) (start entries here ps j))) :
    Heeded C sig unchecked here S (whole entries here ps) := by
  intro i x hx
  obtain ⟨j, p, k, hp, hxk, rfl⟩ := exists_piece hx
  have hk := Nat.le_of_lt (List.getElem?_eq_some_iff.mp hxk).1
  rw [p.length_code] at hk
  rw [take_weave hp hk, scan_append, ← Nat.add_assoc, ← start_eq]
  exact h j p hp k x hxk

end Heeded

/-! ### Statements -/

namespace Stmt

theorem heeded_leaf (h : C.Laid sig entries) (hx : C.exact) {s : Stmt} (hs : s.WellTyped C)
    (hleaf : s.isLeaf = true) (here : Nat) (S : List Slot) :
    Heeded C sig unchecked here S (instrs (s.code entries 0)) := by
  cases s with
  | assign target value conversion line =>
    obtain ⟨⟨t, ht, hscalar, hguards⟩, hvalue⟩ := hs
    obtain ⟨p, hp, hplace⟩ := target.turns_code h ht S
    obtain ⟨k, spot, rfl, -, hspot⟩ := hplace hx
    obtain ⟨v, hv⟩ := h.turns_scalar hvalue (.place k spot :: S)
    obtain ⟨w, hw, hchecked⟩ := conversion.turns_checked C sig v (.place k spot :: S)
    simp only [code, instrs_append, instrs_emitAt]
    refine .concat (by simp) fun _ => ?_
    rw [((hp.append hv).append hw).scan_eq]
    exact ⟨w, k, spot, t, S, rfl, rfl, hspot, hscalar, .inr fun hnarrow => hchecked _ (hguards hnarrow)⟩
  | assignWhole _ _ _ _ =>
    obtain ⟨t, -, haggregate, rfl, hvalue⟩ := hs
    obtain ⟨source, sourceLine, rfl, -⟩ := Expr.eq_load h.formed hvalue haggregate
    rw [code, Expr.code, instrs_storeWhole]
    exact .of_calm (by simp [Opcode.isCalm, Opcode.withInt])
  | call callee args line => exact .of_calm (by simp [code, Opcode.isCalm, Callee.code])
  | write value format line =>
    have hformat : AllOps isCalm (instrs (format.flatMap fun e => e.code entries)) := fun x hx => by
      rw [instrs_flatMap] at hx
      obtain ⟨e, -, hx⟩ := mem_flatMap.mp hx
      exact (e.ops_code entries).calm x hx
    exact .of_calm (by simp [code, hformat, Opcode.isCalm])
  | writeText text line =>
    refine .of_calm fun x hx => ?_
    rw [code, instrs_flatMap] at hx
    obtain ⟨c, -, hx⟩ := mem_flatMap.mp hx
    rw [instrs_emitAt] at hx
    rcases mem_cons.mp hx with rfl | hx
    · rfl
    · rw [mem_singleton.mp hx]
      rfl
  | skip => exact .of_calm .nil
  | writeln line => exact .of_calm (by simp [code, isCalm])
  | new target size line => exact absurd hx hs.1
  | dispose target line => exact absurd hx hs.1
  | abandoned target value => exact hs.elim
  | _ => cases hleaf

/-- A loop checks the first value of its control variable, and only its step stores what was not checked. -/
theorem heeded_forLoop (h : C.Laid sig entries) (hx : C.exact) {L : ForLoop} (hL : L.stmt.WellTyped C)
    (hunchecked : unchecked (L.loop entries here).store) {j : Nat} (hp : (L.pieces entries)[j]? = some (.plain code)) :
    Heeded C sig unchecked (start entries here (L.pieces entries) j)
      (scan C sig S (front entries here (L.pieces entries) j)) code := by
  obtain ⟨v, l, p, q, hparts⟩ := L.exists_parts h hL S
  obtain ⟨hcontrol, -, ⟨hord, hguards⟩, -⟩ := hL
  have hscalar : C.types.isAggregate L.control.type = false := TypeKind.scalar_of_isOrdinal hord
  have hspots := h.spots_variable hx hcontrol
  have hcompare (r : Relation) : AllOps isCalm (compareControl L.control r) := by
    simp [compareControl, isCalm, Variable.address, withInt]
  match j, hp with
  | 0, rfl =>
    refine .concat (by simp [ForLoop.init, Variable.address, Opcode.isCalm]) fun _ => ?_
    show ∃ v k spot t T, scan C sig S (L.init entries) = _ ∧ _
    rw [hparts.value.scan_eq]
    exact ⟨v, _, _, L.control.type, S, rfl, rfl, hspots, hscalar, .inr fun hnarrow => hparts.checked _ (hguards hnarrow)⟩
  | 1, rfl => exact .of_calm (L.limit.ops_code entries).calm
  | 2, rfl => exact .of_calm (hcompare _)
  | 5, rfl => exact .of_calm (hcompare _)
  | 7, rfl =>
    obtain ⟨-, -, -, -, -, h₈, -⟩ := L.starts entries here
    have hstore : (L.loop entries here).store = start entries here (L.pieces entries) 8 - 1 := rfl
    rw [hstore, h₈] at hunchecked
    generalize L.downward = downward
    refine .concat (a := (stepControl L.control downward).take 4) ?_ fun _ => ?_
    · simp [stepControl, isCalm, Variable.address, withInt]
    · cases downward with
      | _ => exact ⟨_, _, _, L.control.type, _, rfl, rfl, hspots, hscalar, .inl hunchecked⟩
  | 9, rfl => exact .of_calm (by simp [isCalm, withInt])

/-- A statement stores what it should. Only the steps of its loops store what was not checked. -/
theorem heeded_code (h : C.Laid sig entries) (hx : C.exact) {s : Stmt} (hs : s.WellTyped C) (here : Nat) (S : List Slot)
    (hunchecked : ∀ L ∈ s.loops entries here, unchecked L.store) :
    Heeded C sig unchecked here S (instrs (s.code entries here)) := by
  induction s using inner_induction entries generalizing here S with
  | _ s ih =>
    rw [loops_eq, forall_mem_append] at hunchecked
    obtain ⟨hown, hinner⟩ := hunchecked
    rw [instrs_code]
    refine .weave fun j p hp => ?_
    have hmem := mem_of_getElem? hp
    cases p with
    | inner s' => exact ih s' hmem (hs.inner hmem) _ _ fun L hL => hinner L (mem_allLoops.mpr ⟨j, _, hp, hL⟩)
    | jump op goal =>
      refine .of_calm (forall_mem_singleton.mpr (decide_eq_true fun heq => ?_))
      have hjump := (s.sound_pieces entries _ hmem).1
      rw [show op = .assign from heq] at hjump
      cases hjump
    | plain code =>
      cases s with
      | forLoop control controlLine start conversion startLine downward limit limitLine body endLine =>
        exact heeded_forLoop (L := ⟨control, controlLine, start, conversion, startLine, downward, limit, limitLine, body,
          endLine⟩) h hx hs (hown _ mem_cons_self) hp
      | seq => simp [pieces] at hmem
      | ifThen | ifElse | whileDo | repeatUntil =>
        simp only [pieces, mem_cons, plain.injEq, not_mem_nil, reduceCtorEq, or_false, false_or] at hmem
        exact hmem ▸ .of_calm (Expr.ops_code entries _).calm
      | _ =>
        obtain rfl := plain.inj (mem_singleton.mp hmem)
        exact heeded_leaf h hx hs rfl _ _

end Stmt

end

end MiniPascal
