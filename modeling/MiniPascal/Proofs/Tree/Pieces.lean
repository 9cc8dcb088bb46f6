import Mathlib.Algebra.GroupWithZero.Nat
import MiniPascal.Proofs.Tree.Targets

/-!
# Pieces of code

The code of a statement is made of code that does not jump, of jumps, and of the code of its inner statements. A jump
leads to the start of a piece or behind the last one. What holds of all places of the code of a statement, and of all
jumps, follows from this by going over the pieces.
-/

namespace MiniPascal

open List

/-- A loop with a control variable, as it stands in the tree of a program. -/
structure ForLoop where
  control : Variable
  controlLine : Nat
  start : Expr
  conversion : Conversion
  startLine : Nat
  downward : Bool
  limit : Expr
  limitLine : Nat
  body : Stmt
  endLine : Nat

namespace ForLoop

def stmt (L : ForLoop) : Stmt :=
  .forLoop L.control L.controlLine L.start L.conversion L.startLine L.downward L.limit L.limitLine L.body L.endLine

variable (L : ForLoop) (entries : Entries)

/-- The code from the address of the control variable up to its first value. -/
def init : List Instr := [L.control.address] ++ instrs (L.start.code entries) ++ L.conversion.code

def test : List Instr := Stmt.compareControl L.control (if L.downward then .lessEqual else .greaterEqual)

end ForLoop

/-- A part of the code of a statement: code that does not jump, a jump to a piece with a given number, and the code of an
inner statement. -/
inductive Piece where
  | plain (code : List Instr)
  | jump (op : Opcode) (goal : Nat)
  | inner (s : Stmt)

/-- The pieces of a loop. A value is stored into the control variable and the limit is found; then the test, the inner
statement, the second test and the step are repeated, and the limit is dropped. -/
def ForLoop.pieces (L : ForLoop) (entries : Entries) : List Piece :=
  [.plain (L.init entries ++ [Opcode.assign.withInt 1]), .plain (instrs (L.limit.code entries)), .plain L.test,
    .jump .jneq 9, .inner L.body, .plain (Stmt.compareControl L.control .notEqual), .jump .jneq 9,
    .plain (Stmt.stepControl L.control L.downward), .jump .jump 2, .plain [Opcode.pop.withInt 1]]

def Stmt.pieces (entries : Entries) : Stmt → List Piece
  | .seq first second => [.inner first, .inner second]
  | .ifThen condition _ body => [.plain (instrs (condition.code entries)), .jump .jneq 3, .inner body]
  | .ifElse condition _ body _ alternative =>
    [.plain (instrs (condition.code entries)), .jump .jneq 4, .inner body, .jump .jump 5, .inner alternative]
  | .whileDo condition _ body _ =>
    [.plain (instrs (condition.code entries)), .jump .jneq 4, .inner body, .jump .jump 0]
  | .repeatUntil body condition _ => [.inner body, .plain (instrs (condition.code entries)), .jump .jneq 0]
  | .forLoop control controlLine start conversion startLine downward limit limitLine body endLine =>
    ForLoop.pieces ⟨control, controlLine, start, conversion, startLine, downward, limit, limitLine, body, endLine⟩ entries
  | s => [.plain (instrs (s.code entries 0))]

theorem Stmt.inner_induction (entries : Entries) {motive : Stmt → Prop}
    (h : ∀ s, (∀ s', .inner s' ∈ s.pieces entries → motive s') → motive s) (s : Stmt) : motive s := by
  induction s with
  | _ =>
    refine h _ ?_
    simp_all [pieces, ForLoop.pieces]

/-- The number of instructions of a statement, which does not depend on where it is placed. -/
def Stmt.size (entries : Entries) (s : Stmt) : Nat := (s.code entries 0).length

theorem Stmt.length_code_eq (entries : Entries) (here : Nat) (s : Stmt) : (s.code entries here).length = s.size entries :=
  s.length_code entries entries here 0

namespace Piece

def size (entries : Entries) : Piece → Nat
  | plain code => code.length
  | jump .. => 1
  | inner s => s.size entries

/-- The code of a piece that is placed at an address, if the addresses of all pieces are given. -/
def code (entries : Entries) (address : Nat → Nat) (here : Nat) : Piece → List Instr
  | plain code => code
  | jump op goal => [op.withTarget (address goal)]
  | inner s => instrs (s.code entries here)

def weave (entries : Entries) (address : Nat → Nat) : Nat → List Piece → List Instr
  | _, [] => []
  | here, p :: rest => p.code entries address here ++ weave entries address (here + p.size entries) rest

def start (entries : Entries) (here : Nat) (ps : List Piece) (k : Nat) : Nat := here + ((ps.take k).map (size entries)).sum

/-- The code of pieces that are placed at an address. -/
abbrev whole (entries : Entries) (here : Nat) (ps : List Piece) : List Instr :=
  weave entries (start entries here ps) here ps

abbrev front (entries : Entries) (here : Nat) (ps : List Piece) (j : Nat) : List Instr :=
  weave entries (start entries here ps) here (ps.take j)

variable {entries : Entries} {address : Nat → Nat} {here : Nat} {ps : List Piece}

theorem size_inner (s : Stmt) (here : Nat) : (inner s).size entries = (instrs (s.code entries here)).length := by
  rw [length_instrs, s.length_code_eq, size]

theorem length_code (p : Piece) : (p.code entries address here).length = p.size entries := by
  cases p with
  | inner s => exact (size_inner s here).symm
  | _ => rfl

theorem length_weave : (weave entries address here ps).length = (ps.map (size entries)).sum := by
  induction ps generalizing here with
  | nil => rfl
  | cons p rest ih => rw [weave, length_append, length_code, ih, map_cons, sum_cons]

theorem start_eq (entries : Entries) (here : Nat) (ps : List Piece) (k : Nat) :
    start entries here ps k = here + (front entries here ps k).length := by
  rw [length_weave, start]

theorem start_le {j k : Nat} (h : j ≤ k) : start entries here ps j ≤ start entries here ps k := by
  obtain ⟨d, rfl⟩ := Nat.exists_eq_add_of_le h
  simp only [start, take_add, map_append, sum_append]
  omega

theorem start_succ {p : Piece} {j : Nat} (hp : ps[j]? = some p) :
    start entries here ps (j + 1) = start entries here ps j + p.size entries := by
  simp [start, take_add_one, hp, Nat.add_assoc]

theorem weave_append (ps qs : List Piece) : weave entries address here (ps ++ qs) =
    weave entries address here ps ++ weave entries address (here + (ps.map (size entries)).sum) qs := by
  induction ps generalizing here with
  | nil => rfl
  | cons p rest ih =>
    rw [cons_append, weave, weave, ih, append_assoc, map_cons, sum_cons, Nat.add_assoc]

/-- The code in front of a piece, and the code from it on. -/
theorem weave_cut (ps : List Piece) (j : Nat) : weave entries address here ps = weave entries address here (ps.take j) ++
    weave entries address (start entries here ps j) (ps.drop j) := by
  rw [start, ← weave_append, take_append_drop]

theorem weave_split {p : Piece} {j : Nat} (hp : ps[j]? = some p) : weave entries address here ps =
    weave entries address here (ps.take j) ++ (p.code entries address (start entries here ps j) ++
      weave entries address (start entries here ps j + p.size entries) (ps.drop (j + 1))) := by
  obtain ⟨hj, rfl⟩ := List.getElem?_eq_some_iff.mp hp
  rw [weave_cut ps j, drop_eq_getElem_cons hj, weave]

theorem take_weave {p : Piece} {j k : Nat} (hp : ps[j]? = some p) (hk : k ≤ p.size entries) :
    (weave entries address here ps).take ((weave entries address here (ps.take j)).length + k) =
      weave entries address here (ps.take j) ++ (p.code entries address (start entries here ps j)).take k := by
  rw [weave_split hp, take_length_add_append, take_append_of_le_length (by rwa [length_code])]

theorem getElem?_weave {p : Piece} {j k : Nat} (hp : ps[j]? = some p) {x : Instr}
    (hx : (p.code entries address (start entries here ps j))[k]? = some x) :
    (weave entries address here ps)[(weave entries address here (ps.take j)).length + k]? = some x := by
  rw [weave_split hp, List.getElem?_append_right (Nat.le_add_right _ _), Nat.add_sub_cancel_left,
    List.getElem?_append_left (List.getElem?_eq_some_iff.mp hx).1, hx]

theorem exists_piece {i : Nat} {x : Instr} (hx : (weave entries address here ps)[i]? = some x) :
    ∃ j p k, ps[j]? = some p ∧ (p.code entries address (start entries here ps j))[k]? = some x ∧
      i = (weave entries address here (ps.take j)).length + k := by
  induction ps generalizing here i with
  | nil => cases hx
  | cons p rest ih =>
    rw [weave] at hx
    rcases Nat.lt_or_ge i (p.code entries address here).length with hlt | hge
    · rw [List.getElem?_append_left hlt] at hx
      exact ⟨0, p, i, rfl, hx, (Nat.zero_add i).symm⟩
    · rw [List.getElem?_append_right hge] at hx
      obtain ⟨j, q, k, hq, hx', hi⟩ := ih hx
      refine ⟨j + 1, q, k, hq, ?_, ?_⟩
      · rwa [start, take_succ_cons, map_cons, sum_cons, ← Nat.add_assoc]
      · rw [take_succ_cons, weave, length_append]
        omega

end Piece

namespace Stmt

variable (entries : Entries)

theorem instrs_code (s : Stmt) (here : Nat) : instrs (s.code entries here) =
    Piece.whole entries here (s.pieces entries) := by
  cases s with
  | forLoop control controlLine start conversion startLine _ limit _ _ _ =>
    have htop : here + (emitAt controlLine [control.address] ++ start.code entries ++
        emitAt startLine conversion.code ++ emitAt startLine [Opcode.assign.withInt 1] ++
        limit.code entries).length =
        here + (start.code entries).length + conversion.code.length + 1 + 1 + (limit.code entries).length := by
      simp [emitAt]
      omega
    simp only [code, htop]
    simp [pieces, ForLoop.pieces, ForLoop.init, ForLoop.test, Piece.weave, Piece.start, Piece.size, Piece.code,
      compareControl, stepControl, length_code_eq, ← Nat.add_assoc]
  | seq | ifThen | ifElse | whileDo | repeatUntil =>
    simp [pieces, Piece.weave, Piece.start, Piece.size, Piece.code, code, length_code_eq, ← Nat.add_assoc]
  | _ => exact (append_nil _).symm

end Stmt

/-! ### Jumps -/

/-- The jumps of some code lead to an instruction of the code or right behind it, if the code is placed at an address,
and not to a copy. -/
def Aimed (here : Nat) (code : List Instr) : Prop :=
  ∀ x ∈ code, x.op.isJump = true → ∃ i ≤ code.length, x.arg = .integer (Int64.ofNat (here + i)) ∧ StartsPlain (code.drop i)

/-- A piece does not start with a copy, and it jumps to one of some pieces, behind them, or inside itself. -/
def Piece.Sound (entries : Entries) (count : Nat) : Piece → Prop
  | plain code => AllOps Opcode.isStraight code ∧ StartsPlain code
  | jump op goal => op.isJump = true ∧ goal ≤ count
  | inner s => ∀ here, Aimed here (instrs (s.code entries here))

namespace Piece

/-- Where a jump in the code of pieces stands: it is a piece itself, or it stands in an inner statement. -/
inductive Jumps (entries : Entries) (here : Nat) (ps : List Piece) (i : Nat) (x : Instr) : Prop
  | piece {j : Nat} {op : Opcode} {goal : Nat} (hp : ps[j]? = some (jump op goal)) (hgoal : goal ≤ ps.length)
      (hx : x = op.withTarget (start entries here ps goal)) (hi : i = (front entries here ps j).length)
  | inside {j : Nat} {s : Stmt} {k : Nat} (hp : ps[j]? = some (inner s))
      (haimed : Aimed (start entries here ps j) (instrs (s.code entries (start entries here ps j))))
      (hx : (instrs (s.code entries (start entries here ps j)))[k]? = some x)
      (hi : i = (front entries here ps j).length + k)

variable {entries : Entries} {address : Nat → Nat} {here : Nat} {ps : List Piece}

theorem jumps_of_getElem? (h : ∀ p ∈ ps, p.Sound entries ps.length) {i : Nat} {x : Instr}
    (hx : (whole entries here ps)[i]? = some x) (hjump : x.op.isJump = true) : Jumps entries here ps i x := by
  obtain ⟨j, p, k, hp, hxk, rfl⟩ := exists_piece hx
  have hsound := h p (mem_of_getElem? hp)
  cases p with
  | plain code =>
    have := hsound.1 x (mem_of_getElem? hxk)
    simp [Opcode.isStraight, hjump] at this
  | jump op goal =>
    obtain ⟨hk, rfl⟩ := List.getElem?_eq_some_iff.mp hxk
    obtain rfl : k = 0 := Nat.lt_one_iff.mp hk
    exact .piece hp hsound.2 rfl rfl
  | inner s => exact .inside hp (hsound _) hxk rfl

theorem startsPlain_weave {count : Nat} (h : ∀ p ∈ ps, p.Sound entries count) :
    StartsPlain (weave entries address here ps) := by
  induction ps generalizing here with
  | nil => exact .nil
  | cons p rest ih =>
    obtain ⟨hp, hrest⟩ := forall_mem_cons.mp h
    refine .append ?_ (ih hrest)
    cases p with
    | plain code => exact hp.2
    | jump op goal =>
      refine StartsPlain.cons_iff.mpr fun heq => ?_
      rw [show op = .copy from heq] at hp
      cases hp.1
    | inner s => exact s.startsPlain_code entries here

/-- The jumps of pieces lead to an instruction of a piece or right behind them, and not to a copy. -/
theorem aimed_whole (h : ∀ p ∈ ps, p.Sound entries ps.length) : Aimed here (whole entries here ps) := by
  intro x hx hjump
  obtain ⟨i, hi⟩ := mem_iff_getElem?.mp hx
  have hback (j : Nat) (here' : Nat) : StartsPlain (weave entries (start entries here ps) here' (ps.drop j)) :=
    startsPlain_weave fun p hp => h p (mem_of_mem_drop hp)
  cases jumps_of_getElem? h hi hjump with
  | @piece j op goal hp hgoal hx hi =>
    refine ⟨(front entries here ps goal).length, ?_, by rw [hx, ← start_eq]; rfl, ?_⟩
    · rw [whole, weave_cut ps goal, length_append]
      exact Nat.le_add_right _ _
    · rw [whole, weave_cut ps goal, drop_left]
      exact hback goal _
  | @inside j s k hp haimed hx hi =>
    obtain ⟨i, hi, harg, hplain⟩ := haimed x (mem_of_getElem? hx) hjump
    refine ⟨(front entries here ps j).length + i, ?_, by rw [harg, ← Nat.add_assoc, ← start_eq], ?_⟩
    · rw [whole, weave_split hp, length_append, length_append]
      exact Nat.add_le_add_left (Nat.le_trans hi (Nat.le_add_right _ _)) _
    · rw [whole, weave_split hp, drop_length_add_append, code, drop_append_of_le_length hi]
      exact hplain.append (hback _ _)

end Piece

namespace Stmt

variable (entries : Entries)

theorem sound_pieces (s : Stmt) : ∀ p ∈ s.pieces entries, p.Sound entries (s.pieces entries).length := by
  have inside {s : Stmt} (h : ∀ p ∈ s.pieces entries, p.Sound entries (s.pieces entries).length) (here : Nat) :
      Aimed here (instrs (s.code entries here)) := by
    rw [instrs_code]
    exact Piece.aimed_whole h
  induction s with
  | seq first second ih₁ ih₂ => simp [pieces, Piece.Sound, inside ih₁, inside ih₂]
  | ifThen condition testLine body ih | whileDo condition testLine body endLine ih | repeatUntil body condition line ih =>
    simp [pieces, Piece.Sound, inside ih, (condition.ops_code entries).straight, Opcode.isJump]
  | ifElse condition _ _ _ _ ih₁ ih₂ =>
    simp [pieces, Piece.Sound, inside ih₁, inside ih₂, (condition.ops_code entries).straight, Opcode.isJump]
  | forLoop _ _ start conversion _ _ limit _ _ _ ih =>
    simp [pieces, ForLoop.pieces, ForLoop.init, ForLoop.test, Piece.Sound, inside ih, (start.ops_code entries).straight,
      (limit.ops_code entries).straight, conversion.inline_code.inExpression.straight,
      Variable.address, Opcode.withInt, Opcode.isStraight, Opcode.isJump, compareControl, stepControl]
  | _ => exact forall_mem_singleton.mpr ⟨straight_code entries rfl 0, startsPlain_code entries _ 0⟩

/-- The jumps of a statement lead to an instruction of the statement or right behind it, and not to a copy. -/
theorem aimed_code (s : Stmt) (here : Nat) : Aimed here (instrs (s.code entries here)) := by
  rw [instrs_code]
  exact Piece.aimed_whole (s.sound_pieces entries)

end Stmt

end MiniPascal
