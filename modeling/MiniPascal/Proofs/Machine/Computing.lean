import MiniPascal.Machine.Step
import MiniPascal.Proofs.Machine.Operation

/-!
# Code that only computes

Most of the code of an expression works on the operands on top of the stack and on nothing else.
What it leaves of them is a function of the operands and of the room that the stack has for more.
-/

namespace MiniPascal

open Machine

/-- An ordinal that does not exceed a limit is kept. -/
def Datum.limited (d : Datum) (limit : Int64) (exceeds : Int64 → Int64 → Bool) :
    Except Fault Datum :=
  match d.ordinal? with
  | some v => if exceeds v limit then .error .outOfRange else .ok d
  | none => .error .badDataType

variable {room : Nat} {d : Datum} {ds : List Datum} {v : Int64}

theorem Datum.map_limited (hd : d.ordinal? = some v) (n : Int64)
    (exceeds : Int64 → Int64 → Bool) : (d.limited n exceeds).map (· :: ds) =
      if exceeds v n then .error .outOfRange else .ok (d :: ds) := by
  unfold Datum.limited
  rw [hd]
  dsimp only
  split <;> rfl

theorem Datum.expects_limited {F : Fault → Prop} {Q : List Datum → Prop} {n : Int64}
    {exceeds : Int64 → Int64 → Bool} (hkind : F .badDataType) (hrange : F .outOfRange)
    (hQ : ∀ v, d.ordinal? = some v → ¬exceeds v n = true → Q (d :: ds)) :
    Expects F Q ((d.limited n exceeds).map (· :: ds)) := by
  unfold Datum.limited
  cases hv : d.ordinal? with
  | none => exact hkind
  | some v =>
    dsimp only
    split
    · exact hrange
    · next hle => exact hQ v hv hle

namespace Instr

/-- The operands that an instruction leaves, where the stack has room for a number of them. -/
def compute (room : Nat) : Instr → List Datum → Except Fault (List Datum)
  | ⟨.push, _, d⟩, ds => if ds.length < room then .ok (d :: ds) else .error .stackOverflow
  | ⟨.unary op, _, _⟩, d :: ds => (op.apply d).map (· :: ds)
  | ⟨.itor2, _, _⟩, b :: a :: ds => (UnaryOp.itor.apply a).map fun r => b :: r :: ds
  | ⟨.binary op, _, _⟩, b :: a :: ds => (op.apply a b).map (· :: ds)
  | ⟨.llimit, _, .integer n⟩, d :: ds => (d.limited n fun v n => v < n).map (· :: ds)
  | ⟨.ulimit, _, .integer n⟩, d :: ds => (d.limited n fun v n => v > n).map (· :: ds)
  | _, _ => .error .unknownInstr

/-- An instruction that computes finds the operands that its operation pops. -/
theorem pops_of_compute (x : Instr) (h : x.compute room ds ≠ .error .unknownInstr) :
    ∃ n, x.op.pops = some n ∧ n ≤ ds.length := by
  unfold compute at h
  split at h
  · exact ⟨0, rfl, Nat.zero_le _⟩
  · exact ⟨1, rfl, by simp⟩
  · exact ⟨2, rfl, by simp⟩
  · exact ⟨2, rfl, by simp⟩
  · exact ⟨1, rfl, by simp⟩
  · exact ⟨1, rfl, by simp⟩
  · exact absurd rfl h

/-- The operands that some code leaves. -/
def computeAll (room : Nat) : List Instr → List Datum → Except Fault (List Datum)
  | [], ds => .ok ds
  | x :: rest, ds => x.compute room ds >>= computeAll room rest

theorem computeAll_append (xs ys : List Instr) (ds : List Datum) :
    computeAll room (xs ++ ys) ds = computeAll room xs ds >>= computeAll room ys := by
  induction xs generalizing ds with
  | nil => rfl
  | cons x rest ih =>
    simp only [List.cons_append, computeAll]
    cases x.compute room ds with
    | ok ds' => exact ih ds'
    | error f => rfl

end Instr

end MiniPascal
