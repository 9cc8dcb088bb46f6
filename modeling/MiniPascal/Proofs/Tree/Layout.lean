import MiniPascal.Tree.Code

/-!
# Layout

The operations of laid out code depend neither on where it is placed nor on where subprograms start; only
targets do. So the sizes of blocks are known before anything is placed, and the starts that are computed
from them are right.
-/

namespace MiniPascal

open List

def operations (code : List Emission) : List Opcode := code.map fun x => x.instr.op

@[simp] theorem operations_nil : operations [] = [] := rfl

@[simp] theorem operations_append (a b : List Emission) :
    operations (a ++ b) = operations a ++ operations b := map_append

@[simp] theorem operations_emitAt (line : Nat) (code : List Instr) :
    operations (emitAt line code) = code.map Instr.op := by
  simp [operations, emitAt]

@[simp] theorem op_withTarget (op : Opcode) (address : Nat) : (op.withTarget address).op = op := rfl

theorem length_operations (code : List Emission) : (operations code).length = code.length := length_map _

theorem length_eq_of_operations {a b : List Emission} (h : operations a = operations b) : a.length = b.length := by
  rw [← length_operations, h, length_operations]

attribute [local simp] Expr.code Designator.code Args.code Callee.code

section

variable (entries : Entries)

mutual

theorem Expr.operations_code : (e : Expr) → operations (e.code entries) = operations (e.code fun _ => 0)
  | .absent | .literal .. => rfl
  | .load source _ _ => by simp [source.operations_code]
  | .call _ args _ => by simp [args.operations_code]
  | .sign _ operand _ | .complement operand _ => by simp [operand.operations_code]
  | .binary _ left right _ _ | .compare _ left right _ _ => by simp [left.operations_code, right.operations_code]
  | .apply _ arg _ _ _ => by simp [arg.operations_code]

theorem Designator.operations_code : (d : Designator) → operations (d.code entries) = operations (d.code fun _ => 0)
  | .variable .. | .result .. => rfl
  | .element array index _ _ => by simp [array.operations_code, index.operations_code]
  | .field record _ _ => by simp [record.operations_code]
  | .pointee pointer _ => by simp [pointer.operations_code]
  | .surplus place index => by simp [place.operations_code, index.operations_code]

theorem Args.operations_code : (a : Args) → operations (a.code entries) = operations (a.code fun _ => 0)
  | .nil => rfl
  | .cons arg _ _ rest => by simp [arg.operations_code, rest.operations_code]

end

end

attribute [local simp] Expr.operations_code Designator.operations_code Args.operations_code

namespace Stmt

theorem operations_storeWhole {a b : List Emission} (h : operations a = operations b) (size : Int64)
    (line : Nat) : operations (storeWhole a size line) = operations (storeWhole b size line) := by
  have hlast := congrArg List.getLast? h
  have hinit := congrArg List.dropLast h
  simp only [operations, List.getLast?_map, ← map_dropLast] at hlast hinit
  unfold storeWhole
  cases ha : a.getLast? with
  | none =>
    rw [ha, Option.map_none] at hlast
    rw [Option.map_eq_none_iff.mp hlast.symm]
  | some x =>
    rw [ha, Option.map_some] at hlast
    obtain ⟨y, hy, hop⟩ := Option.map_eq_some_iff.mp hlast.symm
    simp only [hy, hop]
    split
    · simp only [operations_append, operations_emitAt]
      exact congrArg (· ++ _) hinit
    · simp only [operations_append, h]

theorem operations_code (entries : Entries) (here : Nat) (s : Stmt) :
    operations (s.code entries here) = operations (s.code (fun _ => 0) 0) := by
  induction s generalizing entries here with
  | seq first second ih₁ ih₂ => simp [code, ih₁, ih₂]
  | assignWhole target value size line => exact operations_storeWhole (by simp) size line
  | ifThen _ _ _ ih => simp [code, ih]
  | ifElse _ _ _ _ _ ih₁ ih₂ => simp [code, ih₁, ih₂]
  | whileDo _ _ _ _ ih => simp [code, ih]
  | repeatUntil _ _ _ ih => simp [code, ih]
  | forLoop _ _ _ _ _ _ _ _ _ _ ih => simp [code, ih]
  | write value format line =>
    have hformat : operations (format.flatMap fun e => e.code entries) =
        operations (format.flatMap fun e => e.code fun _ => 0) := by
      simp only [operations, map_flatMap]
      exact congrArg (format.flatMap ·) (funext fun e => e.operations_code entries)
    simp [code, hformat]
  | _ => simp [code]

variable (entries entries' : Entries)

theorem length_code (here here' : Nat) (s : Stmt) : (s.code entries here).length = (s.code entries' here').length :=
  length_eq_of_operations ((s.operations_code entries here).trans (s.operations_code entries' here').symm)

end Stmt

variable (entries entries' : Entries)

theorem BlockInfo.length_code (here here' : Nat) (info : BlockInfo) (body : Stmt) :
    (info.code entries here body).length = (info.code entries' here' body).length := by
  simp only [BlockInfo.code, length_append]
  rw [body.length_code entries entries' _ (here' + info.entry.length)]

namespace Blocks

theorem length_code (here here' : Nat) (b : Blocks) :
    (b.code entries here).length = (b.code entries' here').length := by
  induction b generalizing here here' with
  | nil => rfl
  | cons info inner body rest ih₁ ih₂ =>
    simp only [code, length_append]
    rw [ih₁ here here', info.length_code entries entries' _ (here' + (inner.code entries' here').length),
      ih₂ _ (here' + (inner.code entries' here').length +
        (info.code entries' (here' + (inner.code entries' here').length) body).length)]

theorem length_code_eq_size (here : Nat) (b : Blocks) : (b.code entries here).length = b.size :=
  b.length_code entries _ here 0

end Blocks

end MiniPascal
