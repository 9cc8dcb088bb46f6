import MiniPascal.Tree.Basic

/-!
# Subprograms of a tree

Which subprograms a tree declares, each with the subprograms around it, and which ones it calls.
-/

namespace MiniPascal

mutual

def Expr.callees : Expr → List RoutineId
  | .absent => []
  | .literal .. => []
  | .load source _ _ => source.callees
  | .call callee args _ => args.callees ++ [callee.routine]
  | .sign _ operand _ => operand.callees
  | .complement operand _ => operand.callees
  | .binary _ left right _ _ => left.callees ++ right.callees
  | .compare _ left right _ _ => left.callees ++ right.callees
  | .apply _ arg _ _ _ => arg.callees

def Designator.callees : Designator → List RoutineId
  | .variable .. => []
  | .result .. => []
  | .element array index _ _ => array.callees ++ index.callees
  | .field record _ _ => record.callees
  | .pointee pointer _ => pointer.callees
  | .surplus place index => place.callees ++ index.callees

def Args.callees : Args → List RoutineId
  | .nil => []
  | .cons arg _ _ rest => arg.callees ++ rest.callees

end

def Stmt.callees : Stmt → List RoutineId
  | .skip => []
  | .seq first second => first.callees ++ second.callees
  | .assign target value _ _ => target.callees ++ value.callees
  | .assignWhole target value _ _ => target.callees ++ value.callees
  | .abandoned target value => target.callees ++ value.callees
  | .call callee args _ => args.callees ++ [callee.routine]
  | .ifThen condition _ body => condition.callees ++ body.callees
  | .ifElse condition _ body _ alternative => condition.callees ++ body.callees ++ alternative.callees
  | .whileDo condition _ body _ => condition.callees ++ body.callees
  | .repeatUntil body condition _ => body.callees ++ condition.callees
  | .forLoop _ _ start _ _ _ limit _ body _ => start.callees ++ limit.callees ++ body.callees
  | .write value format _ => value.callees ++ format.flatMap Expr.callees
  | .writeText .. => []
  | .writeln _ => []
  | .new target _ _ => target.callees
  | .dispose target _ => target.callees

/-- A block around a place: its subprogram and its local variables. -/
structure Level where
  routine : Routine
  vars : List Field

namespace Level

/-- The variables and the parameters of a block. -/
def fields (l : Level) : List Field := l.routine.params ++ l.vars

end Level

namespace Blocks

/-- The subprograms whose bodies are among the blocks, in the order of their bodies. -/
def ids : Blocks → List RoutineId
  | .nil => []
  | .cons info inner _ rest => inner.ids ++ info.routine.id :: rest.ids

def callees : Blocks → List RoutineId
  | .nil => []
  | .cons _ inner body rest => inner.callees ++ body.callees ++ rest.callees

/-- The subprograms whose bodies are among the blocks, each with the blocks around it, innermost first. -/
def declared : List Level → Blocks → List (Routine × List Level)
  | _, .nil => []
  | around, .cons info inner _ rest =>
    inner.declared (⟨info.routine, info.vars⟩ :: around) ++ (info.routine, around) :: rest.declared around

theorem map_declared (around : List Level) (b : Blocks) : (b.declared around).map (fun d => d.1.id) = b.ids := by
  induction b generalizing around with
  | nil => rfl
  | cons _ _ _ _ ih₁ ih₂ => simp [declared, ids, ih₁, ih₂]

end Blocks

end MiniPascal
