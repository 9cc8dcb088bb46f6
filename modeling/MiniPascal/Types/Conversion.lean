import MiniPascal.Types.Basic

/-!
# Conversions between types

The operands of a binary operation are brought to a common type, and a value is converted to the type
of the place where it is stored. The result of either says what has to be done at run time.
-/

namespace MiniPascal

/-- Which operand of a binary operation is widened from integer to real. -/
inductive Promotion where
  | neither
  | left
  | right
deriving DecidableEq, Repr

/-- How a value is turned into one of another kind. -/
inductive Coercion where
  | keep
  | widen
  | round
deriving DecidableEq, Repr

/-- What happens to a value before it is stored: a change of kind, then a check of its range. -/
structure Conversion where
  coercion : Coercion := .keep
  bounds : Option Bounds := none
deriving DecidableEq, Repr

namespace Conversion

/-- Whether digits may be lost, which deserves a warning. -/
def narrows (c : Conversion) : Bool := c.coercion = .round

end Conversion

namespace TypeTable

/-- The common type of two operands and the operand that has to be widened. Enumerations agree only with
themselves, and aggregates have no operations. -/
def promote (types : TypeTable) (left right : TypeId) : Except TypeError (TypeId × Promotion) :=
  let l := types.root left
  let r := types.root right
  match types.kind l, types.kind r with
  | .integer, .real => .ok (.real, .left)
  | .real, .integer => .ok (.real, .right)
  | lk, rk =>
    if lk ≠ rk then .error .mismatch
    else if lk = .enumeration && l ≠ r then .error .mismatch
    else if lk.isAggregate then .error .mismatch
    else .ok (l, .neither)

/-- The range to which the neighbour of a value is held: that of a narrow type or of an enumeration. -/
def neighbourBounds (types : TypeTable) (t : TypeId) : Option Bounds :=
  if types.isNarrow t || types.rootKind t = .enumeration then some (types.bounds t) else none

/-- How a value is converted to be stored in a place of the target type. A real may be stored as an
integer, and is rounded. -/
def convert (types : TypeTable) (target source : TypeId) : Except TypeError Conversion :=
  let t := types.root target
  let s := types.root source
  let bounds := if types.isNarrow target then some (types.bounds target) else none
  match types.kind t, types.kind s with
  | .real, .integer => .ok { coercion := .widen, bounds }
  | .integer, .real => .ok { coercion := .round, bounds }
  | _, _ => if types.same t s then .ok { bounds } else .error .mismatch

end TypeTable

end MiniPascal
