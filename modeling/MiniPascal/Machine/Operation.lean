import MiniPascal.Binary64.Integral
import MiniPascal.Datum.Arithmetic
import MiniPascal.Instr
import MiniPascal.Machine.Status

/-!
# Operations on the operands of the stack

What the unary and the binary operations compute from their operands, or the fault with which they are
refused.
-/

namespace MiniPascal

def inRange32 (n : Int) : Bool := -2147483648 ≤ n && n ≤ 2147483647

/-- A whole number taken from a real, if there is one and it is in range. -/
def wholeOrFault : Option Int → Except Fault Datum
  | some n => if inRange32 n then .ok (.integer (Int64.ofInt n)) else .error .outOfRange
  | none => .error .outOfRange

namespace UnaryOp

def numeric (onInteger : Int64 → Int64) (onReal : Float → Float) : Datum → Except Fault Datum
  | .integer v => .ok (.wrapped (onInteger v))
  | .real x => .ok (.real (onReal x))
  | _ => .error .badDataType

/-- A function of reals, applied to a number in its domain. -/
def analytic (inDomain : Float → Bool) (f : Float → Float) (d : Datum) : Except Fault Datum :=
  match d.widen? with
  | some x => if inDomain x then .ok (.real (f x)) else .error .outOfRange
  | none => .error .badDataType

def neighbour (distance : Int64) : Datum → Except Fault Datum
  | .integer v => .ok (.wrapped (v + distance))
  | .boolean b =>
    let n := Datum.ordOfBool b + distance
    if n < 0 || 1 < n then .error .outOfRange else .ok (.boolean (n ≠ 0))
  | .character c =>
    let n := Int64.ofNat c.toNat + distance
    if n < 0 || 255 < n then .error .outOfRange else .ok (.character n.toInt.toNat.toUInt8)
  | _ => .error .badDataType

def apply : UnaryOp → Datum → Except Fault Datum
  | .neg, d => numeric (- ·) (- ·) d
  | .abs, d => numeric (fun v => if v < 0 then -v else v) Float.abs d
  | .sqr, d => numeric (fun v => v * v) (fun x => x * x) d
  | .itor, d => analytic (fun _ => true) id d
  | .round, .real x => wholeOrFault (Binary64.ofFloat x).round
  | .trunc, .real x => wholeOrFault (Binary64.ofFloat x).truncate
  | .atan, d => analytic (fun _ => true) Float.atan d
  | .cos, d => analytic (fun _ => true) Float.cos d
  | .exp, d => analytic (fun _ => true) Float.exp d
  | .sin, d => analytic (fun _ => true) Float.sin d
  | .log, d => analytic (fun x => !(x ≤ 0)) Float.log d
  | .sqrt, d => analytic (fun x => !(x < 0)) Float.sqrt d
  | .odd, .integer v => .ok (.boolean (v &&& 1 ≠ 0))
  | .pred, d => neighbour (-1) d
  | .succ, d => neighbour 1 d
  | .ord, d =>
    match d.ordinal? with
    | some v => .ok (.integer v)
    | none => .error .badDataType
  | .chr, .integer v =>
    if v < 0 || 255 < v then .error .outOfRange else .ok (.character v.toInt.toNat.toUInt8)
  | .not, .boolean b => .ok (.boolean (!b))
  | .not, .integer v => .ok (.integer (~~~v))
  | _, _ => .error .badDataType

end UnaryOp

namespace Relation

/-- Whether a relation holds between two data that are ordered in a given way. -/
def holds : Relation → Ordering → Bool
  | .less, o => o = .lt
  | .lessEqual, o => o ≠ .gt
  | .equal, o => o = .eq
  | .greaterEqual, o => o ≠ .lt
  | .greater, o => o = .gt
  | .notEqual, o => o ≠ .eq

end Relation

namespace BinaryOp

/-- The fault for an operation on data that has no result. -/
def faultOf : Datum.Error → Fault
  | .badKind => .badDataType
  | .divideByZero => .divideByZero

def arithmetic (r : Except Datum.Error Datum) : Except Fault Datum := r.mapError faultOf

def onIntegers (f : Int64 → Int64 → Int64) : Datum → Datum → Except Fault Datum
  | .integer x, .integer y => .ok (.integer (f x y))
  | _, _ => .error .badDataType

def onBooleans (f : Bool → Bool → Bool) : Datum → Datum → Except Fault Datum
  | .boolean x, .boolean y => .ok (.boolean (f x y))
  | _, _ => .error .badDataType

/-- Shift a 32-bit number left by a count modulo 32. -/
def shiftLeft (x y : Int64) : Int64 := (x.toInt32 <<< (y &&& 31).toInt32).toInt64

/-- Shift a 32-bit number right by a count modulo 32, keeping its sign. -/
def shiftRight (x y : Int64) : Int64 := (x.toInt32 >>> (y &&& 31).toInt32).toInt64

/-- The result of a binary operation; the second operand is the top of the stack. -/
def apply : BinaryOp → Datum → Datum → Except Fault Datum
  | .add, a, b => arithmetic (a.add b)
  | .sub, a, b => arithmetic (a.sub b)
  | .mul, a, b => arithmetic (a.mul b)
  | .div, a, b => arithmetic (a.div b)
  | .rem, a, b => arithmetic (a.rem b)
  | .band, a, b => onIntegers (· &&& ·) a b
  | .bor, a, b => onIntegers (· ||| ·) a b
  | .bxor, a, b => onIntegers (· ^^^ ·) a b
  | .shl, a, b => onIntegers shiftLeft a b
  | .shr, a, b => onIntegers shiftRight a b
  | .compare r, a, b => ((a.compare b).mapError faultOf).map fun o => .boolean (r.holds o)
  | .or, a, b => onBooleans (· || ·) a b
  | .and, a, b => onBooleans (· && ·) a b

end BinaryOp

end MiniPascal
