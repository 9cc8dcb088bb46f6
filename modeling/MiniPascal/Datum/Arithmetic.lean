import MiniPascal.Datum.Basic
import MiniPascal.Binary64.Remainder

/-!
# Arithmetic on data

Two integers give an integer reduced to 32 bits, an address and an integer give an address, and a real
with any number gives a real. Every other combination of kinds is an error. A zero divisor is found
before the division, and only once both operands are known to be numbers.
-/

namespace MiniPascal.Datum

/-- Apply an operation of reals to two numbers. -/
def onReals {α : Type} (f : Float → Float → α) (a b : Datum) : Except Error α :=
  match a.widen?, b.widen? with
  | some x, some y => .ok (f x y)
  | _, _ => .error .badKind

/-- The sum of two numbers, or an address moved by an integer. -/
def add : Datum → Datum → Except Error Datum
  | .integer x, .integer y => .ok (wrapped (x + y))
  | .address x, .integer y => .ok (.address (x + y))
  | .integer x, .address y => .ok (.address (x + y))
  | a, b => onReals (fun x y => .real (x + y)) a b

/-- The difference of two numbers, or an address moved back by an integer. -/
def sub : Datum → Datum → Except Error Datum
  | .integer x, .integer y => .ok (wrapped (x - y))
  | .address x, .integer y => .ok (.address (x - y))
  | a, b => onReals (fun x y => .real (x - y)) a b

def mul : Datum → Datum → Except Error Datum
  | .integer x, .integer y => .ok (wrapped (x * y))
  | a, b => onReals (fun x y => .real (x * y)) a b

/-- Refuse operands that are no numbers, then a divisor that is zero. -/
def checkDivision (a b : Datum) : Except Error Unit :=
  if !(a.isNumeric && b.isNumeric) then .error .badKind
  else if b.isZero then .error .divideByZero
  else .ok ()

/-- The quotient, truncated toward zero if both operands are integers. -/
def div (a b : Datum) : Except Error Datum := do
  checkDivision a b
  match a, b with
  | .integer x, .integer y => .ok (wrapped (x / y))
  | a, b => onReals (fun x y => .real (x / y)) a b

/-- The remainder of the truncated division; it has the sign of the dividend. -/
def rem (a b : Datum) : Except Error Datum := do
  checkDivision a b
  match a, b with
  | .integer x, .integer y => .ok (wrapped (x % y))
  | a, b => onReals (fun x y => .real (Binary64.remainder x y)) a b

def compareWords (x y : Int64) : Ordering :=
  if x < y then .lt else if y < x then .gt else .eq

/-- Order two reals; one that is no number is not told apart from any other. -/
def compareReals (x y : Float) : Ordering :=
  if x < y then .lt else if y < x then .gt else .eq

/-- Order two data of one kind, or two numbers. -/
def compare : Datum → Datum → Except Error Ordering
  | .integer x, .integer y => .ok (compareWords x y)
  | .boolean x, .boolean y => .ok (compareWords (ordOfBool x) (ordOfBool y))
  | .character x, .character y =>
    .ok (compareWords (Int64.ofNat x.toNat) (Int64.ofNat y.toNat))
  | .address x, .address y => .ok (compareWords x y)
  | a, b => onReals compareReals a b

def equal (a b : Datum) : Bool := compare a b matches .ok .eq

end MiniPascal.Datum
