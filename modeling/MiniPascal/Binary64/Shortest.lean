import MiniPascal.Binary64.Basic

/-!
# Shortest decimals

The fewest decimal digits that single out a double among all doubles, and of those the ones nearest to
its value. A decimal reads back as a double exactly if it lies between the midpoints to the neighbouring
doubles; the midpoints themselves belong to the even significand.
-/

namespace MiniPascal.Binary64

/-- A positive decimal `digits · 10 ^ exponent`. -/
structure Decimal where
  digits : Nat
  exponent : Int
deriving DecidableEq, Repr

namespace Decimal

def leading (d : Decimal) : Int := d.exponent + (Nat.toDigits 10 d.digits).length - 1

end Decimal

/-- The decimals that read back as one double, over a common denominator: `low ≤ value ≤ high`, the ends
included if `closed`. -/
structure Interval where
  low : Nat
  value : Nat
  high : Nat
  denominator : Nat
  closed : Bool
deriving Repr

/-- The interval of a positive double. Below a power of two the spacing is halved. -/
def interval (significand : Nat) (exponent : Int) : Interval :=
  let gap := if significand = hiddenBit && exponent ≠ leastExponent then 1 else 2
  let scale (n : Nat) := (ratio n (exponent - 2)).1
  { low := scale (4 * significand - gap)
    value := scale (4 * significand)
    high := scale (4 * significand + 2)
    denominator := (ratio 1 (exponent - 2)).2
    closed := significand % 2 = 0 }

namespace Interval

/-- Whether `digits · 10 ^ k` lies in the interval. -/
def contains (i : Interval) (digits : Nat) (k : Int) : Bool :=
  let n := digits * tenTo k.toNat * i.denominator
  let s := tenTo (-k).toNat
  if i.closed then i.low * s ≤ n && n ≤ i.high * s else i.low * s < n && n < i.high * s

/-- The exponent of the first decimal digit of the value. -/
def leading (i : Interval) : Int :=
  if i.denominator ≤ i.value then (Nat.toDigits 10 (i.value / i.denominator)).length - 1
  else
    let inverse := (i.denominator + i.value - 1) / i.value
    0 - (Nat.toDigits 10 (inverse - 1)).length

/-- The better of the two multiples of `10 ^ k` around the value, if one of them is in the interval: the
nearer one, and of two equally near ones the even one. -/
def nearest? (i : Interval) (k : Int) : Option Nat :=
  let num := i.value * tenTo (-k).toNat
  let den := i.denominator * tenTo k.toNat
  let below := num / den
  let rest := num % den
  match i.contains below k, i.contains (below + 1) k with
  | true, true => some (if 2 * rest < den || 2 * rest = den && below % 2 = 0 then below else below + 1)
  | true, false => some below
  | false, true => some (below + 1)
  | false, false => none

end Interval

/-- Try the grids of one digit, two digits and so on; seventeen digits always suffice. -/
def shortestFrom (i : Interval) (leading : Int) : Nat → Nat → Decimal
  | 0, digits =>
    let k := leading - digits
    ⟨i.value * tenTo (-k).toNat / (i.denominator * tenTo k.toNat), k⟩
  | more + 1, digits =>
    let k := leading - digits
    match i.nearest? k with
    | some d => ⟨d, k⟩
    | none => shortestFrom i leading more (digits + 1)

/-- Move trailing zeros of the digits into the exponent; the fuel bounds their number. -/
def dropZeros : Nat → Decimal → Decimal
  | 0, d => d
  | fuel + 1, d =>
    if d.digits % 10 = 0 && d.digits ≠ 0 then dropZeros fuel ⟨d.digits / 10, d.exponent + 1⟩ else d

/-- The shortest decimal of the positive double `significand · 2 ^ exponent`. -/
def shortest (significand : Nat) (exponent : Int) : Decimal :=
  let i := interval significand exponent
  dropZeros 18 (shortestFrom i i.leading 17 0)

end MiniPascal.Binary64
