/-!
# Doubles as exact numbers

A double is decoded into a sign, a whole significand and a power of two, so that rounding and printing
can be stated in exact integer arithmetic.
-/

namespace MiniPascal

/-- The number that a double denotes: `± significand · 2 ^ exponent`, an infinity, or no number. -/
inductive Binary64 where
  | finite (negative : Bool) (significand : Nat) (exponent : Int)
  | infinite (negative : Bool)
  | notANumber
deriving DecidableEq, Repr

namespace Binary64

def twoTo (e : Nat) : Nat := Nat.pow 2 e

def tenTo (e : Nat) : Nat := Nat.pow 10 e

/-- Significands of normal doubles lie in `[2 ^ 52, 2 ^ 53)`. -/
def hiddenBit : Nat := twoTo 52

/-- The exponent of the smallest positive double, shared by all subnormal ones. -/
def leastExponent : Int := -1074

/-- Decode the three fields of a 64-bit pattern. -/
def ofBits (bits : UInt64) : Binary64 :=
  let pattern := bits.toNat
  let negative := twoTo 63 ≤ pattern
  let biased := pattern / hiddenBit % twoTo 11
  let fraction := pattern % hiddenBit
  if biased = 2047 then
    if fraction = 0 then .infinite negative else .notANumber
  else if biased = 0 then .finite negative fraction leastExponent
  else .finite negative (hiddenBit + fraction) (leastExponent + (biased - 1 : Nat))

def ofFloat (x : Float) : Binary64 := ofBits x.toBits

/-- The double `± significand · 2 ^ exponent`, exact whenever a double has that value. Bits below the
leading 53 are then zero, and are moved into the exponent first. -/
def scaled (negative : Bool) (significand : Nat) (exponent : Int) : Float :=
  let excess := significand.log2 - 52
  let magnitude := (Float.ofNat (significand >>> excess)).scaleB (exponent + excess)
  if negative then -magnitude else magnitude

/-- Numerator and denominator of `significand · 2 ^ exponent`. -/
def ratio (significand : Nat) (exponent : Int) : Nat × Nat :=
  match exponent with
  | .ofNat e => (significand * twoTo e, 1)
  | .negSucc e => (significand, twoTo (e + 1))

end Binary64

end MiniPascal
