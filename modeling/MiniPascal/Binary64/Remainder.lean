import MiniPascal.Binary64.Basic

/-!
# Remainder of doubles

The exact remainder of a division that truncates toward zero. It has the sign of the dividend, is
smaller than the divisor, and is always a double.
-/

namespace MiniPascal.Binary64

/-- The remainder of two magnitudes over a common power of two, as a significand of that power. -/
def remainderOver (m : Nat) (p : Int) (n : Nat) (q : Int) : Nat × Int :=
  let e := min p q
  ((m * twoTo (p - e).toNat) % (n * twoTo (q - e).toNat), e)

/-- `x - y · trunc (x / y)`. There is no remainder of an infinity or by zero, and a finite number is
its own remainder by an infinity. -/
def remainder (x y : Float) : Float :=
  match ofFloat x, ofFloat y with
  | .finite negative m p, .finite _ n q =>
    if n = 0 then 0.0 / 0.0
    else
      let (r, e) := remainderOver m p n q
      scaled negative r e
  | .finite .., .infinite _ => x
  | _, _ => 0.0 / 0.0

end MiniPascal.Binary64
