import MiniPascal.Binary64.Basic

/-!
# Whole numbers from doubles

Truncation toward zero and rounding to the nearest whole number, with halves going away from zero.
-/

namespace MiniPascal.Binary64

/-- Attach a sign to a magnitude. -/
def signed (negative : Bool) (n : Nat) : Int := if negative then -n else n

/-- Drop the fraction; an infinity and a non-number have no whole part. -/
def truncate : Binary64 → Option Int
  | .finite negative significand exponent =>
    let (num, den) := ratio significand exponent
    some (signed negative (num / den))
  | _ => none

/-- The nearest whole number, a half going away from zero. -/
def round : Binary64 → Option Int
  | .finite negative significand exponent =>
    let (num, den) := ratio significand exponent
    some (signed negative ((2 * num + den) / (2 * den)))
  | _ => none

end MiniPascal.Binary64
