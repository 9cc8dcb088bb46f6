import MiniPascal.Text
import MiniPascal.Binary64.Shortest

/-!
# Writing reals

The two ways of the language to write a real: with as few digits as read back, and with a fixed number
of digits after the point.
-/

namespace MiniPascal.Binary64

open Text (byte ofString)

/-- A minus sign in front of negative numbers, zero included. -/
def sign (negative : Bool) : Text := if negative then [byte '-'] else []

/-- The texts of the values that are not finite; both infinities carry a sign. -/
def special : Binary64 → Text
  | .infinite negative => [if negative then byte '-' else byte '+'] ++ ofString "Inf"
  | _ => ofString "NaN"

/-- Exponents of the leading digit that are written positionally. -/
def positional (leading : Int) : Bool := -4 ≤ leading && leading < 6

/-- `d.ddd` followed by the exponent with a sign and at least two digits. -/
def scientific (digits : Text) (leading : Int) : Text :=
  let mantissa := match digits with
    | d :: e :: rest => d :: byte '.' :: e :: rest
    | short => short
  let exponent := Text.ofNat leading.natAbs
  let zeros := List.replicate (2 - exponent.length) (byte '0')
  mantissa ++ [byte 'e', if leading < 0 then byte '-' else byte '+'] ++ zeros ++ exponent

/-- Digits with the point after the one of exponent zero, without trailing zeros after the point. -/
def plain (digits : Text) (leading : Int) : Text :=
  if leading < 0 then
    ofString "0." ++ List.replicate (leading.natAbs - 1) (byte '0') ++ digits
  else
    let whole := leading.toNat + 1
    let padded := digits ++ List.replicate (whole - digits.length) (byte '0')
    match padded.drop whole with
    | [] => padded
    | fraction => padded.take whole ++ [byte '.'] ++ fraction

/-- The shortest text that reads back as the same double. -/
def print : Binary64 → Text
  | .finite negative significand exponent =>
    if significand = 0 then sign negative ++ [byte '0']
    else
      let d := shortest significand exponent
      let digits := Text.ofNat d.digits
      let leading := d.leading
      sign negative ++
        if positional leading then plain digits leading else scientific digits leading
  | x => special x

/-- The quotient rounded to the nearest whole number, a half going to the even one. -/
def roundHalfEven (num den : Nat) : Nat :=
  let below := num / den
  let rest := num % den
  if 2 * rest < den then below
  else if den < 2 * rest then below + 1
  else if below % 2 = 0 then below else below + 1

/-- The exact value with the given number of digits after the point. -/
def printFixed (places : Nat) : Binary64 → Text
  | .finite negative significand exponent =>
    let (num, den) := ratio significand exponent
    let digits := Text.ofNat (roundHalfEven (num * tenTo places) den)
    let digits := List.replicate (places + 1 - digits.length) (byte '0') ++ digits
    let whole := digits.take (digits.length - places)
    let fraction := digits.drop (digits.length - places)
    sign negative ++ whole ++ if places = 0 then [] else byte '.' :: fraction
  | x => special x

end MiniPascal.Binary64
