import MiniPascal.Text

/-!
# Reading reals

The double nearest to a decimal number, halves going to the even significand. Numbers that are too
large read as infinity and numbers that are too small as zero.
-/

namespace MiniPascal.Binary64

/-- The double nearest to `mantissa · 10 ^ exponent`. Exponents far outside the range of doubles are
settled by the number of digits alone. -/
def ofDecimal (mantissa : Nat) (exponent : Int) : Float :=
  if mantissa = 0 then 0.0
  else
    let magnitude := exponent + (Nat.toDigits 10 mantissa).length
    if magnitude > 310 then 1.0 / 0.0
    else if magnitude < -330 then 0.0
    else match exponent with
      | .ofNat e => Float.ofScientific mantissa false e
      | .negSucc e => Float.ofScientific mantissa true (e + 1)

/-- The value of an exponent's digits. Once it has reached 10000 the digits that follow are passed over:
an exponent of more than five digits keeps its first five, leading zeros aside. -/
def exponentValue (digits : Text) : Nat :=
  digits.foldl (fun n b => if n < 10000 then 10 * n + (b.toNat - 48) else n) 0

/-- The exponent part of a literal after its mark: an optional sign and digits. -/
def exponentOf : Text → Int
  | 43 :: digits => exponentValue digits
  | 45 :: digits => -(exponentValue digits : Int)
  | digits => exponentValue digits

/-- Whether the first nineteen of the digits leave open which double is nearest to
`digits · 10 ^ exponent`. -/
def isOpen (digits : Text) (exponent : Int) : Bool :=
  let leading := Text.digitsValue (digits.take 19)
  let places := exponent + (digits.drop 19).length
  (digits.drop 19).any (· ≠ 48) && ofDecimal leading places != ofDecimal (leading + 1) places

/-- The double of a literal `digits [. digits] [e [sign] digits]`. Of a whole part no more than 800 digits
are counted, leading zeros aside, where the first nineteen do not settle the number: the point then
stands after the 800th. -/
def ofLiteral (t : Text) : Float :=
  let whole := (t.takeWhile Text.isDigit).dropWhile (· = 48)
  let rest := t.dropWhile Text.isDigit
  let (fraction, rest) := match rest with
    | 46 :: r => (r.takeWhile Text.isDigit, r.dropWhile Text.isDigit)
    | _ => ([], rest)
  let exponent := match rest with
    | _ :: r => exponentOf r
    | [] => 0
  let digits := whole ++ fraction
  let exponent := exponent - fraction.length
  let uncounted := whole.length - 800
  if 0 < uncounted && isOpen digits exponent then
    ofDecimal (Text.digitsValue digits) (exponent - uncounted)
  else ofDecimal (Text.digitsValue digits) exponent

/-- The double of a text: a literal with an optional sign, or one of the values that are not finite. -/
def ofText : Text → Float
  | 43 :: t => ofText t
  | 45 :: t => -ofText t
  | t =>
    if t = Text.ofString "Inf" then 1.0 / 0.0
    else if t = Text.ofString "NaN" then 0.0 / 0.0
    else ofLiteral t

end MiniPascal.Binary64
