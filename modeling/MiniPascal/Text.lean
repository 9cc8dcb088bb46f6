/-!
# Byte text

Sources, names, messages and output are sequences of bytes. The language gives a meaning to ASCII
only, so no decoding takes place: a byte that is part of a longer encoded character is passed through
as it stands. This module holds the text type, the character classes of the language, and the decimal
writing of whole numbers.
-/

namespace MiniPascal

/-- A text is a finite sequence of bytes. -/
abbrev Text := List UInt8

namespace Text

/-- The byte with the number of a character below U+0100. -/
def byte (c : Char) : UInt8 := c.toNat.toUInt8

def ofChars (cs : List Char) : Text := cs.map byte

/-- The text of a string whose characters lie below U+0100, one byte for each character. -/
def ofString (s : String) : Text := ofChars s.toList

/-- The string that shows every byte as the character of the same number. -/
def toString (t : Text) : String := String.ofList (t.map fun b => Char.ofNat b.toNat)

def newline : Text := [10]

/-- Decimal digits of a natural number, most significant first. -/
def ofNat (n : Nat) : Text := (Nat.toDigits 10 n).map byte

/-- Decimal writing of an integer, with a minus sign in front of a negative one. -/
def ofInt : Int → Text
  | .ofNat n => ofNat n
  | .negSucc n => byte '-' :: ofNat (n + 1)

/-- Fill with blanks on the left up to a width. -/
def padLeft (width : Nat) (t : Text) : Text :=
  List.replicate (width - t.length) (byte ' ') ++ t

/-- Fill with blanks on the right up to a width. -/
def padRight (width : Nat) (t : Text) : Text :=
  t ++ List.replicate (width - t.length) (byte ' ')

/-- Join texts with a separator between neighbours. -/
def join (separator : Text) : List Text → Text
  | [] => []
  | [t] => t
  | t :: ts => t ++ separator ++ join separator ts

/-- Drop every byte of a set from the end. -/
def trimRight (drop : UInt8 → Bool) (t : Text) : Text := (t.reverse.dropWhile drop).reverse

/-- Cut at every newline; there is always one more piece than there are newlines. -/
def splitLines : Text → List Text
  | [] => [[]]
  | b :: t =>
    if b = 10 then [] :: splitLines t
    else match splitLines t with
      | [] => [[b]]
      | piece :: pieces => (b :: piece) :: pieces

/-- Cutting never yields an empty list of pieces. -/
theorem splitLines_ne_nil (t : Text) : splitLines t ≠ [] := by
  induction t with
  | nil => simp [splitLines]
  | cons b t ih =>
    simp only [splitLines]
    split
    · simp
    · split <;> simp

/-- A blank of the language: space, tab, newline, carriage return or form feed. -/
def isBlank (b : UInt8) : Bool := b = 32 || b = 9 || b = 10 || b = 13 || b = 12

def isDigit (b : UInt8) : Bool := 48 ≤ b && b ≤ 57

/-- A letter of an identifier; the underscore counts as one. -/
def isLetter (b : UInt8) : Bool := 97 ≤ b && b ≤ 122 || 65 ≤ b && b ≤ 90 || b = 95

/-- The lower-case form of a letter A to Z; every other byte is its own. -/
def toLower (b : UInt8) : UInt8 := if 65 ≤ b && b ≤ 90 then b + 32 else b

/-- The number that a run of decimal digits denotes. -/
def digitsValue (t : Text) : Nat := t.foldl (fun n b => 10 * n + (b.toNat - 48)) 0

end Text

end MiniPascal
