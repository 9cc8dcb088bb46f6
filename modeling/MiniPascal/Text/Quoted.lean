import MiniPascal.Text
import MiniPascal.Text.Printable

/-!
# Quoted text

Characters and strings shown inside quotes. A printable character stands for itself, a few controls
have short escapes, the other ASCII controls two hexadecimal digits, and every further character that
is not printable four or eight of them. A byte that is part of no well-formed character is shown by its
two hexadecimal digits.
-/

namespace MiniPascal.Text

/-- Lower-case hexadecimal digits of a number, filled with zeros up to a width. -/
def hex (width n : Nat) : Text :=
  let digits := (Nat.toDigits 16 n).map byte
  List.replicate (width - digits.length) (byte '0') ++ digits

def utf8 (c : Nat) : Text :=
  if c < 0x80 then [c.toUInt8]
  else if c < 0x800 then [(0xC0 + c / 0x40).toUInt8, (0x80 + c % 0x40).toUInt8]
  else if c < 0x10000 then
    [(0xE0 + c / 0x1000).toUInt8, (0x80 + c / 0x40 % 0x40).toUInt8, (0x80 + c % 0x40).toUInt8]
  else
    [(0xF0 + c / 0x40000).toUInt8, (0x80 + c / 0x1000 % 0x40).toUInt8,
      (0x80 + c / 0x40 % 0x40).toUInt8, (0x80 + c % 0x40).toUInt8]

/-- The payload of a continuation byte. -/
def continuation? (b : UInt8) : Option Nat :=
  if 0x80 ≤ b && b < 0xC0 then some (b.toNat - 0x80) else none

/-- The code point at the start of a text and the number of bytes that encode it. Overlong forms,
surrogates and numbers above U+10FFFF are not well formed. -/
def decodeChar? : Text → Option (Nat × Nat)
  | [] => none
  | a :: rest =>
    if a < 0x80 then some (a.toNat, 1)
    else if a < 0xC2 then none
    else if a < 0xE0 then do
      let x ← rest[0]? >>= continuation?
      some ((a.toNat - 0xC0) * 0x40 + x, 2)
    else if a < 0xF0 then do
      let x ← rest[0]? >>= continuation?
      let y ← rest[1]? >>= continuation?
      let c := (a.toNat - 0xE0) * 0x1000 + x * 0x40 + y
      if c < 0x800 || (0xD800 ≤ c && c < 0xE000) then none else some (c, 3)
    else if a < 0xF5 then do
      let x ← rest[0]? >>= continuation?
      let y ← rest[1]? >>= continuation?
      let z ← rest[2]? >>= continuation?
      let c := (a.toNat - 0xF0) * 0x40000 + x * 0x1000 + y * 0x40 + z
      if c < 0x10000 || 0x110000 ≤ c then none else some (c, 4)
    else none

/-- A code point inside quotes of the given kind. -/
def escape (quote : Nat) (c : Nat) : Text :=
  if c = quote || c = 0x5C then [0x5C, c.toUInt8]
  else if isPrintable c then utf8 c
  else match c with
    | 7 => ofString "\\a"
    | 8 => ofString "\\b"
    | 12 => ofString "\\f"
    | 10 => ofString "\\n"
    | 13 => ofString "\\r"
    | 9 => ofString "\\t"
    | 11 => ofString "\\v"
    | _ =>
      if c < 0x80 then ofString "\\x" ++ hex 2 c
      else if c < 0x10000 then ofString "\\u" ++ hex 4 c
      else ofString "\\U" ++ hex 8 c

def quoteChar (b : UInt8) : Text := [0x27] ++ escape 0x27 b.toNat ++ [0x27]

/-- The inside of a quoted text; the count is the number of bytes left to skip, those that belong to
the character shown last. -/
def quoteFrom : Nat → Text → Text
  | _, [] => []
  | skip + 1, _ :: rest => quoteFrom skip rest
  | 0, b :: rest =>
    match decodeChar? (b :: rest) with
    | some (c, width) => escape 0x22 c ++ quoteFrom (width - 1) rest
    | none => ofString "\\x" ++ hex 2 b.toNat ++ quoteFrom 0 rest

def quote (t : Text) : Text := [0x22] ++ quoteFrom 0 t ++ [0x22]

end MiniPascal.Text
