import MiniPascal.Token
import MiniPascal.Datum.Basic
import MiniPascal.Binary64.Reading

/-!
# Lexemes

A source is cut into lexemes, each with its token, its text, and the place of its first byte. Blanks
and comments between lexemes are dropped. Scanning never fails: what is no lexeme of the language is a
lexeme of class unknown, and a comment that is never closed is one of its own class.
-/

namespace MiniPascal

/-- A piece of the source with its class. Operators have no text of their own, words are in lower case,
and the text of a string is its contents. Numbers carry their value. -/
structure Lexeme where
  token : Token
  text : Text := []
  pos : Nat
  line : Nat
  value : Option Datum := none
deriving DecidableEq, Repr

/-- A place in a source: what is left to read, and the index and line of its first byte. -/
structure Cursor where
  rest : Text
  pos : Nat := 0
  line : Nat := 1
deriving DecidableEq, Repr

namespace Lexeme

/-- The largest integer literal. -/
def maxInteger : Nat := 0x7FFFFFFF

/-- What stands at the start of a text: its class, its text and value, and how many bytes it takes. -/
structure Match where
  token : Token
  text : Text := []
  value : Option Datum := none
  length : Nat := 1
deriving DecidableEq, Repr

/-- The length of a fraction `. digits` at the start of a text; zero if there is none. -/
def fractionLength : Text → Nat
  | 46 :: rest =>
    match (rest.takeWhile Text.isDigit).length with
    | 0 => 0
    | n => n + 1
  | _ => 0

/-- The length of a sign and digits at the start of a text; zero if there are no digits. -/
def signedLength : Text → Nat
  | [] => 0
  | b :: rest =>
    if b = 43 || b = 45 then
      match (rest.takeWhile Text.isDigit).length with
      | 0 => 0
      | n => n + 1
    else ((b :: rest).takeWhile Text.isDigit).length

/-- The length of an exponent part at the start of a text; zero if there is none. -/
def exponentLength : Text → Nat
  | [] => 0
  | b :: rest =>
    if b = 101 || b = 69 then
      match signedLength rest with
      | 0 => 0
      | n => n + 1
    else 0

/-- A number at the start of a text: digits, an optional fraction, an optional exponent. A whole number
that is too large is no integer literal. -/
def matchNumber (t : Text) : Match :=
  let whole := (t.takeWhile Text.isDigit).length
  let fraction := fractionLength (t.drop whole)
  let exponent := exponentLength (t.drop (whole + fraction))
  let length := whole + fraction + exponent
  let text := t.take length
  if fraction + exponent = 0 then
    let value := Text.digitsValue text
    if value ≤ maxInteger then
      { token := .integerLiteral, text, length, value := some (.integer (Int64.ofNat value)) }
    else { token := .unknown, text, length }
  else { token := .realLiteral, text, length, value := some (.real (Binary64.ofLiteral text)) }

def matchWord (t : Text) : Match :=
  let word := t.takeWhile fun b => Text.isLetter b || Text.isDigit b
  let text := word.map Text.toLower
  { token := Token.ofWord text, text, length := word.length }

/-- The inside of a string up to its closing quote: whether there is one before the end of the line, the
contents with doubled quotes taken as one, and the number of bytes. -/
def stringContents : Text → Bool × Text × Nat
  | [] => (false, [], 0)
  | 39 :: 39 :: rest =>
    let (closed, contents, n) := stringContents rest
    (closed, 39 :: contents, n + 2)
  | b :: rest =>
    if b = 39 then (true, [], 1)
    else if b = 10 then (false, [], 0)
    else
      let (closed, contents, n) := stringContents rest
      (closed, b :: contents, n + 1)

/-- A string after its opening quote. One that is not closed on its line is no string literal. -/
def matchString (rest : Text) : Match :=
  let (closed, text, n) := stringContents rest
  { token := if closed then .stringLiteral else .unknown, text, length := n + 1 }

/-- The encoding of the character whose number is a byte. -/
def encodeByte (b : UInt8) : Text :=
  if b < 128 then [b] else [192 + b / 64, 128 + b % 64]

/-- An operator or a mark of punctuation, of two characters where that is possible. -/
def matchSymbol (b : UInt8) (rest : Text) : Match :=
  let next := rest.head?
  match Char.ofNat b.toNat with
  | '+' => { token := .plus }
  | '-' => { token := .minus }
  | '*' => { token := .star }
  | '/' => { token := .slash }
  | '=' => { token := .equal }
  | '(' => { token := .leftParen }
  | ')' => { token := .rightParen }
  | '[' => { token := .leftBracket }
  | ']' => { token := .rightBracket }
  | ',' => { token := .comma }
  | ';' => { token := .semicolon }
  | '^' => { token := .caret }
  | ':' => if next = some 61 then { token := .becomes, length := 2 } else { token := .colon }
  | '.' => if next = some 46 then { token := .range, length := 2 } else { token := .period }
  | '>' => if next = some 61 then { token := .greaterEqual, length := 2 } else { token := .greater }
  | '<' =>
    if next = some 62 then { token := .notEqual, length := 2 }
    else if next = some 61 then { token := .lessEqual, length := 2 }
    else { token := .less }
  | _ => { token := .unknown, text := encodeByte b }

/-- The lexeme that starts with a given byte, no blank and no opening of a comment. -/
def matchAt (b : UInt8) (rest : Text) : Match :=
  if Text.isLetter b then matchWord (b :: rest)
  else if Text.isDigit b then matchNumber (b :: rest)
  else if b = 39 then matchString rest
  else matchSymbol b rest

end Lexeme

namespace Cursor

/-- Drop blanks and comments, starting inside a comment or outside. The flag tells whether the text ends
inside a comment. -/
def skip (inComment : Bool) : Text → Nat → Nat → Bool × Cursor
  | [], pos, line => (inComment, ⟨[], pos, line⟩)
  | b :: rest, pos, line =>
    let line' := if b = 10 then line + 1 else line
    if inComment then skip (b ≠ 125) rest (pos + 1) line'
    else if b = 123 then skip true rest (pos + 1) line'
    else if Text.isBlank b then skip false rest (pos + 1) line'
    else (false, ⟨b :: rest, pos, line⟩)

/-- The next lexeme and the place after it. At the end it is the end of the file, again and again. A
comment that is never closed is placed at the last byte of the source. -/
def next (c : Cursor) : Lexeme × Cursor :=
  let (unclosed, c) := skip false c.rest c.pos c.line
  if unclosed then ({ token := .unclosedComment, pos := c.pos - 1, line := c.line }, c)
  else match c.rest with
    | [] => ({ token := .endOfFile, pos := c.pos, line := c.line }, c)
    | b :: rest =>
      let m := Lexeme.matchAt b rest
      ({ token := m.token, text := m.text, pos := c.pos, line := c.line, value := m.value },
        { c with rest := c.rest.drop m.length, pos := c.pos + m.length })

/-- The lexemes from a place on, at most a given number before the end of the file. -/
def lexemes : Nat → Cursor → List Lexeme
  | 0, c => [c.next.1]
  | fuel + 1, c =>
    let (lexeme, c) := c.next
    if lexeme.token = .endOfFile then [lexeme] else lexeme :: lexemes fuel c

end Cursor

namespace Lexeme

/-- All lexemes of a source, the end of the file last. Every other lexeme takes at least one byte, so
there are no more of them than bytes. -/
def scan (source : Text) : List Lexeme := Cursor.lexemes source.length { rest := source }

end Lexeme

end MiniPascal
