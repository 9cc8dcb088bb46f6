import MiniPascal.Text

/-!
# Data

A datum is what one word of the machine holds: a scalar tagged with its kind. Integers and addresses
are 64-bit words; the arithmetic of the language keeps integers in 32 bits.
-/

namespace MiniPascal

inductive Datum.Kind where
  | integer
  | boolean
  | character
  | real
  | address
deriving DecidableEq, Repr

/-- A tagged scalar. -/
inductive Datum where
  | integer (value : Int64)
  | boolean (value : Bool)
  | character (value : UInt8)
  | real (value : Float)
  | address (value : Int64)
deriving DecidableEq, Repr

/-- Why an operation on data has no result. -/
inductive Datum.Error where
  | badKind
  | divideByZero
deriving DecidableEq, Repr

namespace Datum

/-- Memory starts out as integer zero everywhere. -/
instance : Inhabited Datum := ⟨.integer 0⟩

/-- The kinds in the order of their numbers. -/
def Kind.all : List Kind := [.integer, .boolean, .character, .real, .address]

def Kind.name : Kind → Text
  | .integer => Text.ofString "Integer"
  | .boolean => Text.ofString "Boolean"
  | .character => Text.ofString "Character"
  | .real => Text.ofString "Real"
  | .address => Text.ofString "Address"

/-- The name of the kind with a given number, also for numbers that no kind has. -/
def Kind.nameOf (number : Nat) : Text :=
  match Kind.all[number]? with
  | some k => k.name
  | none => Text.ofString "Kind(" ++ Text.ofNat number ++ Text.ofString ")"

def Error.message : Error → Text
  | .badKind => Text.ofString "bad data type"
  | .divideByZero => Text.ofString "divide by zero"

def kind : Datum → Kind
  | .integer _ => .integer
  | .boolean _ => .boolean
  | .character _ => .character
  | .real _ => .real
  | .address _ => .address

/-- Reduce a word to a signed 32-bit number. -/
def wrap32 (v : Int64) : Int64 := v.toInt32.toInt64

/-- An integer result of arithmetic. -/
def wrapped (v : Int64) : Datum := .integer (wrap32 v)

/-- Integers and reals are numbers. -/
def isNumeric : Datum → Bool
  | .integer _ | .real _ => true
  | _ => false

def integer? : Datum → Option Int64
  | .integer v => some v
  | _ => none

def boolean? : Datum → Option Bool
  | .boolean b => some b
  | _ => none

def character? : Datum → Option UInt8
  | .character c => some c
  | _ => none

def real? : Datum → Option Float
  | .real x => some x
  | _ => none

def address? : Datum → Option Int64
  | .address a => some a
  | _ => none

/-- The value of a number as a real; an integer is widened. -/
def widen? : Datum → Option Float
  | .integer v => some v.toFloat
  | .real x => some x
  | _ => none

def ordOfBool (b : Bool) : Int64 := if b then 1 else 0

/-- The ordinal number of an integer, boolean or character. -/
def ordinal? : Datum → Option Int64
  | .integer v => some v
  | .boolean b => some (ordOfBool b)
  | .character c => some (Int64.ofNat c.toNat)
  | _ => none

/-- Zero of its kind: a number that is zero, `false`, the character of number zero, or the nil address. -/
def isZero : Datum → Bool
  | .integer v => v == 0
  | .boolean b => !b
  | .character c => c == 0
  | .real x => x == 0
  | .address a => a == 0

end Datum

end MiniPascal
