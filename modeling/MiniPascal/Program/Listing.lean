import MiniPascal.Program.Basic

/-!
# Listings

A listing shows every source line followed by the code that comes from it. Code whose line is not in
the source stands at the end under a heading of its own.
-/

namespace MiniPascal

/-- Why there is no listing. -/
inductive ListingError where
  | lineTableMismatch (lines instructions : Nat)
  | unsupportedType (name : Text)
deriving DecidableEq, Repr

namespace ListingError

def message : ListingError → Text
  | .lineTableMismatch lines instructions =>
    Text.ofString "line table mismatch: " ++ Text.ofNat lines ++ Text.ofString " lines for " ++
      Text.ofNat instructions ++ Text.ofString " instructions"
  | .unsupportedType name => Text.ofString "unsupported type: " ++ name

end ListingError

namespace Program

/-- The lines of a source, without an empty piece after the last newline. -/
def sourceLines (source : Text) : List Text :=
  let pieces := source.splitLines
  if pieces.getLast? = some [] then pieces.dropLast else pieces

/-- The instructions with their addresses and lines. -/
def located (p : Program) : List (Int × Nat × Instr) := p.lines.toList.zip p.numbered

/-- Instructions below a heading, each indented by a tab. -/
def codeSection (code : List (Int × Nat × Instr)) : Text :=
  code.flatMap fun (_, a, x) => Text.byte '\t' :: x.disassemble a

/-- The heading of a source line: the name, the number and the text without carriage returns at its
end. -/
def heading (p : Program) (number : Nat) (line : Text) : Text :=
  p.name ++ Text.ofString ":" ++ Text.ofNat number ++ Text.ofString ": " ++
    line.trimRight (· = 13) ++ Text.newline

/-- The source lines from a number on, each with its code. -/
def listFrom (p : Program) : Nat → List Text → Text
  | _, [] => []
  | number, line :: rest =>
    p.heading number line ++ codeSection (p.located.filter fun (l, _, _) => l = number) ++
      p.listFrom (number + 1) rest

/-- The code whose line is none of the first so many lines. -/
def strays (p : Program) (count : Nat) : List (Int × Nat × Instr) :=
  p.located.filter fun (l, _, _) => l < 1 || (count : Int) < l

def listing (p : Program) : Except ListingError Text :=
  if p.lines.size ≠ p.code.size then
    .error (.lineTableMismatch p.lines.size p.code.size)
  else
    let lines := sourceLines p.source
    let strays := p.strays lines.length
    let tail := if strays.isEmpty then [] else
      p.name ++ Text.ofString ": ?" ++ Text.newline ++ codeSection strays
    .ok (p.listFrom 1 lines ++ tail)

end Program

/-- What can be given to be listed; of anything else only the name of its type is known. -/
inductive Listable where
  | program (p : Program)
  | instr (x : Instr)
  | other (typeName : Text)

namespace Listable

/-- The listing of an item, appended to a text. -/
def render (before : Text) : Listable → Except ListingError Text
  | .program p => p.listing.map (before ++ ·)
  | .instr x => .ok (before ++ x.text ++ Text.newline)
  | .other typeName => .error (.unsupportedType typeName)

end Listable

end MiniPascal
