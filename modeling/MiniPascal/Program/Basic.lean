import MiniPascal.Instr

/-!
# Programs

Compiled code together with the source and, for every instruction, the source line that it comes from.
-/

namespace MiniPascal

/-- Compiled code ready to run. -/
structure Program where
  name : Text := []
  source : Text := []
  code : Array Instr := #[]
  lines : Array Int := #[]
deriving DecidableEq, Repr

namespace Program

def here (p : Program) : Nat := p.code.size

/-- Append an instruction that comes from a line. -/
def emit (p : Program) (line : Int) (x : Instr) : Program :=
  { p with code := p.code.push x, lines := p.lines.push line }

def last? (p : Program) : Option Instr := p.code.back?

/-- Remove the last instruction, if there is one. -/
def drop? (p : Program) : Option Program :=
  if p.code.isEmpty then none else some { p with code := p.code.pop, lines := p.lines.pop }

/-- Instructions with their addresses, counted from a given one. -/
def numberFrom : Nat → List Instr → List (Nat × Instr)
  | _, [] => []
  | a, x :: rest => (a, x) :: numberFrom (a + 1) rest

/-- The instructions with their addresses. -/
def numbered (p : Program) : List (Nat × Instr) := numberFrom 0 p.code.toList

/-- One line of text for every instruction. -/
def disassembly (p : Program) : Text := p.numbered.flatMap fun (a, x) => x.disassemble a

end Program

end MiniPascal
