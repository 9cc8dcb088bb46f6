import MiniPascal.Parser.Block
import MiniPascal.Tree.Emitter

/-!
# Compilation

A source is analysed as a whole, and the code of its tree is written in one pass. If nothing is wrong with
the source, the code is its program.
-/

namespace MiniPascal

/-- The result of a compilation: a program, or what is wrong; and the warnings in either case. A
compilation that breaks down has neither a program nor anything that is wrong. -/
structure Compilation where
  result : Except (List Diagnostic) Program
  warnings : List Warning

/-- The tree of a source and the state after its analysis. -/
def analyse (source : Text) : ProgramTree × Parser.State :=
  Parser.program.run (Parser.State.ofSource source)

/-- The program of finished code. -/
def Emitter.program (e : Emitter) (name source : Text) : Program :=
  { name
    source
    code := e.code.map fun x => x.instr
    lines := e.code.map fun x => (x.line : Int) }

/-- Compile a source. The emission may not break down, and a program may not have open targets. -/
def compile (source : Text) : Compilation :=
  let (tree, s) := analyse source
  { result :=
      match tree.emit? with
      | some e =>
        if !s.diagnostics.isEmpty then .error s.diagnostics
        else if e.pending.size = 0 then .ok (e.program tree.name source)
        else .error []
      | none => .error []
    warnings := s.warnings }

end MiniPascal
