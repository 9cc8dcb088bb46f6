import MiniPascal.Lexeme
import MiniPascal.Parser.Diagnostic

/-!
# The state of the analysis

The analysis reads lexemes one after the other, with the current one in view. It keeps the types and the
names declared so far, and collects diagnostics. At most one diagnostic is recorded for a lexeme: the
first one hides those that follow from it.
-/

namespace MiniPascal

/-- A pointer type whose base is to be declared later in its type section, at the place of the name. -/
structure Forward where
  name : Text
  type : TypeId
  pos : Nat
  line : Nat
deriving DecidableEq, Repr

/-- The state of the analysis of a source. -/
structure Parser.State where
  /-- The lexeme in view. -/
  current : Lexeme
  /-- The lexemes after it. -/
  rest : List Lexeme := []
  /-- The line of the lexeme that was taken last. -/
  line : Nat := 0
  /-- The types of the program. -/
  types : TypeTable := .builtins
  /-- The declared names. -/
  scope : Scope Declaration := Declaration.builtins
  /-- The nesting level of the current block. -/
  level : Int := 0
  /-- The subprograms around the current place, innermost first. -/
  enclosing : List RoutineId := []
  /-- The pointers of the current type section that have no base yet. -/
  forward : List Forward := []
  /-- The number of subprograms met so far. -/
  routines : Nat := 0
  /-- The place of the diagnostic recorded last, pointer bases apart. -/
  lastError : Option Nat := none
  /-- The diagnostics in order. -/
  diagnostics : List Diagnostic := []
  /-- The warnings in order. -/
  warnings : List Warning := []
  /-- Whether a repetition or a nesting was broken off at its bound. -/
  exhausted : Bool := false
deriving DecidableEq, Repr

/-- A part of the analysis. -/
abbrev Parser (α : Type) := StateM Parser.State α

namespace Parser

namespace State

/-- Record a problem at the current lexeme, unless one was recorded there already. -/
def report (p : Problem) (s : State) : State :=
  if s.lastError = some s.current.pos then s
  else
    { s with
      lastError := some s.current.pos
      diagnostics := s.diagnostics ++ [⟨s.current.pos, s.current.line, p⟩] }

/-- Bring the first of some lexemes into view that belongs to the language, and report the others. -/
def view : List Lexeme → State → State
  | [], s => s
  | l :: rest, s =>
    let s := { s with current := l, rest }
    match l.token with
    | .unknown => view rest { s.report (.unexpected l.text) with line := l.line }
    | .unclosedComment => view rest { s.report .unterminatedComment with line := l.line }
    | _ => s

/-- Take the current lexeme and bring the next one into view. The end of the file stays in view. -/
def next (s : State) : State := view s.rest { s with line := s.current.line }

/-- A bound on the lexemes left, the current one included. -/
def fuel (s : State) : Nat := s.rest.length + 1

/-- Note that a bound was met. -/
def exhaust (s : State) : State := { s with exhausted := true }

/-- The start of the analysis of a source. -/
def ofSource (source : Text) : State :=
  view (Lexeme.scan source) { current := { token := .endOfFile, pos := 0, line := 0 } }

end State

def token : Parser Token := return (← get).current.token

def text : Parser Text := return (← get).current.text

/-- The line to which instructions are attributed at present. -/
def line : Parser Nat := return (← get).line

/-- The types declared so far. -/
def types : Parser TypeTable := return (← get).types

/-- The nesting level of the current block. -/
def level : Parser Int := return (← get).level

def advance : Parser Unit := modify State.next

/-- Record a problem at the current lexeme. -/
def report (p : Problem) : Parser Unit := modify (State.report p)

/-- Record a problem unless a condition holds. -/
def require (condition : Bool) (p : Problem) : Parser Unit := if condition then pure () else report p

/-- Record a concern at the current lexeme. -/
def warn (c : Concern) : Parser Unit :=
  modify fun s => { s with warnings := s.warnings ++ [⟨s.current.line, c⟩] }

/-- Record a concern if a condition holds. -/
def warnIf (condition : Bool) (c : Concern) : Parser Unit := if condition then warn c else pure ()

/-- Take a given token; if another one is in view, report that and stay. -/
def expect (t : Token) : Parser Unit := do
  if (← token) = t then advance else report (.expected t)

def advanceIf (condition : Bool) : Parser Unit := if condition then advance else pure ()

/-- Enter a type under the next free number. -/
def addType (d : TypeDesc) : Parser TypeId :=
  modifyGet fun s =>
    let (t, types) := s.types.add d
    (t, { s with types })

/-- Declare a name at a level, and tell whether that was possible. -/
def declareAt (level : Int) (name : Text) (value : Declaration) : Parser Bool := do
  let s ← get
  match s.scope.insert { name, level, value } with
  | .ok scope =>
    set { s with scope }
    return true
  | .error e =>
    report (.naming e)
    return false

def declare (name : Text) (value : Declaration) : Parser Unit := do
  let _ ← declareAt (← level) name value

/-- Repeat a step, which yields what it has got and whether to go on. Steps that go on take a lexeme, so
the lexemes left bound their number. -/
def repeatFor {σ : Type} (step : σ → Parser (Bool × σ)) : Nat → σ → Parser σ
  | 0, x => fun s => (x, s.exhaust)
  | n + 1, x => do
    let (more, x) ← step x
    if more then repeatFor step n x else pure x

/-- Repeat a step until it does not go on. -/
def loop {σ : Type} (step : σ → Parser (Bool × σ)) (x : σ) : Parser σ := do
  repeatFor step (← get).fuel x

/-- Repeat a step as long as a separator follows. -/
def separated {σ : Type} (separator : Token) (item : σ → Parser σ) (x : σ) : Parser σ :=
  loop (fun x => do
    let x ← item x
    if (← token) = separator then
      advance
      return (true, x)
    else return (false, x)) x

def missingName : Text := Text.ofChars ['?']

def identifier : Parser Text := do
  if (← token) = .identifier then
    let name ← text
    advance
    return name
  else
    report .identifierExpected
    return missingName

/-- Identifiers with commas between them. -/
def identifiers : Parser (List Text) :=
  separated .comma (fun names => return names ++ [← identifier]) []

/-- What an undefined name is taken for. -/
def placeholder : Scope.Entry Declaration := ⟨missingName, 0, .variable 0 .integer⟩

/-- Take the current identifier and find its declaration. An undefined name is reported. -/
def resolve : Parser (Scope.Entry Declaration) := do
  let s ← get
  match s.scope.lookup s.current.text with
  | .ok e =>
    advance
    return e
  | .error e =>
    report (.naming e)
    advance
    return placeholder

end Parser

end MiniPascal
