import MiniPascal.Parser.Statement

/-!
# Declarations and blocks

The analysis of constants, types, variables, subprograms, blocks and of the whole program.
-/

namespace MiniPascal

def Blocks.append : Blocks → Blocks → Blocks
  | .nil, more => more
  | .cons info inner body rest, more => .cons info inner body (rest.append more)

namespace Parser

/-- A constant without a sign, if there is one. -/
def unsignedConstant : Parser (Option (Datum × TypeId)) := do
  let lexeme := (← get).current
  match lexeme.token with
  | .integerLiteral =>
    advance
    return some (lexeme.value.getD (.integer 0), .integer)
  | .realLiteral =>
    advance
    return some (lexeme.value.getD (.real 0), .real)
  | .stringLiteral =>
    require (lexeme.text.length = 1) .characterConstantExpected
    advance
    return some (.character (lexeme.text.headD 0), .char)
  | .identifier =>
    let e ← resolve
    match e.value with
    | .constant value type => return some (value, type)
    | _ =>
      report (.notAConstant e.name)
      return none
  | _ =>
    report .constantExpected
    return none

/-- A constant with its sign changed. -/
def negated (value : Datum) (type : TypeId) : Parser (Datum × TypeId) := do
  match (← types).rootKind type with
  | .integer => return (.integer (-(value.integer?.getD 0)), type)
  | .real => return (.real (-(value.real?.getD 0)), type)
  | _ =>
    report .signOnConstant
    return (value, type)

/-- An optional sign: whether it is there, and whether it negates. -/
def sign : Parser (Option Bool) := do
  let sign := sign? (← token)
  advanceIf sign.isSome
  return sign

def constant : Parser (Datum × TypeId) := do
  let sign ← sign
  match ← unsignedConstant with
  | some (value, type) => if sign = some true then negated value type else return (value, type)
  | none => return (.integer 0, .integer)

def typeIdentifier : Parser TypeId := do
  if (← token) = .identifier then
    let e ← resolve
    match e.value with
    | .typeName type => return type
    | _ =>
      report (.notAType e.name)
      return .integer
  else
    report .typeIdentifierExpected
    return .integer

/-- Declare the values of an enumeration, counted from a number. -/
def declareValues (type : TypeId) : Nat → List Text → Parser Unit
  | _, [] => pure ()
  | n, name :: rest => do
    declare name (.constant (.integer (Int64.ofNat n)) type)
    declareValues type (n + 1) rest

def enumeration : Parser TypeId := do
  advance
  let names ← identifiers
  expect .rightParen
  let type ← addType (.enumeration [] (Int64.ofNat names.length))
  declareValues type 0 names
  return type

/-- A subrange between two constants. -/
def subrange : Parser TypeId := do
  let (lower, lowerType) ← constant
  expect .range
  let (upper, upperType) ← constant
  let ts ← types
  if ts.isOrdinal lowerType && ts.same lowerType upperType then
    match ts.subrange? lowerType (lower.ordinal?.getD 0) (upper.ordinal?.getD 0) with
    | .ok d => addType d
    | .error e =>
      report (.typing e)
      return .integer
  else
    report .subrangeBounds
    return .integer

/-- Arrays over index types, the last one given first. -/
def arrayOver (element : TypeId) : List TypeId → Parser TypeId
  | [] => return element
  | index :: rest => do
    match (← types).array? index element with
    | .ok d => arrayOver (← addType d) rest
    | .error e =>
      report (.typing e)
      return .integer

/-- What follows the caret of a pointer. Inside a type section its base may be declared later. -/
def pointerTo (inSection : Bool) : Parser TypeId := do
  let s ← get
  if s.current.token = .identifier then
    match s.scope.lookup? s.current.text with
    | some e =>
      advance
      match e.value with
      | .typeName type => addType (.pointer (some type))
      | _ =>
        report (.notAType e.name)
        addType (.pointer (some .integer))
    | none =>
      if inSection then
        let type ← addType (.pointer none)
        let pending : Forward := ⟨s.current.text, type, s.current.pos, s.current.line⟩
        modify fun s => { s with forward := s.forward ++ [pending] }
        advance
        return type
      else
        let _ ← resolve
        addType (.pointer (some .integer))
  else
    report .typeIdentifierExpected
    addType (.pointer (some .integer))

def pointerType (inSection : Bool) : Parser TypeId := do
  advance
  pointerTo inSection

def addFields (type : TypeId) : List (Text × TypeId) → List Text → Parser (List (Text × TypeId))
  | fields, [] => return fields
  | fields, name :: rest => do
    require (fields.all fun f => f.1 ≠ name) (.duplicateField name)
    addFields type (fields ++ [(name, type)]) rest

section

variable (typeSpec : Bool → Parser TypeId)

def arrayType (inSection : Bool) : Parser TypeId := do
  advance
  expect .leftBracket
  let indices ← separated .comma (fun indices => return indices ++ [← typeSpec false]) []
  expect .rightBracket
  expect .kwOf
  let element ← typeSpec inSection
  arrayOver element indices.reverse

/-- Fields of one type, if there are any, and what follows them. -/
def fieldGroup (inSection : Bool) (fields : List (Text × TypeId)) :
    Parser (Bool × List (Text × TypeId)) := do
  if (← token) = .identifier then
    let names ← identifiers
    expect .colon
    let type ← typeSpec inSection
    let fields ← addFields type fields names
    if (← token) = .semicolon then
      advance
      return (true, fields)
    else return (false, fields)
  else return (false, fields)

def recordType (inSection : Bool) : Parser TypeId := do
  advance
  let fields ← loop (fieldGroup typeSpec inSection) []
  expect .kwEnd
  if fields.isEmpty then
    report .emptyRecord
    return .integer
  else addType ((← types).record fields)

/-- A type whose parts are analysed by `typeSpec`; the flag tells whether it stands in a type section. -/
def typeSpecOf (inSection : Bool) : Parser TypeId := do
  let s ← get
  match s.current.token with
  | .identifier =>
    match s.scope.lookup? s.current.text with
    | some ⟨_, _, .constant ..⟩ => subrange
    | _ => typeIdentifier
  | .leftParen => enumeration
  | .integerLiteral | .plus | .minus | .stringLiteral => subrange
  | .kwArray => arrayType typeSpec inSection
  | .kwRecord => recordType typeSpec inSection
  | .caret => pointerType inSection
  | _ =>
    report .typeExpected
    return .integer

end

/-- A type with at most a number of types around each other inside it. -/
def typeSpecWithin : Nat → Bool → Parser TypeId
  | 0 => fun _ s => (.integer, s.exhaust)
  | n + 1 => fun inSection s => typeSpecOf (typeSpecWithin n) inSection s

def typeSpec (inSection : Bool) : Parser TypeId := fun s => typeSpecWithin s.fuel inSection s

/-- Entries of a section, as long as identifiers follow. -/
def entries {σ : Type} (entry : σ → Parser σ) (x : σ) : Parser σ :=
  loop (fun x => do
    if (← token) = .identifier then return (true, ← entry x) else return (false, x)) x

def constantSection : Parser Unit := do
  advance
  entries (fun _ => do
    let name ← identifier
    expect .equal
    let (value, type) ← constant
    declare name (.constant value type)
    expect .semicolon) ()

def nameType (type : TypeId) (name : Text) : Parser Unit :=
  modify fun s =>
    if (s.types.get type).name.isEmpty then { s with types := s.types.setName type name } else s

/-- Give a pointer the type that its name stands for by now. -/
def settle (f : Forward) : Parser Unit :=
  modify fun s =>
    match s.scope.lookup? f.name with
    | some ⟨_, _, .typeName type⟩ => { s with types := s.types.setBase f.type (some type) }
    | _ =>
      { s with
        types := s.types.setBase f.type (some .integer)
        diagnostics := s.diagnostics ++ [⟨f.pos, f.line, .undefinedPointerBase f.name⟩] }

def settleAll : List Forward → Parser Unit
  | [] => pure ()
  | f :: rest => do
    settle f
    settleAll rest

def typeSection : Parser Unit := do
  advance
  modify fun s => { s with forward := [] }
  entries (fun _ => do
    let name ← identifier
    expect .equal
    let type ← typeSpec true
    nameType type name
    declare name (.typeName type)
    expect .semicolon) ()
  settleAll (← get).forward
  modify fun s => { s with forward := [] }

/-- The declarations of a block so far: its variables at their places and the words that they take, and
its inner blocks. -/
structure Declared where
  vars : List Field := []
  locals : Int64 := 0
  inner : Blocks := .nil

def declareVariables : List Field → Parser Unit
  | [] => pure ()
  | f :: rest => do
    declare f.name (.variable f.offset f.type)
    declareVariables rest

/-- Variables of one type, placed after those that a block has. -/
def variableGroup (d : Declared) : Parser Declared := do
  let names ← identifiers
  expect .colon
  let type ← typeSpec false
  let (fields, locals) := (← types).placeFields d.locals (names.map fun name => (name, type))
  declareVariables fields
  expect .semicolon
  return { d with vars := d.vars ++ fields, locals }

def variableSection (d : Declared) : Parser Declared := do
  advance
  entries variableGroup d

/-- Declare parameters of one type. Their offsets are known only when all parameters are. -/
def declareParameters (type : TypeId) : List Text → Parser Unit
  | [] => pure ()
  | name :: rest => do
    let _ ← declareAt ((← level) + 1) name (.variable 0 type)
    declareParameters type rest

/-- The parameters of a subprogram with their types, in parentheses or left out. -/
def parameters : Parser (List (Text × TypeId)) := do
  if (← token) = .leftParen then
    advance
    let params ← separated .semicolon (fun params => do
      let names ← identifiers
      expect .colon
      let type ← typeIdentifier
      declareParameters type names
      return params ++ names.map fun name => (name, type)) []
    expect .rightParen
    return params
  else return []

def parameterWords (ts : TypeTable) (params : List (Text × TypeId)) : Int64 := (ts.placeFields 0 params).2

def placeParameters : List Field → Parser Unit
  | [] => pure ()
  | f :: rest => do
    modify fun s =>
      { s with scope := s.scope.modify f.name (s.level + 1) (Declaration.atOffset f.offset) }
    placeParameters rest

def resultType : Parser TypeId := do
  expect .colon
  let type ← typeIdentifier
  require (!(← types).isAggregate type) .aggregateResult
  return type

def resultOf (function : Bool) : Parser (Option TypeId) :=
  if function then some <$> resultType else pure none

/-- The number of a new subprogram. -/
def freshRoutine : Parser RoutineId :=
  modifyGet fun s => (⟨s.routines⟩, { s with routines := s.routines + 1 })

/-- Complete the declaration of a subprogram, unless its name could not be declared. -/
def complete (declared : Bool) (name : Text) (d : Declaration) : Parser Unit :=
  if declared then modify fun s => { s with scope := s.scope.modify name s.level fun _ => d } else pure ()

/-- The heading of a procedure or a function. The parameters lie right below the frame, the last one next
to it. -/
def heading (function : Bool) : Parser Routine := do
  let name ← identifier
  let id ← freshRoutine
  let declared ← declareAt (← level) name (.ofRoutine function { id })
  let params ← parameters
  let ts ← types
  let paramSize := parameterWords ts params
  let params := (ts.placeFields (-paramSize) params).1
  placeParameters params
  let result ← resultOf function
  let routine : Routine := { id, params, paramSize, result }
  complete declared name (.ofRoutine function routine)
  expect .semicolon
  return routine

section

variable (block : Routine → Parser Blocks)

def subprogram (function : Bool) : Parser Blocks := do
  advance
  let routine ← heading function
  let blocks ← block routine
  expect .semicolon
  return blocks

def declaration (d : Declared) : Parser (Bool × Declared) := do
  match ← token with
  | .kwConst =>
    constantSection
    return (true, d)
  | .kwType =>
    typeSection
    return (true, d)
  | .kwVar => return (true, ← variableSection d)
  | .kwProcedure => return (true, { d with inner := d.inner.append (← subprogram block false) })
  | .kwFunction => return (true, { d with inner := d.inner.append (← subprogram block true) })
  | _ => return (false, d)

/-- Open the block of a subprogram, one level further in. -/
def openBlock (id : RoutineId) : Parser Unit :=
  modify fun s => { s with level := s.level + 1, enclosing := id :: s.enclosing }

/-- Close a block. The names of its level are dropped. -/
def closeBlock : Parser Unit :=
  modify fun s =>
    { s with
      scope := s.scope.purge s.level
      level := s.level - 1
      enclosing := s.enclosing.tail }

def blockOf (routine : Routine) : Parser Blocks := do
  openBlock routine.id
  let d ← loop (declaration block) {}
  let enterLine ← line
  let body ← body
  let exitLine ← line
  closeBlock
  let info : BlockInfo :=
    { routine, vars := d.vars, locals := d.locals, enterLine, exitLine }
  return .cons info d.inner body .nil

end

/-- A block with at most a number of blocks around each other inside it. -/
def blockWithin : Nat → Routine → Parser Blocks
  | 0 => fun _ s => (.nil, s.exhaust)
  | n + 1 => fun routine s => blockOf (blockWithin n) routine s

def block (routine : Routine) : Parser Blocks := fun s => blockWithin s.fuel routine s

def programParameters : Parser Unit := do
  if (← token) = .leftParen then
    advance
    let _ ← identifiers
    expect .rightParen
  else return ()

/-- The end of a program: a period, and nothing after it. -/
def ending : Parser Unit := do
  if (← token) = .period then
    advance
    require ((← token) = .endOfFile) .textAfterProgram
  else report (.expected .period)

def program : Parser ProgramTree := do
  expect .kwProgram
  let name ← identifier
  programParameters
  expect .semicolon
  let id ← freshRoutine
  let routine : Routine := { id }
  declare name (.procedure routine)
  let headingLine ← line
  let blocks ← block routine
  ending
  return { name, headingLine, main := id, blocks }

end Parser

end MiniPascal
