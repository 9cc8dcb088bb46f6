import MiniPascal.Parser.Expression

/-!
# Statements

The analysis of statements. A lexeme that starts no statement stands after an empty one.
-/

namespace MiniPascal.Parser

/-- The sign of an assignment. An equals sign in its place is reported and taken. -/
def becomes : Parser Unit := do
  if (← token) = .equal then
    report .equalForBecomes
    advance
  else expect .becomes

/-- The assignment of a value to a place, as a whole if it has many words. -/
def assignment (place : Place) (value : Operand) : Parser Stmt := do
  let ts ← types
  if ts.isAggregate place.type then
    if ts.same place.type value.type then
      return .assignWhole place.designator value.expr (ts.size place.type) (← line)
    else
      report (.typeMismatch (ts.text place.type) (ts.text value.type))
      return .abandoned place.designator value.expr
  else
    let conversion ← convert place.type value.type
    return .assign place.designator value.expr conversion (← line)

/-- A statement that starts with the name of a function: inside the function an assignment of its
result. -/
def resultStatement (e : Scope.Entry Declaration) (r : Routine) : Parser Stmt := do
  let s ← get
  if s.current.token = .becomes && s.enclosing.contains r.id then
    let target := Designator.result (s.level - e.level - 1) s.line
    becomes
    let value ← expression
    let conversion ← convert (r.result.getD .integer) value.type
    return .assign target value.expr conversion (← line)
  else
    report (.functionAsStatement e.name)
    let (callee, args, line) ← callOf expression e r
    return .call callee args line

def namedStatement : Parser Stmt := do
  let e ← resolve
  match e.value with
  | .variable offset type =>
    let place ← designator expression (← variableAt e offset type)
    becomes
    let value ← expression
    assignment place value
  | .procedure r =>
    let (callee, args, line) ← callOf expression e r
    return .call callee args line
  | .function r => resultStatement e r
  | d =>
    report (.cannotAssign d.kind e.name)
    return .skip

/-- A condition, and the line of its test. -/
def condition : Parser (Expr × Nat) := do
  let operand ← expression
  require ((← types).rootKind operand.type = .boolean) .booleanExpected
  return (operand.expr, ← line)

/-- Up to a number of format arguments, each after a colon. -/
def formatArguments : Nat → Parser (List Expr)
  | 0 => pure []
  | n + 1 => do
    if (← token) = .colon then
      advance
      let width ← expression
      require ((← types).rootKind width.type = .integer) .widthNotInteger
      return width.expr :: (← formatArguments n)
    else return []

/-- One argument of a write statement. A string of any length but one is written character by
character. -/
def writeArgument (written : List Stmt) : Parser (List Stmt) := do
  let s ← get
  if s.current.token = .stringLiteral && s.current.text.length ≠ 1 then
    advance
    return written ++ [.writeText s.current.text s.line]
  else
    let value ← expression
    let ts ← types
    require (!ts.isAggregate value.type) (.cannotWrite (ts.text value.type))
    let format ← formatArguments 2
    return written ++ [.write value.expr format (← line)]

/-- The arguments of a write statement, in parentheses or left out. -/
def writeArguments : Parser (List Stmt) := do
  if (← token) = .leftParen then
    advance
    let written ← separated .comma writeArgument []
    expect .rightParen
    return written
  else return []

/-- A write statement after its word, with or without the end of the line. -/
def writeStatement (newline : Bool) : Parser Stmt := do
  advance
  let written ← writeArguments
  if newline then return .ofList (written ++ [.writeln (← line)])
  else return .ofList written

/-- The variable of a declaration; anything else is reported and replaced. -/
def variableOr (problem : Text → Problem) (e : Scope.Entry Declaration) : Parser Variable := do
  match e.value with
  | .variable offset type => variableAt e offset type
  | _ =>
    report (problem e.name)
    variableAt placeholder 0 .integer

/-- Allocate or release what the pointer at a place points to. -/
def heapOperation (allocates : Bool) (place : Place) : Parser Stmt := do
  let ts ← types
  let d := ts.get place.type
  match d.kind, d.base with
  | .pointer, some base =>
    if allocates then return .new place.designator (ts.size base) (← line)
    else return .dispose place.designator (← line)
  | _, _ =>
    report .pointerVariableExpected
    return .abandoned place.designator .absent

/-- Allocate or release what a pointer points to. -/
def heapStatement (allocates : Bool) : Parser Stmt := do
  advance
  expect .leftParen
  if (← token) = .identifier then
    let e ← resolve
    let v ← variableOr .notAVariable e
    let place ← designator expression v
    let statement ← heapOperation allocates place
    expect .rightParen
    return statement
  else
    report .pointerVariableExpected
    return .skip

/-- The control variable of a loop; it has to be ordinal. -/
def controlVariable (e : Scope.Entry Declaration) : Parser Variable := do
  let ts ← types
  match e.value with
  | .variable offset type =>
    if ts.isOrdinal type then variableAt e offset type
    else
      report (.notAnOrdinalVariable e.name)
      variableAt placeholder 0 .integer
  | _ =>
    report (.notAnOrdinalVariable e.name)
    variableAt placeholder 0 .integer

/-- The direction of a loop: whether it counts downward. -/
def direction : Parser Bool := do
  match ← token with
  | .kwTo =>
    advance
    return false
  | .kwDownto =>
    advance
    return true
  | _ =>
    report .directionExpected
    advance
    return false

section

variable (statement : Parser Stmt)

def ifStatement : Parser Stmt := do
  advance
  let (test, testLine) ← condition
  expect .kwThen
  let body ← statement
  if (← token) = .kwElse then
    advance
    let elseLine ← line
    let alternative ← statement
    return .ifElse test testLine body elseLine alternative
  else return .ifThen test testLine body

/-- A loop with its condition in front. -/
def whileStatement : Parser Stmt := do
  advance
  let (test, testLine) ← condition
  expect .kwDo
  let body ← statement
  return .whileDo test testLine body (← line)

/-- A loop with its condition at the end. -/
def repeatStatement : Parser Stmt := do
  advance
  let body ← separated .semicolon (fun body => return body ++ [← statement]) []
  expect .kwUntil
  let (test, testLine) ← condition
  return .repeatUntil (.ofList body) test testLine

def forStatement : Parser Stmt := do
  advance
  if (← token) = .identifier then
    let v ← controlVariable (← resolve)
    let controlLine ← line
    becomes
    let start ← expression
    let conversion ← convert v.type start.type
    let startLine ← line
    let downward ← direction
    let limit ← expression
    require ((← types).same v.type limit.type) .limitMismatch
    let limitLine ← line
    expect .kwDo
    let body ← statement
    return .forLoop v controlLine start.expr conversion startLine downward limit.expr limitLine body
      (← line)
  else
    report .controlVariableExpected
    return .skip

def startsStatement : Token → Bool
  | .identifier | .kwBegin | .kwIf | .kwWhile | .kwRepeat | .kwFor | .kwWrite | .kwWriteln | .kwNew
  | .kwDispose => true
  | _ => false

/-- What follows a statement of a sequence. After a statement that is not closed properly the sequence
goes on with the next one. -/
def sequenceEnd (body : List Stmt) : Parser (Bool × List Stmt) := do
  match ← token with
  | .semicolon =>
    advance
    return (true, body)
  | .kwEnd =>
    advance
    return (false, body)
  | t =>
    report .semicolonOrEndExpected
    if t = .endOfFile then return (false, body)
    else
      advanceIf (!startsStatement t)
      return (true, body)

def sequenceStep (body : List Stmt) : Parser (Bool × List Stmt) := do
  sequenceEnd (body ++ [← statement])

/-- A sequence of statements between `begin` and `end`. -/
def compound : Parser Stmt := do
  expect .kwBegin
  return .ofList (← loop (sequenceStep statement) [])

/-- A statement whose parts are analysed by `statement`. -/
def statementOf : Parser Stmt := do
  match ← token with
  | .identifier => namedStatement
  | .kwBegin => compound statement
  | .kwIf => ifStatement statement
  | .kwWhile => whileStatement statement
  | .kwRepeat => repeatStatement statement
  | .kwFor => forStatement statement
  | .kwWrite => writeStatement false
  | .kwWriteln => writeStatement true
  | .kwNew => heapStatement true
  | .kwDispose => heapStatement false
  | _ => return .skip

end

/-- A statement with at most a number of statements around each other inside it. -/
def statementWithin : Nat → Parser Stmt
  | 0 => fun s => (.skip, s.exhaust)
  | n + 1 => fun s => statementOf (statementWithin n) s

/-- The statements of a block. -/
def body : Parser Stmt := fun s => compound (statementWithin s.fuel) s

end MiniPascal.Parser
