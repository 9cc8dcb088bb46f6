import MiniPascal.Parser.State
import MiniPascal.Tree.Selection

/-!
# Expressions

The analysis of expressions. Productions that contain whole expressions take the analysis of those as a
parameter; the knot is tied at the end, where every nesting takes at least one lexeme.
-/

namespace MiniPascal

/-- An expression with its type. -/
structure Operand where
  expr : Expr
  type : TypeId

/-- A designator with the type of the place. -/
structure Place where
  designator : Designator
  type : TypeId

/-- An argument of a call with its conversion and the line of the latter. -/
structure Argument where
  expr : Expr
  conversion : Conversion
  line : Nat

/-- The arguments of a call as a tree. -/
def Args.ofList : List Argument → Args
  | [] => .nil
  | a :: rest => .cons a.expr a.conversion a.line (ofList rest)

def Operator.problem : Operator → Problem
  | .add => .operandsNotNumbers .add
  | .sub => .operandsNotNumbers .sub
  | .mul => .operandsNotNumbers .mul
  | .divide => .operandsNotNumbers .divide
  | .and => .operandsNotLogical .and
  | .or => .operandsNotLogical .or
  | .xor => .operandsNotLogical .xor
  | op => .operandsNotIntegers op

namespace Parser

/-- What stands for a missing expression. -/
def noOperand : Operand := ⟨.absent, .integer⟩

def literal (value : Datum) (type : TypeId) : Parser Operand :=
  return ⟨.literal value type (← line), type⟩

/-- The conversion of a value to the type of its target. -/
def convert (target source : TypeId) : Parser Conversion := do
  let ts ← types
  match ts.convert target source with
  | .ok c =>
    warnIf c.narrows .realRounded
    return c
  | .error _ =>
    report (.typeMismatch (ts.text target) (ts.text source))
    return {}

/-- The variable of a declaration, as seen from the current block. -/
def variableAt (e : Scope.Entry Declaration) (offset : Int64) (type : TypeId) : Parser Variable :=
  return { hops := (← level) - e.level, offset, type }

section

variable (expression : Parser Operand)

def index (place : Place) : Parser Place := do
  let ts ← types
  let d := ts.get place.type
  if d.kind = .array then
    let indexType := d.index.getD .integer
    let element := d.base.getD .integer
    let i ← expression
    require (ts.same indexType i.type) (.indexMismatch (ts.text i.type) (ts.text indexType))
    return ⟨.element place.designator i.expr (ts.dimension place.type) (← line), element⟩
  else
    report (.notAnArray (ts.text place.type))
    let i ← expression
    return ⟨.surplus place.designator i.expr, place.type⟩

/-- The field of a record after its point. -/
def field (place : Place) : Parser Place := do
  let name ← identifier
  let ts ← types
  let d := ts.get place.type
  if d.kind = .record then
    match d.field? name with
    | some f => return ⟨.field place.designator f.offset (← line), f.type⟩
    | none =>
      report (.noField name (ts.text place.type))
      return place
  else
    report (.notARecord (ts.text place.type))
    return place

def pointee (place : Place) : Parser Place := do
  let ts ← types
  let d := ts.get place.type
  match d.kind, d.base with
  | .pointer, some base => return ⟨.pointee place.designator (← line), base⟩
  | _, _ =>
    report (.notAPointer (ts.text place.type))
    return place

def selector (place : Place) : Parser (Bool × Place) := do
  match ← token with
  | .leftBracket =>
    advance
    let place ← separated .comma (index expression) place
    expect .rightBracket
    return (true, place)
  | .period =>
    advance
    return (true, ← field place)
  | .caret =>
    advance
    return (true, ← pointee place)
  | _ => return (false, place)

def designator (v : Variable) : Parser Place := do
  loop (selector expression) ⟨.variable v (← line), v.type⟩

def passTo (param : TypeId) (arg : TypeId) : Parser Conversion := do
  let ts ← types
  if ts.isAggregate param then
    require (ts.same param arg) (.argumentMismatch (ts.text arg) (ts.text param))
    return {}
  else convert param arg

/-- How an argument is passed, which has a parameter unless there are too many. -/
def passed (param : Option Field) (arg : TypeId) : Parser Conversion :=
  match param with
  | some param => passTo param.type arg
  | none => pure {}

/-- One argument after some others. -/
def argument (params : List Field) (args : List Argument) : Parser (List Argument) := do
  let a ← expression
  let conversion ← passed params[args.length]? a.type
  return args ++ [⟨a.expr, conversion, ← line⟩]

/-- The arguments of a call, in parentheses or left out. -/
def arguments (params : List Field) : Parser (List Argument) := do
  if (← token) = .leftParen then
    advance
    let args ← separated .comma (argument expression params) []
    expect .rightParen
    return args
  else return []

/-- A call of a declared subprogram, and the line of the call. -/
def callOf (e : Scope.Entry Declaration) (r : Routine) : Parser (Callee × Args × Nat) := do
  let args ← arguments expression r.params
  require (args.length = r.params.length) (.argumentCount e.name r.params.length args.length)
  let callee : Callee := { routine := r.id, hops := (← level) - e.level, result := r.result }
  return (callee, .ofList args, ← line)

/-- A factor that starts with an identifier. -/
def namedFactor : Parser Operand := do
  let e ← resolve
  match e.value with
  | .constant value type => literal value type
  | .variable offset type =>
    let place ← designator expression (← variableAt e offset type)
    return ⟨.load place.designator ((← types).size place.type) (← line), place.type⟩
  | .function r =>
    let (callee, args, line) ← callOf expression e r
    return ⟨.call callee args line, r.result.getD .integer⟩
  | d =>
    report (.notAValue d.kind e.name)
    return noOperand

def applied (function : Builtin) (arg : Operand) : Parser Operand := do
  let ts ← types
  let line ← line
  let kind := ts.rootKind arg.type
  let value (type : TypeId) : Operand := ⟨.apply function arg.expr kind none line, type⟩
  match function with
  | .abs | .sqr =>
    require kind.isNumeric (.numberExpectedBy function)
    return value (ts.root arg.type)
  | .sin | .cos | .arctan | .exp | .ln | .sqrt =>
    require kind.isNumeric (.numberExpectedBy function)
    return value .real
  | .round | .trunc =>
    require kind.isNumeric (.numberExpectedBy function)
    return value .integer
  | .odd =>
    require (kind = .integer) (.integerExpectedBy function)
    return value .boolean
  | .pred | .succ =>
    if ts.isOrdinal arg.type then
      return ⟨.apply function arg.expr kind (ts.neighbourBounds arg.type) line, arg.type⟩
    else
      report (.ordinalExpectedBy function)
      return arg
  | .ord =>
    require (ts.isOrdinal arg.type) (.ordinalExpectedBy function)
    return value .integer
  | .chr =>
    require (kind = .integer) (.integerExpectedBy function)
    return value .char

/-- A factor; `inner` is the analysis of the operand of a negation. -/
def factor (inner : Parser Operand) : Parser Operand := do
  let lexeme := (← get).current
  match lexeme.token with
  | .integerLiteral =>
    let operand ← literal (lexeme.value.getD (.integer 0)) .integer
    advance
    return operand
  | .realLiteral =>
    let operand ← literal (lexeme.value.getD (.real 0)) .real
    advance
    return operand
  | .stringLiteral =>
    require (lexeme.text.length = 1) .stringOutsideWrite
    let operand ← literal (.character (lexeme.text.headD 0)) .char
    advance
    return operand
  | .kwNil =>
    let operand ← literal (.address 0) .nil
    advance
    return operand
  | .leftParen =>
    advance
    let operand ← expression
    expect .rightParen
    return operand
  | .kwNot =>
    advance
    let operand ← inner
    let ts ← types
    let type := ts.root operand.type
    require (ts.kind type = .boolean || ts.kind type = .integer) .complementOperand
    return ⟨.complement operand.expr (← line), type⟩
  | .identifier => namedFactor expression
  | .builtin function =>
    advance
    expect .leftParen
    let arg ← expression
    expect .rightParen
    applied function arg
  | _ =>
    report .expressionExpected
    return noOperand

end

/-- Two operands joined by an operator. -/
def combine (op : Operator) (left right : Operand) : Parser Operand := do
  let ts ← types
  let kinds : OperandKinds := ⟨ts.rootKind left.type, ts.rootKind right.type⟩
  require (op.select kinds).isSome op.problem
  return ⟨.binary op left.expr right.expr kinds (← line), op.resultType kinds⟩

/-- Further operands joined from left to right by operators of one precedence. -/
def joined (operator? : Token → Option Operator) (operand : Parser Operand) (first : Operand) :
    Parser Operand :=
  loop (fun left => do
    match operator? (← token) with
    | some op =>
      advance
      let right ← operand
      return (true, ← combine op left right)
    | none => return (false, left)) first

def term (factor : Parser Operand) : Parser Operand := do
  joined Operator.multiplicative? factor (← factor)

/-- The sign that a token stands for: whether it negates. -/
def sign? : Token → Option Bool
  | .plus => some false
  | .minus => some true
  | _ => none

def signedTerm (factor : Parser Operand) : Parser Operand := do
  match sign? (← token) with
  | some negative =>
    advance
    let operand ← term factor
    require ((← types).rootKind operand.type).isNumeric .signOnOperand
    return ⟨.sign negative operand.expr (← line), operand.type⟩
  | none => term factor

/-- Terms joined by adding operators, the first with an optional sign. -/
def simpleExpression (factor : Parser Operand) : Parser Operand := do
  joined Operator.additive? (term factor) (← signedTerm factor)

/-- Whether two types have values that can be compared. -/
def comparable (ts : TypeTable) (left right : TypeId) : Bool :=
  (ts.promote left right).isOk && !(ts.rootKind left = .pointer && !ts.same left right)

/-- The comparisons that pointers have. -/
def isEquality : Relation → Bool
  | .equal | .notEqual => true
  | _ => false

/-- An expression: one simple expression, or two that are compared. -/
def expressionOf (factor : Parser Operand) : Parser Operand := do
  let left ← simpleExpression factor
  match Relation.ofToken? (← token) with
  | none => return left
  | some relation =>
    advance
    let right ← simpleExpression factor
    let ts ← types
    require (comparable ts left.type right.type)
      (.cannotCompare (ts.text left.type) (ts.text right.type))
    require (ts.kind left.type ≠ .pointer || isEquality relation) .pointerOrder
    let kinds : OperandKinds := ⟨ts.rootKind left.type, ts.rootKind right.type⟩
    return ⟨.compare relation left.expr right.expr kinds (← line), .boolean⟩

/-- A factor with at most a number of expressions around each other inside it. -/
def factorWithin : Nat → Parser Operand
  | 0 => fun s => (noOperand, s.exhaust)
  | n + 1 => fun s => factor (expressionOf (factorWithin n)) (factorWithin n) s

def expression : Parser Operand := fun s => expressionOf (factorWithin s.fuel) s

end Parser

end MiniPascal
