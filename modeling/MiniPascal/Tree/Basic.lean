import MiniPascal.Instr
import MiniPascal.Token
import MiniPascal.Types.Conversion

/-!
# Checked programs

The tree of a program whose names are resolved and whose types are checked. Variables are known by the
number of blocks between their use and their declaration and by their offset, subprograms by number.
Every node carries the source line to which its instructions are attributed. A source that is refused
has a tree too; a few nodes stand for what was read there and fits nowhere.
-/

namespace MiniPascal

/-- The number of a subprogram in order of declaration; the program itself is the first. -/
structure RoutineId where
  index : Nat
deriving DecidableEq, Repr

/-- A procedure, a function or the program: its number, its parameters at their places, the words that
they take, and the type of the result of a function. -/
structure Routine where
  id : RoutineId
  params : List Field := []
  paramSize : Int64 := 0
  result : Option TypeId := none
deriving DecidableEq, Repr

/-- The binary operators of the language, comparisons apart. -/
inductive Operator where
  | add
  | sub
  | mul
  | divide
  | div
  | mod
  | shl
  | shr
  | and
  | or
  | xor
deriving DecidableEq, Repr

/-- A variable as seen from a place of use: `hops` blocks outwards, at an offset in the frame there.
Parameters have negative offsets. -/
structure Variable where
  hops : Int
  offset : Int64
  type : TypeId
deriving DecidableEq, Repr

/-- A subprogram as seen from a place of use. -/
structure Callee where
  routine : RoutineId
  hops : Int
  result : Option TypeId
deriving DecidableEq, Repr

/-- One dimension of an array: the bounds and the kind of its index, and the size of its elements. -/
structure Dimension where
  bounds : Bounds
  kind : TypeKind
  elementSize : Int64
deriving DecidableEq, Repr

/-- The kinds of the two operands of an operator. -/
structure OperandKinds where
  left : TypeKind
  right : TypeKind
deriving DecidableEq, Repr

mutual

/-- An expression, which leaves its value on the stack. One that is missing in the source is absent. -/
inductive Expr where
  | absent
  | literal (value : Datum) (type : TypeId) (line : Nat)
  | load (source : Designator) (size : Int64) (line : Nat)
  | call (callee : Callee) (args : Args) (line : Nat)
  | sign (negative : Bool) (operand : Expr) (line : Nat)
  | complement (operand : Expr) (line : Nat)
  | binary (op : Operator) (left right : Expr) (kinds : OperandKinds) (line : Nat)
  | compare (relation : Relation) (left right : Expr) (kinds : OperandKinds) (line : Nat)
  | apply (function : Builtin) (arg : Expr) (kind : TypeKind) (bounds : Option Bounds) (line : Nat)

/-- A place in memory, which leaves its address on the stack. An index of what is no array is surplus. -/
inductive Designator where
  | variable (v : Variable) (line : Nat)
  | result (hops : Int) (line : Nat)
  | element (array : Designator) (index : Expr) (dimension : Dimension) (line : Nat)
  | field (record : Designator) (offset : Int64) (line : Nat)
  | pointee (pointer : Designator) (line : Nat)
  | surplus (place : Designator) (index : Expr)

/-- The arguments of a call, each with its conversion to the type of the parameter. -/
inductive Args where
  | nil
  | cons (arg : Expr) (conversion : Conversion) (line : Nat) (rest : Args)

end

/-- A statement. A sequence is built from pairs. A target and a value that do not fit are abandoned. -/
inductive Stmt where
  | skip
  | seq (first second : Stmt)
  | assign (target : Designator) (value : Expr) (conversion : Conversion) (line : Nat)
  | assignWhole (target : Designator) (value : Expr) (size : Int64) (line : Nat)
  | abandoned (target : Designator) (value : Expr)
  | call (callee : Callee) (args : Args) (line : Nat)
  | ifThen (condition : Expr) (testLine : Nat) (body : Stmt)
  | ifElse (condition : Expr) (testLine : Nat) (body : Stmt) (elseLine : Nat) (alternative : Stmt)
  | whileDo (condition : Expr) (testLine : Nat) (body : Stmt) (endLine : Nat)
  | repeatUntil (body : Stmt) (condition : Expr) (line : Nat)
  | forLoop (control : Variable) (controlLine : Nat) (start : Expr) (conversion : Conversion)
      (startLine : Nat) (downward : Bool) (limit : Expr) (limitLine : Nat) (body : Stmt)
      (endLine : Nat)
  | write (value : Expr) (format : List Expr) (line : Nat)
  | writeText (text : Text) (line : Nat)
  | writeln (line : Nat)
  | new (target : Designator) (size : Int64) (line : Nat)
  | dispose (target : Designator) (line : Nat)

/-- What is known of a block apart from its statements: its subprogram, its local variables at their
places and the words that they take, and the lines of its first and last instruction. -/
structure BlockInfo where
  routine : Routine
  vars : List Field
  locals : Int64
  enterLine : Nat
  exitLine : Nat
deriving DecidableEq, Repr

/-- Blocks in order of declaration, each with the blocks declared inside it. -/
inductive Blocks where
  | nil
  | cons (info : BlockInfo) (inner : Blocks) (body : Stmt) (rest : Blocks)

/-- A whole program: its name, the line of its heading, and its blocks, of which the main one is the
last to be laid out. -/
structure ProgramTree where
  name : Text
  headingLine : Nat
  main : RoutineId
  blocks : Blocks

namespace Operator

def token : Operator → Token
  | .add => .plus
  | .sub => .minus
  | .mul => .star
  | .divide => .slash
  | .div => .kwDiv
  | .mod => .kwMod
  | .shl => .kwShl
  | .shr => .kwShr
  | .and => .kwAnd
  | .or => .kwOr
  | .xor => .kwXor

/-- The operators between terms. -/
def additive? : Token → Option Operator
  | .plus => some .add
  | .minus => some .sub
  | .kwOr => some .or
  | .kwXor => some .xor
  | _ => none

/-- The operators between factors. -/
def multiplicative? : Token → Option Operator
  | .star => some .mul
  | .slash => some .divide
  | .kwDiv => some .div
  | .kwMod => some .mod
  | .kwAnd => some .and
  | .kwShl => some .shl
  | .kwShr => some .shr
  | _ => none

end Operator

/-- The comparison that a token stands for. -/
def Relation.ofToken? : Token → Option Relation
  | .equal => some .equal
  | .notEqual => some .notEqual
  | .less => some .less
  | .lessEqual => some .lessEqual
  | .greater => some .greater
  | .greaterEqual => some .greaterEqual
  | _ => none

namespace Stmt

/-- Statements one after the other. -/
def ofList : List Stmt → Stmt
  | [] => .skip
  | s :: rest => .seq s (ofList rest)

end Stmt

end MiniPascal
