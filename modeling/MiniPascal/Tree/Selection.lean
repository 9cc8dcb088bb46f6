import MiniPascal.Tree.Basic

/-!
# Selection of operations

The operations of the machine that carry out an operator on operands of given kinds. Where the language
has no such operator there are none.
-/

namespace MiniPascal

namespace Promotion

/-- Widen the operand in question. -/
def code : Promotion → List Instr
  | .neither => []
  | .left => [{ op := .itor2 }]
  | .right => [{ op := .unary .itor }]

/-- The operand of the lesser of two kinds of numbers is widened. -/
def ofKinds (k : OperandKinds) : Promotion :=
  match k.left, k.right with
  | .integer, .real => .left
  | .real, .integer => .right
  | _, _ => .neither

end Promotion

namespace Bounds

/-- Check the value on top against both bounds. -/
def code (b : Bounds) : List Instr :=
  [{ op := .llimit, arg := .integer b.lower }, { op := .ulimit, arg := .integer b.upper }]

end Bounds

namespace Coercion

def code : Coercion → List Instr
  | .keep => []
  | .widen => [{ op := .unary .itor }]
  | .round => [{ op := .unary .round }]

end Coercion

namespace Conversion

/-- Change the kind of the value on top, then check its range. -/
def code (c : Conversion) : List Instr :=
  c.coercion.code ++ match c.bounds with
    | some b => b.code
    | none => []

end Conversion

namespace Operator

/-- An operation on numbers, after the lesser operand is widened. -/
def onNumbers (op : BinaryOp) (k : OperandKinds) : Option (List Instr) :=
  if k.left.isNumeric && k.right.isNumeric then
    some ((Promotion.ofKinds k).code ++ [{ op := .binary op }])
  else none

def onIntegers (op : BinaryOp) (k : OperandKinds) : Option (List Instr) :=
  if k.left = .integer && k.right = .integer then some [{ op := .binary op }] else none

/-- Division of reals, after every integer operand is widened. -/
def onReals (k : OperandKinds) : Option (List Instr) :=
  if k.left.isNumeric && k.right.isNumeric then
    some ((if k.left = .integer then [{ op := .itor2 }] else []) ++
      (if k.right = .integer then [{ op := .unary .itor }] else []) ++ [{ op := .binary .div }])
  else none

/-- An operation on truth values or, bit by bit, on integers. -/
def onLogical (boolean integer : BinaryOp) (k : OperandKinds) : Option (List Instr) :=
  if k.left = .boolean && k.right = .boolean then some [{ op := .binary boolean }]
  else if k.left = .integer && k.right = .integer then some [{ op := .binary integer }]
  else none

def select : Operator → OperandKinds → Option (List Instr)
  | .add, k => onNumbers .add k
  | .sub, k => onNumbers .sub k
  | .mul, k => onNumbers .mul k
  | .divide, k => onReals k
  | .div, k => onIntegers .div k
  | .mod, k => onIntegers .rem k
  | .shl, k => onIntegers .shl k
  | .shr, k => onIntegers .shr k
  | .and, k => onLogical .and .band k
  | .or, k => onLogical .or .bor k
  | .xor, k => onLogical (.compare .notEqual) .bxor k

/-- The type of the result; for an operator that is not applicable, the type assumed after the error. -/
def resultType : Operator → OperandKinds → TypeId
  | .add, k | .sub, k | .mul, k =>
    if k.left.isNumeric && k.right.isNumeric && (k.left = .real || k.right = .real) then .real
    else .integer
  | .divide, _ => .real
  | .div, _ | .mod, _ | .shl, _ | .shr, _ => .integer
  | .and, k | .or, k | .xor, k =>
    if k.left = .integer && k.right = .integer then .integer else .boolean

end Operator

namespace Relation

def select (r : Relation) (k : OperandKinds) : List Instr :=
  (Promotion.ofKinds k).code ++ [{ op := .binary (.compare r) }]

end Relation

namespace Builtin

/-- An operation on reals, after an integer argument is widened. -/
def onReal (op : UnaryOp) (k : TypeKind) : List Instr :=
  (if k = .integer then [{ op := .unary .itor }] else []) ++ [{ op := .unary op }]

/-- The operations for a built-in function of an argument of a given kind. -/
def select : Builtin → TypeKind → List Instr
  | .abs, _ => [{ op := .unary .abs }]
  | .sqr, _ => [{ op := .unary .sqr }]
  | .sin, k => onReal .sin k
  | .cos, k => onReal .cos k
  | .arctan, k => onReal .atan k
  | .exp, k => onReal .exp k
  | .ln, k => onReal .log k
  | .sqrt, k => onReal .sqrt k
  | .round, k => onReal .round k
  | .trunc, k => onReal .trunc k
  | .odd, _ => [{ op := .unary .odd }]
  | .pred, _ => [{ op := .unary .pred }]
  | .succ, _ => [{ op := .unary .succ }]
  | .ord, _ => [{ op := .unary .ord }]
  | .chr, _ => [{ op := .unary .chr }]

end Builtin

namespace Dimension

/-- Turn the address of an array and an index into the address of the element. The index is checked,
brought to a number counted from zero, and scaled. -/
def code (d : Dimension) : List Instr :=
  d.bounds.code ++
    (if d.kind = .integer then [] else [{ op := .unary .ord }]) ++
    (if d.bounds.lower = 0 then []
      else [{ op := .push, arg := .integer d.bounds.lower }, { op := .binary .sub }]) ++
    (if d.elementSize = 1 then []
      else [{ op := .push, arg := .integer d.elementSize }, { op := .binary .mul }]) ++
    [{ op := .binary .add }]

end Dimension

def TypeTable.dimension (types : TypeTable) (array : TypeId) : Dimension :=
  let index := (types.get array).index.getD .integer
  let element := (types.get array).base.getD .integer
  { bounds := types.bounds index, kind := types.rootKind index, elementSize := types.size element }

namespace Variable

/-- The offset from the frame; local variables lie above the words at its start. -/
def frameOffset (v : Variable) : Int64 := if 0 ≤ v.offset then v.offset + FrameSlot.count else v.offset

def address (v : Variable) : Instr :=
  { op := .pushVar, level := Int8.ofInt v.hops, arg := .integer v.frameOffset }

end Variable

end MiniPascal
