import MiniPascal.Program.Basic
import MiniPascal.Tree.Selection

/-!
# Code of checked programs

The instructions of a tree. Expressions have no jumps, so their code does not depend on where it is
placed; statements are laid out from a given address on and jump to absolute addresses. The bodies of
inner blocks stand before the body of the block that declares them, and calls use the addresses at which
the bodies start.
-/

namespace MiniPascal

/-- An instruction with the source line that it comes from. -/
structure Emission where
  line : Nat
  instr : Instr
deriving DecidableEq, Repr

/-- Attribute instructions to a line. -/
def emitAt (line : Nat) (code : List Instr) : List Emission := code.map fun x => ⟨line, x⟩

/-- An instruction with an integer argument. -/
def Opcode.withInt (op : Opcode) (v : Int64) : Instr := { op, arg := .integer v }

/-- An instruction with an address of code as its argument. -/
def Opcode.withTarget (op : Opcode) (address : Nat) : Instr := op.withInt (Int64.ofNat address)

/-- Where the bodies of subprograms start. -/
abbrev Entries := RoutineId → Nat

/-- The starts given by a list; every subprogram of a program is in it. -/
def Entries.ofStarts (starts : List (RoutineId × Nat)) : Entries := fun r => (starts.lookup r).getD 0

def Callee.code (entries : Entries) (c : Callee) : Instr :=
  { op := .call, level := Int8.ofInt c.hops, arg := .integer (Int64.ofNat (entries c.routine)) }

mutual

def Expr.code (entries : Entries) : Expr → List Emission
  | .absent => []
  | .literal value _ line => emitAt line [{ op := .push, arg := value }]
  | .load source size line => source.code entries ++ emitAt line [Opcode.eval.withInt size]
  | .call callee args line => args.code entries ++ emitAt line [callee.code entries]
  | .sign negative operand line =>
    operand.code entries ++ if negative then emitAt line [{ op := .unary .neg }] else []
  | .complement operand line => operand.code entries ++ emitAt line [{ op := .unary .not }]
  | .binary op left right kinds line =>
    left.code entries ++ right.code entries ++ emitAt line ((op.select kinds).getD [])
  | .compare relation left right kinds line =>
    left.code entries ++ right.code entries ++ emitAt line (relation.select kinds)
  | .apply function arg kind bounds line =>
    arg.code entries ++ emitAt line (function.select kind) ++
      emitAt line (match bounds with
        | some b => b.code
        | none => [])

def Designator.code (entries : Entries) : Designator → List Emission
  | .variable v line => emitAt line [v.address]
  | .result hops line =>
    emitAt line
      [{ op := .pushVar, level := Int8.ofInt hops, arg := .integer FrameSlot.result.offset }]
  | .element array index dimension line =>
    array.code entries ++ index.code entries ++ emitAt line dimension.code
  | .field record offset line =>
    record.code entries ++
      if offset = 0 then [] else emitAt line [Opcode.push.withInt offset, { op := .binary .add }]
  | .pointee pointer line => pointer.code entries ++ emitAt line [Opcode.eval.withInt 1]
  | .surplus place index => place.code entries ++ index.code entries

def Args.code (entries : Entries) : Args → List Emission
  | .nil => []
  | .cons arg conversion line rest =>
    arg.code entries ++ emitAt line conversion.code ++ rest.code entries

end

namespace Stmt

/-- Store an aggregate after the code of its place and its value. A value that was just loaded is copied
from address to address instead, which needs no room on the stack. -/
def storeWhole (code : List Emission) (size : Int64) (line : Nat) : List Emission :=
  match code.getLast? with
  | some last =>
    if last.instr.op = .eval then code.dropLast ++ emitAt line [Opcode.copy.withInt size]
    else code ++ emitAt line [Opcode.assign.withInt size]
  | none => emitAt line [Opcode.assign.withInt size]

/-- Compare the limit of a loop, which is on top, with the control variable. -/
def compareControl (control : Variable) (relation : Relation) : List Instr :=
  [{ op := .dup }, control.address, Opcode.eval.withInt 1, { op := .binary (.compare relation) }]

/-- Move the control variable of a loop to its neighbour. -/
def stepControl (control : Variable) (downward : Bool) : List Instr :=
  [control.address, control.address, Opcode.eval.withInt 1,
    { op := .unary (if downward then .pred else .succ) }, Opcode.assign.withInt 1]

def code (entries : Entries) : Nat → Stmt → List Emission
  | _, .skip => []
  | here, .seq first second =>
    let a := first.code entries here
    a ++ second.code entries (here + a.length)
  | _, .assign target value conversion line =>
    target.code entries ++ value.code entries ++ emitAt line conversion.code ++
      emitAt line [Opcode.assign.withInt 1]
  | _, .assignWhole target value size line =>
    storeWhole (target.code entries ++ value.code entries) size line
  | _, .abandoned target value => target.code entries ++ value.code entries
  | _, .call callee args line => args.code entries ++ emitAt line [callee.code entries]
  | here, .ifThen condition testLine body =>
    let test := condition.code entries
    let inside := body.code entries (here + test.length + 1)
    test ++ emitAt testLine [Opcode.jneq.withTarget (here + test.length + 1 + inside.length)] ++ inside
  | here, .ifElse condition testLine body elseLine alternative =>
    let test := condition.code entries
    let inside := body.code entries (here + test.length + 1)
    let otherwise := here + test.length + 1 + inside.length + 1
    let outside := alternative.code entries otherwise
    test ++ emitAt testLine [Opcode.jneq.withTarget otherwise] ++ inside ++
      emitAt elseLine [Opcode.jump.withTarget (otherwise + outside.length)] ++ outside
  | here, .whileDo condition testLine body endLine =>
    let test := condition.code entries
    let inside := body.code entries (here + test.length + 1)
    test ++ emitAt testLine [Opcode.jneq.withTarget (here + test.length + 1 + inside.length + 1)] ++
      inside ++ emitAt endLine [Opcode.jump.withTarget here]
  | here, .repeatUntil body condition line =>
    body.code entries here ++ condition.code entries ++ emitAt line [Opcode.jneq.withTarget here]
  | here, .forLoop control controlLine start conversion startLine downward limit limitLine body
      endLine =>
    let before := emitAt controlLine [control.address] ++ start.code entries ++
      emitAt startLine conversion.code ++ emitAt startLine [Opcode.assign.withInt 1] ++
      limit.code entries
    let top := here + before.length
    let inside := body.code entries (top + 5)
    let exit := top + 5 + inside.length + 11
    before ++
      emitAt limitLine (compareControl control (if downward then .lessEqual else .greaterEqual)) ++
      emitAt limitLine [Opcode.jneq.withTarget exit] ++ inside ++
      emitAt endLine (compareControl control .notEqual) ++ emitAt endLine [Opcode.jneq.withTarget exit] ++
      emitAt endLine (stepControl control downward) ++ emitAt endLine [Opcode.jump.withTarget top] ++
      emitAt endLine [Opcode.pop.withInt 1]
  | _, .write value format line =>
    value.code entries ++ format.flatMap (fun e => e.code entries) ++
      emitAt line [{ op := .write, level := Int8.ofNat format.length }]
  | _, .writeText text line =>
    text.flatMap fun c => emitAt line [{ op := .push, arg := .character c }, { op := .write }]
  | _, .writeln line => emitAt line [{ op := .writeln }]
  | _, .new target size line =>
    target.code entries ++ emitAt line [Opcode.push.withInt size, { op := .new }, Opcode.assign.withInt 1]
  | _, .dispose target line =>
    target.code entries ++ emitAt line [Opcode.eval.withInt 1, { op := .dispose }]

end Stmt

namespace BlockInfo

/-- Reserve the local variables, if there are any. -/
def entry (info : BlockInfo) : List Emission :=
  if info.locals = 0 then [] else emitAt info.enterLine [Opcode.enter.withInt info.locals]

/-- Return to the caller. -/
def exit (info : BlockInfo) : List Emission :=
  emitAt info.exitLine
    [(if info.routine.result.isSome then Opcode.retf else Opcode.ret).withInt info.routine.paramSize]

/-- The code of the body of a block, placed at an address. -/
def code (entries : Entries) (here : Nat) (info : BlockInfo) (body : Stmt) : List Emission :=
  info.entry ++ body.code entries (here + info.entry.length) ++ info.exit

end BlockInfo

namespace Blocks

def code (entries : Entries) : Nat → Blocks → List Emission
  | _, .nil => []
  | here, .cons info inner body rest =>
    let a := inner.code entries here
    let b := info.code entries (here + a.length) body
    a ++ b ++ rest.code entries (here + a.length + b.length)

/-- The number of instructions of blocks, which does not depend on where anything is placed. -/
def size (b : Blocks) : Nat := (b.code (fun _ => 0) 0).length

/-- Where the bodies of the blocks start, if the blocks are placed at an address. -/
def starts : Nat → Blocks → List (RoutineId × Nat)
  | _, .nil => []
  | here, .cons info inner body rest =>
    let start := here + inner.size
    let next := start + (info.code (fun _ => 0) 0 body).length
    inner.starts here ++ (info.routine.id, start) :: rest.starts next

end Blocks

namespace ProgramTree

/-- The blocks come after the call of the program and the end. -/
def origin : Nat := 2

def entries (t : ProgramTree) : Entries := .ofStarts (t.blocks.starts origin)

/-- The code of a program: call the main block, halt, and the blocks. -/
def code (t : ProgramTree) : List Emission :=
  let starts := t.blocks.starts origin
  let entries := Entries.ofStarts starts
  emitAt t.headingLine [Opcode.call.withTarget (entries t.main), { op := .halt }] ++
    t.blocks.code entries origin

end ProgramTree

end MiniPascal
