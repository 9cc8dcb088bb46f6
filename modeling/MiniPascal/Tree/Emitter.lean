import MiniPascal.AddressSet
import MiniPascal.Tree.Code

/-!
# Code in one pass

The code of a tree can be written from its first to its last instruction without looking ahead. A jump
forward and a call of a subprogram whose body comes later are written with an open target, which is
settled once the address is known. Every open target is settled once; an emission that would settle a
target twice, settle what is not there or take back what was never written breaks down.
-/

namespace MiniPascal

/-- Code in the making. -/
structure Emitter where
  /-- The instructions so far. -/
  code : Array Emission := #[]
  /-- The addresses of the instructions whose target is open. -/
  pending : AddressSet := .empty
  /-- The calls whose target is open, with the subprograms that they call. -/
  calls : List (RoutineId × Nat) := []
  /-- The subprograms whose bodies have started, and where. -/
  entries : List (RoutineId × Nat) := []

/-- A part of the emission; it has no result if it breaks down. -/
abbrev Emit (α : Type) := StateT Emitter Option α

/-- The argument of an instruction whose target is open. -/
def Instr.openTarget : Datum := .integer (-1)

/-- An instruction with another target. -/
def Emission.retarget (target : Datum) (e : Emission) : Emission :=
  { e with instr := { e.instr with arg := target } }

namespace Emitter

def here : Emit Nat := return (← get).code.size

/-- Write an instruction, and tell its address. -/
def emit (line : Nat) (x : Instr) : Emit Nat :=
  modifyGet fun e => (e.code.size, { e with code := e.code.push ⟨line, x⟩ })

/-- Write instructions that come from one line. -/
def emitAll (line : Nat) : List Instr → Emit Unit
  | [] => pure ()
  | x :: rest => do
    let _ ← emit line x
    emitAll line rest

def leaveOpen (a : Nat) : Emit Unit := do
  let e ← get
  match e.pending.insert? a with
  | some pending => set { e with pending }
  | none => failure

/-- Write a jump with an open target. -/
def jump (line : Nat) (op : Opcode) : Emit Nat := do
  let a ← emit line { op, arg := Instr.openTarget }
  leaveOpen a
  return a

def patch (a target : Nat) : Emit Unit := do
  let e ← get
  let (isOpen, pending) := e.pending.remove a
  if isOpen && a < e.code.size then
    set { e with pending, code := e.code.modify a (Emission.retarget (.integer (Int64.ofNat target))) }
  else failure

/-- Write a call; its target is open until the body of the subprogram has started. -/
def call (line : Nat) (callee : Callee) : Emit Unit := do
  let level := Int8.ofInt callee.hops
  match (← get).entries.lookup callee.routine with
  | some entry =>
    let _ ← emit line { op := .call, level, arg := .integer (Int64.ofNat entry) }
  | none =>
    let a ← emit line { op := .call, level, arg := Instr.openTarget }
    leaveOpen a
    modify fun e => { e with calls := e.calls ++ [(callee.routine, a)] }

/-- Settle calls at an address. -/
def patchCalls (target : Nat) : List (RoutineId × Nat) → Emit Unit
  | [] => pure ()
  | (_, a) :: rest => do
    patch a target
    patchCalls target rest

/-- Start the body of a subprogram: the calls that wait for it are settled. -/
def define (r : RoutineId) : Emit Unit := do
  let e ← get
  patchCalls e.code.size (e.calls.filter fun c => c.1 = r)
  modify fun e =>
    { e with calls := e.calls.filter fun c => c.1 ≠ r, entries := (r, e.code.size) :: e.entries }

def drop : Emit Unit := do
  let e ← get
  if e.code.isEmpty then failure else set { e with code := e.code.pop }

/-- Store an aggregate; a load that was just written is taken back, and the aggregate copied. -/
def storeWhole (size : Int64) (line : Nat) : Emit Unit := do
  match (← get).code.back? with
  | some last =>
    if last.instr.op = .eval then
      drop
      emitAll line [Opcode.copy.withInt size]
    else emitAll line [Opcode.assign.withInt size]
  | none => emitAll line [Opcode.assign.withInt size]

end Emitter

open Emitter

mutual

def Expr.emit : Expr → Emit Unit
  | .absent => pure ()
  | .literal value _ line => emitAll line [{ op := .push, arg := value }]
  | .load source size line => do
    source.emit
    emitAll line [Opcode.eval.withInt size]
  | .call callee args line => do
    args.emit
    Emitter.call line callee
  | .sign negative operand line => do
    operand.emit
    emitAll line (if negative then [{ op := .unary .neg }] else [])
  | .complement operand line => do
    operand.emit
    emitAll line [{ op := .unary .not }]
  | .binary op left right kinds line => do
    left.emit
    right.emit
    emitAll line ((op.select kinds).getD [])
  | .compare relation left right kinds line => do
    left.emit
    right.emit
    emitAll line (relation.select kinds)
  | .apply function arg kind bounds line => do
    arg.emit
    emitAll line (function.select kind)
    emitAll line (match bounds with
      | some b => b.code
      | none => [])

def Designator.emit : Designator → Emit Unit
  | .variable v line => emitAll line [v.address]
  | .result hops line =>
    emitAll line
      [{ op := .pushVar, level := Int8.ofInt hops, arg := .integer FrameSlot.result.offset }]
  | .element array index dimension line => do
    array.emit
    index.emit
    emitAll line dimension.code
  | .field record offset line => do
    record.emit
    emitAll line (if offset = 0 then [] else [Opcode.push.withInt offset, { op := .binary .add }])
  | .pointee pointer line => do
    pointer.emit
    emitAll line [Opcode.eval.withInt 1]
  | .surplus place index => do
    place.emit
    index.emit

def Args.emit : Args → Emit Unit
  | .nil => pure ()
  | .cons arg conversion line rest => do
    arg.emit
    emitAll line conversion.code
    rest.emit

end

def Expr.emitAll : List Expr → Emit Unit
  | [] => pure ()
  | e :: rest => do
    e.emit
    Expr.emitAll rest

/-- Write a counting loop up to its top: the start goes to the control variable, and the limit stays. -/
def Stmt.emitStart (control : Variable) (controlLine : Nat) (start : Expr) (conversion : Conversion)
    (startLine : Nat) (limit : Expr) : Emit Unit := do
  emitAll controlLine [control.address]
  start.emit
  emitAll startLine conversion.code
  emitAll startLine [Opcode.assign.withInt 1]
  limit.emit

def Stmt.emit : Stmt → Emit Unit
  | .skip => pure ()
  | .seq first second => do
    first.emit
    second.emit
  | .assign target value conversion line => do
    target.emit
    value.emit
    emitAll line conversion.code
    emitAll line [Opcode.assign.withInt 1]
  | .assignWhole target value size line => do
    target.emit
    value.emit
    Emitter.storeWhole size line
  | .abandoned target value => do
    target.emit
    value.emit
  | .call callee args line => do
    args.emit
    Emitter.call line callee
  | .ifThen condition testLine body => do
    condition.emit
    let skip ← jump testLine .jneq
    body.emit
    patch skip (← here)
  | .ifElse condition testLine body elseLine alternative => do
    condition.emit
    let skip ← jump testLine .jneq
    body.emit
    let leave ← jump elseLine .jump
    patch skip (← here)
    alternative.emit
    patch leave (← here)
  | .whileDo condition testLine body endLine => do
    let top ← here
    condition.emit
    let exit ← jump testLine .jneq
    body.emit
    emitAll endLine [Opcode.jump.withTarget top]
    patch exit (← here)
  | .repeatUntil body condition line => do
    let top ← here
    body.emit
    condition.emit
    emitAll line [Opcode.jneq.withTarget top]
  | .forLoop control controlLine start conversion startLine downward limit limitLine body endLine => do
    emitStart control controlLine start conversion startLine limit
    let top ← here
    emitAll limitLine (compareControl control (if downward then .lessEqual else .greaterEqual))
    let exit ← jump limitLine .jneq
    body.emit
    emitAll endLine (compareControl control .notEqual)
    let last ← jump endLine .jneq
    emitAll endLine (stepControl control downward)
    emitAll endLine [Opcode.jump.withTarget top]
    patch exit (← here)
    patch last (← here)
    emitAll endLine [Opcode.pop.withInt 1]
  | .write value format line => do
    value.emit
    Expr.emitAll format
    emitAll line [{ op := .write, level := Int8.ofNat format.length }]
  | .writeText text line =>
    emitAll line (text.flatMap fun c => [{ op := .push, arg := .character c }, { op := .write }])
  | .writeln line => emitAll line [{ op := .writeln }]
  | .new target size line => do
    target.emit
    emitAll line [Opcode.push.withInt size, { op := .new }, Opcode.assign.withInt 1]
  | .dispose target line => do
    target.emit
    emitAll line [Opcode.eval.withInt 1, { op := .dispose }]

def BlockInfo.emit (info : BlockInfo) (body : Stmt) : Emit Unit := do
  emitAll info.enterLine (if info.locals = 0 then [] else [Opcode.enter.withInt info.locals])
  body.emit
  emitAll info.exitLine
    [(if info.routine.result.isSome then Opcode.retf else Opcode.ret).withInt info.routine.paramSize]

/-- Write blocks: the bodies of inner blocks first, then the body of each block. -/
def Blocks.emit : Blocks → Emit Unit
  | .nil => pure ()
  | .cons info inner body rest => do
    inner.emit
    define info.routine.id
    info.emit body
    rest.emit

namespace ProgramTree

/-- Write the call of the main block and the end. -/
def emitHeading (t : ProgramTree) : Emit Unit := do
  Emitter.call t.headingLine { routine := t.main, hops := 0, result := none }
  emitAll t.headingLine [{ op := .halt }]

def emit (t : ProgramTree) : Emit Unit := do
  t.emitHeading
  t.blocks.emit

/-- The emission of a whole program, unless it breaks down. -/
def emit? (t : ProgramTree) : Option Emitter := (t.emit.run {}).map Prod.snd

end ProgramTree

end MiniPascal
