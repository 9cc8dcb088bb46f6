import MiniPascal.Machine.Basic
import MiniPascal.Machine.Operation

/-!
# Steps of the machine

One step fetches the instruction at the program counter and carries it out. Faults leave what was done
before them, and the program counter has then moved on already.
-/

namespace MiniPascal.Machine

/-- The outcome of an instruction together with the machine after it. -/
abbrev Effect := Status × Machine

def done (m : Machine) : Effect := (.success, m)

def refuse (cause : Fault) (m : Machine) : Effect := (.fault cause, m)

/-- The instruction reached outside of the memory. -/
def crash (m : Machine) : Effect := (.crash, m)

def stop (reason : Stop) (m : Machine) : Effect := (.stopped reason, m)

def store (m : Machine) (a : Int64) (d : Datum) : Effect :=
  if (m.read? a).isSome then done (m.write a d) else crash m

def push (m : Machine) (d : Datum) : Effect :=
  if m.sp + 1 ≥ m.stackSize then refuse .stackOverflow m
  else store { m with sp := m.sp + 1 } (m.sp + 1) d

/-- Replace the word at an address by the result of an operation on it, or by zero if there is none. -/
def update (m : Machine) (a : Int64) (f : Datum → Except Fault Datum) : Effect :=
  match m.read? a with
  | none => crash m
  | some d =>
    match f d with
    | .ok r => done (m.write a r)
    | .error cause => refuse cause (m.write a (.integer 0))

/-- Take the top off the stack and go on with it. -/
def pop (m : Machine) (next : Datum → Machine → Effect) : Effect :=
  match m.read? m.sp with
  | none => crash m
  | some d => next d { m with sp := m.sp - 1 }

/-- The frame that is reached from a frame by following the links to enclosing blocks. -/
def follow (m : Machine) : Nat → Int64 → Except Stop Int64
  | 0, frame => .ok frame
  | hops + 1, frame =>
    if !m.valid frame 1 then .error (.fault .outOfRange)
    else match m.read? (frame + FrameSlot.base.offset) with
      | some (.address a) => m.follow hops a
      | some _ => .error (.fault .badDataType)
      | none => .error .crash

/-- The frame of the block that encloses the running one at a level. -/
def frameAt (m : Machine) (level : Int8) : Except Stop Int64 := m.follow level.toInt.toNat m.fp

/-- The size of a block, given as an argument, and its address, taken from a stack slot. -/
def blockAt (m : Machine) (arg : Datum) (slot : Int64) : Except Stop (Int64 × Int64) :=
  match arg with
  | .integer n =>
    if n < 1 then .error (.fault .badDataType)
    else if slot < 1 then .error (.fault .stackUnderflow)
    else match m.read? slot with
      | some (.address a) => if m.valid a n then .ok (n, a) else .error (.fault .outOfRange)
      | some _ => .error (.fault .badDataType)
      | none => .error .crash
  | _ => .error (.fault .badDataType)

/-- Copy a block of words and set the height of the stack. -/
def copyBlock (m : Machine) (target source n : Int64) (sp : Int64) : Effect :=
  match m.slice? target n, m.slice? source n with
  | some t, some s => done { m with mem := move m.mem t s n.toInt.toNat, sp }
  | _, _ => crash m

/-- Replace the address on top by the block that is stored there. -/
def eval (m : Machine) (arg : Datum) : Effect :=
  match m.blockAt arg m.sp with
  | .error reason => stop reason m
  | .ok (n, a) =>
    if m.sp - 1 + n ≥ m.stackSize then refuse .stackOverflow m
    else copyBlock { m with sp := m.sp - 1 } m.sp a n (m.sp - 1 + n)

/-- Store the topmost words at the address below them. -/
def assign (m : Machine) (arg : Datum) : Effect :=
  match arg with
  | .integer n =>
    if n < 1 then refuse .badDataType m
    else if m.sp < n + 1 then refuse .stackUnderflow m
    else
      let source := m.sp - n + 1
      match m.blockAt arg (source - 1) with
      | .error reason => stop reason m
      | .ok (_, target) => copyBlock m target source n (m.sp - (n + 1))
  | _ => refuse .badDataType m

/-- Copy the block at the address on top to the address below it. -/
def copy (m : Machine) (arg : Datum) : Effect :=
  match m.blockAt arg m.sp with
  | .error reason => stop reason m
  | .ok (n, source) =>
    match m.blockAt arg (m.sp - 1) with
    | .error reason => stop reason m
    | .ok (_, target) => copyBlock m target source n (m.sp - 2)

def drop (m : Machine) (arg : Datum) : Effect :=
  match arg with
  | .integer n =>
    if n < 0 then refuse .badDataType m
    else if m.sp < n then refuse .stackUnderflow m
    else done { m with sp := m.sp - n }
  | _ => refuse .badDataType m

/-- Open a frame and go on in the code of a subprogram. -/
def call (m : Machine) (level : Int8) (entry : Int64) : Effect :=
  match m.frameAt level with
  | .error reason => stop reason m
  | .ok base =>
    if m.sp + FrameSlot.count ≥ m.stackSize then refuse .stackOverflow m
    else
      let fp := m.sp + 1
      if (m.read? fp).isNone then crash m
      else
        let oldFp := m.fp
        let returnTo := m.pc
        let m := m.write (fp + FrameSlot.base.offset) (.address base)
        let m := m.write (fp + FrameSlot.oldFrame.offset) (.address oldFp)
        let m := m.write (fp + FrameSlot.returnAddress.offset) (.integer returnTo)
        let m := m.write (fp + FrameSlot.result.offset) (.integer 0)
        done { m with sp := m.sp + FrameSlot.count, fp, pc := entry }

/-- Reserve words for local variables. -/
def enter (m : Machine) (arg : Datum) : Effect :=
  match arg with
  | .integer n =>
    if n < 0 then refuse .badDataType m
    else if m.sp + n ≥ m.stackSize then refuse .stackOverflow m
    else done { m with sp := m.sp + n }
  | _ => refuse .badDataType m

/-- Leave the current frame, drop the arguments below it, and go on after the call. A function pushes
its result. -/
def ret (m : Machine) (arg : Datum) (function : Bool) : Effect :=
  match arg with
  | .integer n =>
    if n < 0 then refuse .badDataType m
    else
      let fp := m.fp
      if fp < 1 || fp + FrameSlot.result.offset > m.sp then refuse .stackUnderflow m
      else
        match m.read? (fp + FrameSlot.returnAddress.offset) with
        | none => crash m
        | some (.integer pc) =>
          match m.read? (fp + FrameSlot.oldFrame.offset) with
          | none => crash m
          | some (.address oldFp) =>
            match m.read? (fp + FrameSlot.result.offset) with
            | none => crash m
            | some result =>
              let sp := fp - 1 - n
              if sp < 0 then refuse .stackUnderflow m
              else
                let m := { m with sp, fp := oldFp, pc }
                if function then push m result else done m
          | some _ => refuse .badDataType m
        | some _ => refuse .badDataType m
  | _ => refuse .badDataType m

def jump (m : Machine) (target : Datum) : Effect :=
  match target with
  | .integer a => done { m with pc := a }
  | _ => refuse .badDataType m

/-- Replace a size by the address of a fresh block, or by nil if there is no room. -/
def allocate (m : Machine) : Effect :=
  match m.read? m.sp with
  | none => crash m
  | some (.integer n) =>
    match m.heap.alloc? n with
    | some (a, heap) => done { m.write m.sp (.address a) with heap }
    | none => refuse .freeStoreError (m.write m.sp (.address 0))
  | some _ => refuse .badDataType m

/-- Give back the block at an address. -/
def release (m : Machine) (block : Datum) : Effect :=
  match block with
  | .address a =>
    match m.heap.free? a with
    | some heap => done { m with heap }
    | none => refuse .freeStoreError m
  | _ => refuse .badDataType m

/-- Check the ordinal on top against a limit. -/
def checkLimit (m : Machine) (arg : Datum) (exceeds : Int64 → Int64 → Bool) : Effect :=
  match m.read? m.sp with
  | none => crash m
  | some d =>
    match d.ordinal?, arg with
    | some v, .integer limit => if exceeds v limit then refuse .outOfRange m else done m
    | _, _ => refuse .badDataType m

/-- The most blanks with which a value can be filled up. -/
def maxBlanks : Int64 := 281474976710656

/-- The text of a value in the output. A character stands for itself, and a real may have a fixed number
of places. -/
def outputText (places : Option Nat) : Datum → Text
  | .character c => [c]
  | .real x =>
    match places with
    | some p => Binary64.printFixed p (Binary64.ofFloat x)
    | none => Binary64.print (Binary64.ofFloat x)
  | d => d.text

def writeValue (m : Machine) (width : Int64) (places : Option Nat) (d : Datum) : Effect :=
  let text := outputText places d
  let blanks := width - Int64.ofNat text.length
  if blanks > maxBlanks then crash { m with out := m.out.append text }
  else
    let fill := List.replicate blanks.toInt.toNat (Text.byte ' ')
    done { m with out := m.out.append (fill ++ text) }

/-- The number of places that an argument asks for. -/
def placesOf (n : Int64) : Nat := n.toInt.toNat

/-- Write the value on the stack below its format arguments: none, a width, or a width and a number of
places. -/
def output (m : Machine) (level : Int8) : Effect :=
  if level < 0 || 2 < level then refuse .badDataType m
  else if m.sp < Int64.ofInt level.toInt + 1 then refuse .stackUnderflow m
  else if level = 0 then pop m fun d m => writeValue m 0 none d
  else if level = 1 then
    pop m fun w m =>
      match w with
      | .integer width => pop m fun d m => writeValue m width none d
      | _ => refuse .badDataType m
  else
    pop m fun p m =>
      match p with
      | .integer places =>
        pop m fun w m =>
          match w with
          | .integer width => pop m fun d m => writeValue m width (some (placesOf places)) d
          | _ => refuse .badDataType m
      | _ => refuse .badDataType m

/-- Carry out an instruction whose operands are on the stack. -/
def execute (m : Machine) (x : Instr) : Effect :=
  match x.op with
  | .halt => (.halted, m)
  | .unary op => update m m.sp op.apply
  | .itor2 => update m (m.sp - 1) UnaryOp.itor.apply
  | .dup =>
    match m.read? m.sp with
    | some d => push m d
    | none => crash m
  | .binary op => pop m fun b m => update m m.sp fun a => op.apply a b
  | .push => push m x.arg
  | .pushVar =>
    match x.arg with
    | .integer offset =>
      match m.frameAt x.level with
      | .ok base => push m (.address (base + offset))
      | .error reason => stop reason m
    | _ => refuse .badDataType m
  | .eval => eval m x.arg
  | .assign => assign m x.arg
  | .copy => copy m x.arg
  | .pop => drop m x.arg
  | .call =>
    match x.arg with
    | .integer entry => call m x.level entry
    | _ => refuse .badDataType m
  | .calli =>
    pop m fun d m =>
      match d with
      | .integer entry => call m x.level entry
      | _ => refuse .badDataType m
  | .enter => enter m x.arg
  | .ret => ret m x.arg false
  | .retf => ret m x.arg true
  | .jump => jump m x.arg
  | .jumpi => pop m fun d m => jump m d
  | .jneq =>
    pop m fun d m =>
      match d with
      | .boolean true => done m
      | .boolean false => jump m x.arg
      | _ => refuse .badDataType m
  | .new => allocate m
  | .dispose => pop m fun d m => release m d
  | .llimit => checkLimit m x.arg fun v limit => v < limit
  | .ulimit => checkLimit m x.arg fun v limit => v > limit
  | .write => output m x.level
  | .writeln => done { m with out := (m.out.append Text.newline).flush }
  | .undefined _ => refuse .unknownInstr m

/-- The instruction at the program counter. -/
def fetch? (m : Machine) : Option Instr :=
  if 0 ≤ m.pc then m.code[m.pc.toInt.toNat]? else none

/-- One step: fetch, count, check that the operands are there, and carry out. -/
def step (m : Machine) : Effect :=
  match m.fetch? with
  | none => refuse .badFetch m
  | some x =>
    let m := { m with pc := m.pc + 1, steps := m.steps + 1 }
    match x.op.pops with
    | none => refuse .unknownInstr m
    | some n =>
      if m.sp < Int64.ofNat n then refuse .stackUnderflow m else execute m x

end MiniPascal.Machine
