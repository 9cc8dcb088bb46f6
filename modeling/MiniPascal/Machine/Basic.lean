import MiniPascal.FreeStore
import MiniPascal.Instr
import MiniPascal.Machine.Status

/-!
# The state of the machine

The memory is one array of words. Word zero is never addressed, so that address zero can stand for nil;
the stack grows upwards from word one, and the heap lies above the room for the stack. Registers are
64-bit words. Output is collected and handed over in chunks.
-/

namespace MiniPascal

/-- The extent of the stack and of the heap, in words. -/
structure Machine.Config where
  stackSize : Int64 := 0
  heapSize : Int64 := 0
deriving DecidableEq, Repr

/-- Output of a program: the chunks handed over so far, and the bytes since the last of them. -/
structure Output where
  chunks : Array Text := #[]
  pending : Array UInt8 := #[]
deriving DecidableEq, Repr

namespace Output

/-- Add bytes to the pending ones. -/
def append (o : Output) (t : Text) : Output := { o with pending := o.pending ++ t }

/-- Hand over the pending bytes, if there are any. -/
def flush (o : Output) : Output :=
  if o.pending.isEmpty then o
  else { chunks := o.chunks.push o.pending.toList, pending := #[] }

end Output

/-- A machine with its code, its memory and its registers. -/
structure Machine where
  stackSize : Int64
  heapSize : Int64
  code : Array Instr
  mem : Array Datum
  heap : FreeStore
  pc : Int64 := 0
  fp : Int64 := 1
  sp : Int64 := 0
  steps : Nat := 0
  out : Output := {}
deriving DecidableEq, Repr

namespace Machine

/-- The size of a stack or a heap that is not given. -/
def defaultSize : Int64 := 4096

/-- A configuration with defaults in place of sizes that are too small. A stack has to hold more than
one empty frame. -/
def Config.normalize (c : Config) : Config :=
  { stackSize := if c.stackSize ≤ FrameSlot.count then defaultSize else c.stackSize
    heapSize := if c.heapSize ≤ 0 then defaultSize else c.heapSize }

/-- The machine at the start of its code, with cleared memory. -/
def start (stackSize heapSize : Int64) (code : Array Instr) : Machine :=
  { stackSize, heapSize, code
    mem := Array.replicate (stackSize + heapSize).toInt.toNat (.integer 0)
    heap := .ofRange stackSize heapSize }

def ofCode (config : Config) (code : Array Instr) : Machine :=
  let c := config.normalize
  start c.stackSize c.heapSize code

/-- Clear memory and registers, and forget pending output. -/
def reset (m : Machine) : Machine :=
  { start m.stackSize m.heapSize m.code with out := { m.out with pending := #[] } }

/-- The word at an address, if the memory has it. -/
def read? (m : Machine) (a : Int64) : Option Datum :=
  if 0 ≤ a then m.mem[a.toInt.toNat]? else none

/-- The memory with a word changed. -/
def write (m : Machine) (a : Int64) (d : Datum) : Machine :=
  { m with mem := m.mem.setIfInBounds a.toInt.toNat d }

/-- The index of the first of a number of words, if the memory has them all. -/
def slice? (m : Machine) (a n : Int64) : Option Nat :=
  if 0 ≤ a && a ≤ a + n && (a + n).toInt ≤ m.mem.size then some a.toInt.toNat else none

/-- Store words from an index on. -/
def blit (mem : Array Datum) (index : Nat) : List Datum → Array Datum
  | [] => mem
  | d :: rest => blit (mem.setIfInBounds index d) (index + 1) rest

/-- Copy words from one index to another; the source is read before anything is stored. -/
def move (mem : Array Datum) (target source count : Nat) : Array Datum :=
  blit mem target (mem.extract source (source + count)).toList

/-- Whether a block of words lies wholly in the live stack or wholly in the heap. -/
def valid (m : Machine) (a n : Int64) : Bool :=
  if n ≤ 0 || a < 1 then false
  else
    let last := a + n - 1
    last ≤ m.sp || m.heap.contains a && m.heap.contains last

end Machine

end MiniPascal
