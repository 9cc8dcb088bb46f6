import MiniPascal.Text

/-!
# Outcomes of a step

A step of the machine succeeds, ends the program, or stops. It stops with a fault where the machine
refuses an instruction, and it crashes where an instruction reaches outside of the memory although no
check refused it.
-/

namespace MiniPascal

/-- Why the machine refuses an instruction. -/
inductive Fault where
  | divideByZero
  | badFetch
  | badDataType
  | unknownInstr
  | stackOverflow
  | stackUnderflow
  | freeStoreError
  | outOfRange
deriving DecidableEq, Repr

/-- Why an instruction is not carried out to its end. -/
inductive Stop where
  | fault (cause : Fault)
  | crash
deriving DecidableEq, Repr

/-- The outcome of one step. -/
inductive Status where
  | success
  | halted
  | stopped (reason : Stop)
deriving DecidableEq, Repr

namespace Fault

def name : Fault → Text
  | .divideByZero => Text.ofString "divideByZero"
  | .badFetch => Text.ofString "badFetch"
  | .badDataType => Text.ofString "badDataType"
  | .unknownInstr => Text.ofString "unknownInstr"
  | .stackOverflow => Text.ofString "stackOverflow"
  | .stackUnderflow => Text.ofString "stackUnderflow"
  | .freeStoreError => Text.ofString "freeStoreError"
  | .outOfRange => Text.ofString "outOfRange"

end Fault

namespace Status

def fault (cause : Fault) : Status := .stopped (.fault cause)

/-- A step that reached outside of the memory. -/
def crash : Status := .stopped .crash

/-- The outcomes that have a number, in the order of their numbers. -/
def all : List Status :=
  [.success, .fault .divideByZero, .fault .badFetch, .fault .badDataType, .fault .unknownInstr,
    .fault .stackOverflow, .fault .stackUnderflow, .fault .freeStoreError, .fault .outOfRange, .halted]

def name : Status → Text
  | .success => Text.ofString "success"
  | .halted => Text.ofString "halted"
  | .stopped (.fault cause) => cause.name
  | .stopped .crash => Text.ofString "crash"

/-- The name of the outcome with a given number, also for numbers that no outcome has. -/
def nameOf (number : Int) : Text :=
  let unknown := Text.ofString "result(" ++ Text.ofInt number ++ Text.ofString ")"
  match number with
  | .ofNat n => ((all[n]?).map name).getD unknown
  | .negSucc _ => unknown

/-- The report of a fault: the address of the instruction, the height of the stack, and the name of the
fault. -/
def report (pc sp : Int) (name : Text) : Text :=
  Text.ofString "runtime error @pc " ++ Text.ofInt pc ++ Text.ofString ", sp: " ++ Text.ofInt sp ++
    Text.ofString ": " ++ name

end Status

end MiniPascal
