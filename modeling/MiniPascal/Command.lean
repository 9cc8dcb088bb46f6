import MiniPascal.Compile
import MiniPascal.Machine.Run
import MiniPascal.Program.Listing

/-!
# The command line

A command compiles the named files one after the other and runs them, prints their code, or does nothing
more. It is carried out as a session that asks for the files and for time to run, so that the outer layer
only reads, prints and goes on.
-/

namespace MiniPascal

/-- What is done with the compiled programs. -/
inductive Action where
  | run
  | compile
  | disasm
deriving DecidableEq, Repr

/-- A command line. -/
structure Invocation where
  action : Action
  listing : Bool := false
  config : Machine.Config := ⟨Machine.defaultSize, Machine.defaultSize⟩
  files : List Text := []
deriving DecidableEq, Repr

namespace Action

def name : Action → Text
  | .run => Text.ofString "run"
  | .compile => Text.ofString "compile"
  | .disasm => Text.ofString "disasm"

def ofName? (name : Text) : Option Action :=
  [Action.run, .compile, .disasm].find? fun a => a.name == name

end Action

namespace Invocation

/-- A truth value given to a flag: a digit, a word or its first letter, in either case. A flag that is
given an empty value is set. -/
def boolValue? (t : Text) : Option Bool :=
  match Text.toString (t.map Text.toLower) with
  | "" | "1" | "t" | "true" | "y" | "yes" | "on" => some true
  | "0" | "f" | "false" | "n" | "no" | "off" => some false
  | _ => none

/-- A number given to a flag: an optional sign and decimal digits, within 64 bits. -/
def intValue? (t : Text) : Option Int64 :=
  let digits? (ds : Text) : Option Int :=
    if !ds.isEmpty && ds.all Text.isDigit then some (Text.digitsValue ds) else none
  let number? := match t with
    | 43 :: ds => digits? ds
    | 45 :: ds => (digits? ds).map fun n => -n
    | ds => digits? ds
  number?.bind fun n => if (Int64.ofInt n).toInt = n then some (Int64.ofInt n) else none

def setFlag? (i : Invocation) (flag value : Text) : Option Invocation :=
  match flag.toString with
  | "listing" => (boolValue? value).map fun b => { i with listing := b }
  | "verbose" => (boolValue? value).map fun _ => i
  | "trace" => if i.action = .run then (boolValue? value).map fun _ => i else none
  | "stack" =>
    if i.action = .run then
      (intValue? value).map fun n => { i with config := { i.config with stackSize := n } }
    else none
  | "heap" =>
    if i.action = .run then
      (intValue? value).map fun n => { i with config := { i.config with heapSize := n } }
    else none
  | _ => none

/-- The flags that stand alone when they are set. -/
def isSwitch (flag : Text) : Bool :=
  ["listing", "verbose", "trace"].any fun name => Text.ofString name == flag

/-- Read flags up to the first name of a file. -/
def readArgs? : Invocation → List Text → Option Invocation
  | i, [] => some i
  | i, arg :: rest =>
    match arg with
    | 45 :: 45 :: flag =>
      let name := flag.takeWhile (· ≠ 61)
      match flag.dropWhile (· ≠ 61), rest with
      | _ :: value, rest => do readArgs? (← i.setFlag? name value) rest
      | [], rest =>
        if isSwitch name then do readArgs? (← i.setFlag? name (Text.ofString "true")) rest
        else match rest with
          | value :: rest => do readArgs? (← i.setFlag? name value) rest
          | [] => none
    | _ => some { i with files := arg :: rest }

def ofArgs? : List Text → Option Invocation
  | [] => none
  | command :: args => do readArgs? { action := ← Action.ofName? command } args

end Invocation

/-- What goes to the two streams of a command. -/
structure Streams where
  out : Text := []
  err : Text := []
deriving DecidableEq, Repr

/-- What a command is about to do. -/
inductive Session.Phase where
  | reading
  | running (file : Text) (machine : Machine)
  | ended (exit : Nat)

/-- A command under way: the files that are left, and what is done at present. -/
structure Session where
  invocation : Invocation
  files : List Text
  phase : Session.Phase

namespace Session

/-- What a session needs to go on. -/
inductive Request where
  | file (name : Text)
  | time
  | exit (code : Nat)
deriving DecidableEq, Repr

def start (i : Invocation) : Session := { invocation := i, files := i.files, phase := .reading }

/-- What the session needs next. -/
def request (s : Session) : Request :=
  match s.phase with
  | .running .. => .time
  | .ended code => .exit code
  | .reading =>
    match s.files with
    | [] => .exit 0
    | name :: _ => .file name

def fail (s : Session) (message : Text) (before : Streams) : Session × Streams :=
  let line := Text.ofString "error: " ++ s.invocation.action.name ++ Text.ofString ": " ++ message ++
    Text.newline
  ({ s with phase := .ended 1 }, { before with err := before.err ++ line })

/-- The listing of a compiled program, if it is asked for. -/
def listing (i : Invocation) (p : Program) : Text :=
  if i.listing then p.listing.toOption.getD [] else []

def compiled (s : Session) (file : Text) (p : Program) : Session × Streams :=
  let shown := listing s.invocation p
  match s.invocation.action with
  | .compile => (s, { out := shown })
  | .disasm => (s, { out := shown ++ p.disassembly })
  | .run => ({ s with phase := .running file (.ofCode s.invocation.config p.code) }, { out := shown })

/-- Go on with the contents of the file that was asked for, or without it if there is no such file. -/
def supply (s : Session) (contents : Option Text) : Session × Streams :=
  match s.files with
  | [] => (s, {})
  | file :: files =>
    let s := { s with files }
    match contents with
    | none =>
      s.fail (Text.ofString "compile " ++ file ++ Text.ofString ": read file: open " ++ file ++
        Text.ofString ": no such file or directory") {}
    | some source =>
      match (compile source).result with
      | .ok p => s.compiled file p
      | .error ds =>
        let lines := ds.flatMap fun d => file ++ Text.ofString ": " ++ d.text ++ Text.newline
        s.fail (file ++ Text.ofString ": " ++ Text.ofNat ds.length ++ Text.ofString " errors")
          { err := lines }

/-- Let the running program go on for a number of looks. -/
def proceed (s : Session) (looks : Nat) : Session × Streams :=
  match s.phase with
  | .running file m =>
    let (outcome, m, out) := m.run (Writer.bounded none) looks #[]
    let streams : Streams := { out := out.toList }
    match outcome with
    | .finished => ({ s with phase := .reading }, streams)
    | .cancelled => ({ s with phase := .running file m }, streams)
    | outcome => s.fail (Text.ofString "run " ++ file ++ Text.ofString ": " ++ outcome.message) streams
  | _ => (s, {})

def standardInput : Text := [45]

/-- The number of looks for which a program runs before its output is passed on. -/
def slice : Nat := 1024

/-- Carry a session on to its end: the code of its exit and all that it wrote. The files are given, and
the standard input can be read once. The fuel bounds the number of requests. -/
def finish (files : Text → Option Text) : Nat → Text → Session → Nat × Streams
  | 0, _, _ => (1, {})
  | fuel + 1, stdin, s =>
    let goOn (stdin : Text) (r : Session × Streams) : Nat × Streams :=
      let (code, rest) := finish files fuel stdin r.1
      (code, { out := r.2.out ++ rest.out, err := r.2.err ++ rest.err })
    match s.request with
    | .exit code => (code, {})
    | .time => goOn stdin (s.proceed slice)
    | .file name =>
      if name = standardInput then goOn [] (s.supply (some stdin))
      else goOn stdin (s.supply (files name))

end Session

end MiniPascal
