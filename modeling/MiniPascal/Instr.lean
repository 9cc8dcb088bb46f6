import MiniPascal.Datum.Printing

/-!
# Instructions

The instructions of the stack machine. Every instruction has an operation, a level and an argument,
though few operations use all of them. Code may hold numbers that stand for no operation.
-/

namespace MiniPascal

/-- The six comparisons. -/
inductive Relation where
  | less
  | lessEqual
  | equal
  | greaterEqual
  | greater
  | notEqual
deriving DecidableEq, Repr

/-- Operations that replace the top of the stack. -/
inductive UnaryOp where
  | neg
  | itor
  | round
  | trunc
  | abs
  | atan
  | cos
  | exp
  | log
  | sin
  | sqr
  | sqrt
  | odd
  | pred
  | succ
  | ord
  | chr
  | not
deriving DecidableEq, Repr

/-- Operations that replace the two topmost words by one. -/
inductive BinaryOp where
  | add
  | sub
  | mul
  | div
  | rem
  | band
  | bor
  | bxor
  | shl
  | shr
  | compare (relation : Relation)
  | or
  | and
deriving DecidableEq, Repr

/-- The operation of an instruction. -/
inductive Opcode where
  | halt
  | unary (op : UnaryOp)
  | itor2
  | dup
  | binary (op : BinaryOp)
  | push
  | pushVar
  | eval
  | assign
  | copy
  | pop
  | call
  | calli
  | enter
  | ret
  | retf
  | jump
  | jumpi
  | jneq
  | new
  | dispose
  | llimit
  | ulimit
  | write
  | writeln
  | undefined (number : UInt8)
deriving DecidableEq, Repr

/-- Which operands the text of an instruction shows. -/
inductive Form where
  | bare
  | arg
  | level
  | levelArg
deriving DecidableEq, Repr

/-- An instruction of the machine. -/
structure Instr where
  op : Opcode
  level : Int8 := 0
  arg : Datum := .integer 0
deriving DecidableEq, Repr

namespace Opcode

/-- The operations in the order of their numbers. -/
def all : List Opcode :=
  [.halt, .unary .neg, .unary .itor, .itor2, .unary .round, .unary .trunc, .unary .abs,
   .unary .atan, .unary .cos, .unary .exp, .unary .log, .unary .sin, .unary .sqr, .unary .sqrt,
   .unary .odd, .unary .pred, .unary .succ, .unary .ord, .unary .chr, .dup, .unary .not,
   .binary .add, .binary .sub, .binary .mul, .binary .div, .binary .rem, .binary .band,
   .binary .bor, .binary .bxor, .binary .shl, .binary .shr, .binary (.compare .less),
   .binary (.compare .lessEqual), .binary (.compare .equal), .binary (.compare .greaterEqual),
   .binary (.compare .greater), .binary (.compare .notEqual), .binary .or, .binary .and, .push,
   .pushVar, .eval, .assign, .copy, .pop, .call, .calli, .enter, .ret, .retf, .jump, .jumpi, .jneq,
   .new, .dispose, .llimit, .ulimit, .write, .writeln]

def ofNumber (number : UInt8) : Opcode := (all[number.toNat]?).getD (.undefined number)

def name : Opcode → Text
  | .halt => Text.ofString "halt"
  | .unary .neg => Text.ofString "neg"
  | .unary .itor => Text.ofString "itor"
  | .itor2 => Text.ofString "itor2"
  | .unary .round => Text.ofString "round"
  | .unary .trunc => Text.ofString "trunc"
  | .unary .abs => Text.ofString "abs"
  | .unary .atan => Text.ofString "atan"
  | .unary .cos => Text.ofString "cos"
  | .unary .exp => Text.ofString "exp"
  | .unary .log => Text.ofString "log"
  | .unary .sin => Text.ofString "sin"
  | .unary .sqr => Text.ofString "sqr"
  | .unary .sqrt => Text.ofString "sqrt"
  | .unary .odd => Text.ofString "odd"
  | .unary .pred => Text.ofString "pred"
  | .unary .succ => Text.ofString "succ"
  | .unary .ord => Text.ofString "ord"
  | .unary .chr => Text.ofString "chr"
  | .dup => Text.ofString "dup"
  | .unary .not => Text.ofString "not"
  | .binary .add => Text.ofString "add"
  | .binary .sub => Text.ofString "sub"
  | .binary .mul => Text.ofString "mul"
  | .binary .div => Text.ofString "div"
  | .binary .rem => Text.ofString "rem"
  | .binary .band => Text.ofString "band"
  | .binary .bor => Text.ofString "bor"
  | .binary .bxor => Text.ofString "bxor"
  | .binary .shl => Text.ofString "shl"
  | .binary .shr => Text.ofString "shr"
  | .binary (.compare .less) => Text.ofString "lt"
  | .binary (.compare .lessEqual) => Text.ofString "lte"
  | .binary (.compare .equal) => Text.ofString "equ"
  | .binary (.compare .greaterEqual) => Text.ofString "gte"
  | .binary (.compare .greater) => Text.ofString "gt"
  | .binary (.compare .notEqual) => Text.ofString "neq"
  | .binary .or => Text.ofString "or"
  | .binary .and => Text.ofString "and"
  | .push => Text.ofString "push"
  | .pushVar => Text.ofString "pushvar"
  | .eval => Text.ofString "eval"
  | .assign => Text.ofString "assign"
  | .copy => Text.ofString "copy"
  | .pop => Text.ofString "pop"
  | .call => Text.ofString "call"
  | .calli => Text.ofString "calli"
  | .enter => Text.ofString "enter"
  | .ret => Text.ofString "ret"
  | .retf => Text.ofString "retf"
  | .jump => Text.ofString "jump"
  | .jumpi => Text.ofString "jumpi"
  | .jneq => Text.ofString "jneq"
  | .new => Text.ofString "new"
  | .dispose => Text.ofString "dispose"
  | .llimit => Text.ofString "llimit"
  | .ulimit => Text.ofString "ulimit"
  | .write => Text.ofString "write"
  | .writeln => Text.ofString "writeln"
  | .undefined n => Text.ofString "op(" ++ Text.ofNat n.toNat ++ Text.ofString ")"

def ofName? (name : Text) : Option Opcode := all.find? fun op => op.name == name

/-- Whether a number stands for an operation. -/
def isDefined : Opcode → Bool
  | .undefined _ => false
  | _ => true

/-- The least number of words that an operation needs on the stack. -/
def pops : Opcode → Option Nat
  | .unary _ | .dup => some 1
  | .itor2 | .binary _ | .assign | .copy => some 2
  | .eval | .calli | .jumpi | .jneq | .new | .dispose | .llimit | .ulimit | .write => some 1
  | .halt | .push | .pushVar | .pop | .call | .enter | .ret | .retf | .jump | .writeln => some 0
  | .undefined _ => none

/-- The operands that an operation uses. -/
def form : Opcode → Form
  | .push | .eval | .assign | .copy | .pop | .enter | .ret | .retf | .jump | .jneq | .llimit
  | .ulimit => .arg
  | .calli | .write => .level
  | .pushVar | .call => .levelArg
  | _ => .bare

end Opcode

namespace Instr

/-- The mnemonic filled up to the column of the operands. -/
def column (x : Instr) : Text := x.op.name.padRight 8 ++ Text.ofString " "

def levelText (x : Instr) : Text := Text.ofInt x.level.toInt

/-- The mnemonic and the operands that the operation uses. -/
def text (x : Instr) : Text :=
  match x.op.form with
  | .bare => x.op.name
  | .arg => x.column ++ x.arg.text
  | .level => x.column ++ x.levelText
  | .levelArg => x.column ++ x.levelText ++ Text.ofString ", " ++ x.arg.text

/-- One line of a disassembly: the address, the text and a newline. -/
def disassemble (address : Nat) (x : Instr) : Text :=
  (Text.ofNat address).padLeft 5 ++ Text.ofString ": " ++ x.text ++ Text.newline

end Instr

/-- The words at the start of an activation frame: the frame of the enclosing block, the frame of the
caller, the address to return to, and the result of a function. -/
inductive FrameSlot where
  | base
  | oldFrame
  | returnAddress
  | result
deriving DecidableEq, Repr

namespace FrameSlot

/-- The offset of a word from the start of its frame. -/
def offset : FrameSlot → Int64
  | .base => 0
  | .oldFrame => 1
  | .returnAddress => 2
  | .result => 3

/-- The number of words before the local variables. -/
def count : Int64 := 4

end FrameSlot

end MiniPascal
