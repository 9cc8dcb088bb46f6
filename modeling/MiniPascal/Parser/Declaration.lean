import MiniPascal.Scope
import MiniPascal.Tree.Basic

/-!
# Declarations

What a declared name stands for.
-/

namespace MiniPascal

/-- The kinds of declarations. -/
inductive DeclKind where
  | variable
  | constant
  | procedure
  | function
  | typeName
deriving DecidableEq, Repr

namespace DeclKind

def all : List DeclKind := [.variable, .constant, .procedure, .function, .typeName]

/-- What a kind is called in messages. -/
def name : DeclKind → Text
  | .variable => Text.ofString "variable"
  | .constant => Text.ofString "constant"
  | .procedure => Text.ofString "procedure"
  | .function => Text.ofString "function"
  | .typeName => Text.ofString "type"

/-- The name of the kind with a given number, also for numbers that no kind has. -/
def nameOf (number : Nat) : Text :=
  match all[number]? with
  | some k => k.name
  | none => Text.ofString "kind?"

end DeclKind

/-- What a name stands for. -/
inductive Declaration where
  | variable (offset : Int64) (type : TypeId)
  | constant (value : Datum) (type : TypeId)
  | procedure (routine : Routine)
  | function (routine : Routine)
  | typeName (type : TypeId)
deriving DecidableEq, Repr

namespace Declaration

def kind : Declaration → DeclKind
  | .variable .. => .variable
  | .constant .. => .constant
  | .procedure _ => .procedure
  | .function _ => .function
  | .typeName _ => .typeName

/-- A routine as the declaration of a procedure or a function. -/
def ofRoutine (function : Bool) (r : Routine) : Declaration :=
  if function then .function r else .procedure r

/-- The declaration of a variable, moved to another offset. -/
def atOffset (offset : Int64) : Declaration → Declaration
  | .variable _ type => .variable offset type
  | d => d

/-- The built-in names, all at the outermost level. -/
def builtins : Scope Declaration :=
  ⟨[⟨Text.ofChars ['i', 'n', 't', 'e', 'g', 'e', 'r'], 0, .typeName .integer⟩,
    ⟨Text.ofChars ['r', 'e', 'a', 'l'], 0, .typeName .real⟩,
    ⟨Text.ofChars ['b', 'o', 'o', 'l', 'e', 'a', 'n'], 0, .typeName .boolean⟩,
    ⟨Text.ofChars ['c', 'h', 'a', 'r'], 0, .typeName .char⟩,
    ⟨Text.ofChars ['f', 'a', 'l', 's', 'e'], 0, .constant (.boolean false) .boolean⟩,
    ⟨Text.ofChars ['t', 'r', 'u', 'e'], 0, .constant (.boolean true) .boolean⟩,
    ⟨Text.ofChars ['m', 'a', 'x', 'i', 'n', 't'], 0, .constant (.integer 2147483647) .integer⟩]⟩

end Declaration

end MiniPascal
