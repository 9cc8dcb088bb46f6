import MiniPascal.Text

/-!
# Scopes

Declared names, each at the nesting level of the block that declares it. A name may be declared once at
every level, and the innermost declaration hides the others. Closing a block drops all names of its
level.
-/

namespace MiniPascal

/-- A name declared at a level, with what it stands for. -/
structure Scope.Entry (α : Type) where
  name : Text
  level : Int
  value : α
deriving DecidableEq, Repr

/-- The names that are declared at present, oldest first. -/
structure Scope (α : Type) where
  entries : List (Scope.Entry α)
deriving DecidableEq, Repr

/-- Why a name cannot be declared or found. -/
inductive Scope.Error where
  | duplicate (name : Text)
  | undefined (name : Text)
deriving DecidableEq, Repr

namespace Scope

variable {α : Type}

def Error.message : Error → Text
  | .duplicate name => Text.ofString "duplicate identifier: " ++ name
  | .undefined name => Text.ofString "undefined identifier: " ++ name

def empty : Scope α := ⟨[]⟩

def declares (s : Scope α) (name : Text) (level : Int) : Bool :=
  s.entries.any fun e => e.name = name && e.level = level

/-- Declare a name, unless it is declared at the same level already. -/
def insert (s : Scope α) (e : Entry α) : Except Error (Scope α) :=
  if s.declares e.name e.level then .error (.duplicate e.name) else .ok ⟨s.entries ++ [e]⟩

/-- The entry of the greater level, the first of two equal ones. -/
def inner (best : Option (Entry α)) (e : Entry α) : Option (Entry α) :=
  match best with
  | none => some e
  | some b => if b.level < e.level then some e else some b

/-- The innermost declaration of a name. -/
def lookup? (s : Scope α) (name : Text) : Option (Entry α) :=
  (s.entries.filter fun e => e.name = name).foldl inner none

/-- The innermost declaration of a name, or an error. -/
def lookup (s : Scope α) (name : Text) : Except Error (Entry α) :=
  match s.lookup? name with
  | some e => .ok e
  | none => .error (.undefined name)

/-- Drop the names of a level. -/
def purge (s : Scope α) (level : Int) : Scope α :=
  ⟨s.entries.filter fun e => e.level ≠ level⟩

theorem mem_purge (s : Scope α) (level : Int) (e : Entry α) :
    e ∈ (s.purge level).entries ↔ e ∈ s.entries ∧ e.level ≠ level := by
  simp [purge]

/-- The number of names of a level. -/
def countAt (s : Scope α) (level : Int) : Nat := s.entries.countP fun e => e.level = level

/-- Close a block: drop the names of its level, and tell how many there were. -/
def close (s : Scope α) (level : Int) : Nat × Scope α := (s.countAt level, s.purge level)

/-- Change what a name of a level stands for. -/
def modify (s : Scope α) (name : Text) (level : Int) (f : α → α) : Scope α :=
  ⟨s.entries.map fun e =>
    if e.name = name && e.level = level then { e with value := f e.value } else e⟩

end Scope

end MiniPascal
