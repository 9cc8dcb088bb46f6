import MiniPascal.Text

/-!
# Types

Types are compared by identity and may refer to each other in cycles through pointers, so they live in
a table and are named by their numbers in it. A description is fixed once it is entered, except that a
type may be given its name and a pointer its base later. Sizes are counted in words; sizes, offsets and
bounds are 64-bit numbers and wrap as such.
-/

namespace MiniPascal

/-- The number of a type in its table. -/
structure TypeId where
  index : Nat
deriving DecidableEq, Repr

/-- What a type is. -/
inductive TypeKind where
  | integer
  | real
  | boolean
  | character
  | array
  | record
  | enumeration
  | pointer
deriving DecidableEq, Repr

/-- A closed range of ordinal numbers. -/
structure Bounds where
  lower : Int64
  upper : Int64
deriving DecidableEq, Repr

/-- A field of a record, at an offset in words. -/
structure Field where
  name : Text
  type : TypeId
  offset : Int64
deriving DecidableEq, Repr

/-- The description of a type. The base is the element type of an array, what a pointer points to, or
the host of a subrange; the index type belongs to arrays and the fields to records. -/
structure TypeDesc where
  kind : TypeKind
  name : Text := []
  size : Int64 := 1
  bounds : Bounds := ⟨0, 0⟩
  base : Option TypeId := none
  index : Option TypeId := none
  fields : List Field := []
deriving DecidableEq, Repr

/-- Why a type cannot be formed, or two types do not fit together. -/
inductive TypeError where
  | nonOrdinalHost
  | boundsOutOfOrder
  | exceedsHost
  | nonOrdinalIndex
  | arrayTooLarge
  | mismatch
deriving DecidableEq, Repr

namespace TypeError

def message : TypeError → Text
  | .nonOrdinalHost => Text.ofString "subrange of non-ordinal type"
  | .boundsOutOfOrder => Text.ofString "subrange bounds out of order"
  | .exceedsHost => Text.ofString "subrange exceeds host type"
  | .nonOrdinalIndex => Text.ofString "array index must be ordinal"
  | .arrayTooLarge => Text.ofString "array too large"
  | .mismatch => Text.ofString "type mismatch"

end TypeError

namespace TypeKind

/-- The kinds in the order of their numbers. -/
def all : List TypeKind :=
  [.integer, .real, .boolean, .character, .array, .record, .enumeration, .pointer]

def name : TypeKind → Text
  | .integer => Text.ofString "integer"
  | .real => Text.ofString "real"
  | .boolean => Text.ofString "boolean"
  | .character => Text.ofString "char"
  | .array => Text.ofString "array"
  | .record => Text.ofString "record"
  | .enumeration => Text.ofString "enumeration"
  | .pointer => Text.ofString "pointer"

/-- The name of the kind with a given number, also for numbers that no kind has. -/
def nameOf (number : Nat) : Text :=
  match all[number]? with
  | some k => k.name
  | none => Text.ofString "kind?"

/-- The kinds whose values have ordinal numbers. -/
def isOrdinal : TypeKind → Bool
  | .integer | .boolean | .character | .enumeration => true
  | _ => false

/-- The kinds whose values take a number of words. -/
def isAggregate : TypeKind → Bool
  | .array | .record => true
  | _ => false

def isNumeric : TypeKind → Bool
  | .integer | .real => true
  | _ => false

end TypeKind

namespace Bounds

/-- The number of ordinals in a range. -/
def span (b : Bounds) : Int64 := b.upper - b.lower + 1

def contains (b : Bounds) (v : Int64) : Bool := b.lower ≤ v && v ≤ b.upper

end Bounds

namespace TypeId

def integer : TypeId := ⟨0⟩

def real : TypeId := ⟨1⟩

def boolean : TypeId := ⟨2⟩

def char : TypeId := ⟨3⟩

/-- The type of the nil pointer, which fits every pointer type. -/
def nil : TypeId := ⟨4⟩

end TypeId

namespace TypeDesc

/-- The integers are the signed 32-bit numbers. -/
def integer : TypeDesc :=
  { kind := .integer, name := Text.ofString "integer", bounds := ⟨-2147483648, 2147483647⟩ }

def real : TypeDesc := { kind := .real, name := Text.ofString "real" }

/-- Truth values count from zero. -/
def boolean : TypeDesc := { kind := .boolean, name := Text.ofString "boolean", bounds := ⟨0, 1⟩ }

def char : TypeDesc := { kind := .character, name := Text.ofString "char", bounds := ⟨0, 255⟩ }

/-- A pointer to nothing in particular. -/
def nil : TypeDesc := { kind := .pointer, name := Text.ofString "nil" }

/-- An enumeration of a number of values. -/
def enumeration (name : Text) (count : Int64) : TypeDesc :=
  { kind := .enumeration, name, bounds := ⟨0, count - 1⟩ }

/-- A pointer; its base may be given later. -/
def pointer (base : Option TypeId) : TypeDesc := { kind := .pointer, base }

/-- Whether a type restricts the values of a host type. -/
def isSubrange (d : TypeDesc) : Bool := d.kind.isOrdinal && d.base.isSome

def field? (d : TypeDesc) (name : Text) : Option Field := d.fields.find? fun f => f.name == name

end TypeDesc

/-- The types of one compilation. -/
structure TypeTable where
  descs : Array TypeDesc
deriving DecidableEq, Repr

namespace TypeTable

def builtins : TypeTable := ⟨#[.integer, .real, .boolean, .char, .nil]⟩

/-- The description of a type; a number outside the table stands for the integers. -/
def get (types : TypeTable) (t : TypeId) : TypeDesc := (types.descs[t.index]?).getD .integer

/-- Enter a description under the next free number. -/
def add (types : TypeTable) (d : TypeDesc) : TypeId × TypeTable :=
  (⟨types.descs.size⟩, ⟨types.descs.push d⟩)

def modify (types : TypeTable) (t : TypeId) (f : TypeDesc → TypeDesc) : TypeTable :=
  ⟨types.descs.modify t.index f⟩

def setBase (types : TypeTable) (t : TypeId) (base : Option TypeId) : TypeTable :=
  types.modify t fun d => { d with base }

def setName (types : TypeTable) (t : TypeId) (name : Text) : TypeTable :=
  types.modify t fun d => { d with name }

/-- Follow the hosts of subranges; the fuel bounds the number of hosts. -/
def rootFrom (types : TypeTable) : Nat → TypeId → TypeId
  | 0, t => t
  | fuel + 1, t =>
    let d := types.get t
    match d.base with
    | some host => if d.kind.isOrdinal then types.rootFrom fuel host else t
    | none => t

/-- The type without its subranges. -/
def root (types : TypeTable) (t : TypeId) : TypeId := types.rootFrom types.descs.size t

def kind (types : TypeTable) (t : TypeId) : TypeKind := (types.get t).kind

def rootKind (types : TypeTable) (t : TypeId) : TypeKind := types.kind (types.root t)

/-- The number of words of a value. -/
def size (types : TypeTable) (t : TypeId) : Int64 := (types.get t).size

/-- The ordinals of the values of a type. -/
def bounds (types : TypeTable) (t : TypeId) : Bounds := (types.get t).bounds

/-- Whether the values of a type have ordinal numbers. -/
def isOrdinal (types : TypeTable) (t : TypeId) : Bool := (types.kind t).isOrdinal

/-- Whether the values of a type are arrays or records. -/
def isAggregate (types : TypeTable) (t : TypeId) : Bool := (types.kind t).isAggregate

/-- Whether a value of the root type has to be checked before it is stored in a type. -/
def isNarrow (types : TypeTable) (t : TypeId) : Bool :=
  let d := types.get t
  d.isSubrange && d.bounds ≠ types.bounds (types.root t)

/-- Whether a value of one type may be stored in another as it is. Scalars match by kind, pointers by
what they point to, and enumerations, arrays and records by identity. -/
def same (types : TypeTable) (a b : TypeId) : Bool :=
  let a := types.root a
  let b := types.root b
  let x := types.get a
  let y := types.get b
  if a = b then true
  else if x.kind ≠ y.kind then false
  else match x.kind with
    | .integer | .real | .boolean | .character => true
    | .pointer => x.base.isNone || y.base.isNone || x.base = y.base
    | _ => false

/-- The text of a type, following bases of types without a name; the fuel bounds their number. -/
def textFrom (types : TypeTable) : Nat → Option TypeId → Text
  | _, none => Text.ofString "<nil>"
  | 0, some _ => []
  | fuel + 1, some t =>
    let d := types.get t
    if !d.name.isEmpty then d.name
    else match d.kind with
      | .array => Text.ofString "array of " ++ types.textFrom fuel d.base
      | .record => Text.ofString "record"
      | .pointer =>
        match d.base with
        | none => Text.ofString "^?"
        | some b => Text.byte '^' :: types.textFrom fuel (some b)
      | kind =>
        if d.isSubrange then types.textFrom fuel d.base ++ Text.ofString " subrange" else kind.name

/-- The text of a type: its name, or how it is made. -/
def text (types : TypeTable) (t : TypeId) : Text := types.textFrom (types.descs.size + 1) (some t)

def subrange? (types : TypeTable) (host : TypeId) (lower upper : Int64) :
    Except TypeError TypeDesc :=
  let host := types.root host
  let d := types.get host
  if !d.kind.isOrdinal then .error .nonOrdinalHost
  else if lower > upper then .error .boundsOutOfOrder
  else if !(d.bounds.contains lower && d.bounds.contains upper) then .error .exceedsHost
  else .ok { kind := d.kind, bounds := ⟨lower, upper⟩, base := some host }

/-- An array of one dimension; more dimensions are arrays of arrays. The limit on its size is that of
the 32-bit integers. -/
def array? (types : TypeTable) (index element : TypeId) : Except TypeError TypeDesc :=
  let i := types.get index
  let e := types.get element
  let span := i.bounds.span
  if !i.kind.isOrdinal then .error .nonOrdinalIndex
  else if span > 2147483647 / max e.size 1 then .error .arrayTooLarge
  else .ok
    { kind := .array, size := span * e.size, bounds := i.bounds, base := some element,
      index := some index }

/-- Place fields one after the other from an offset on; the second part is the offset after the last. -/
def placeFields (types : TypeTable) : Int64 → List (Text × TypeId) → List Field × Int64
  | offset, [] => ([], offset)
  | offset, (name, type) :: rest =>
    let (fields, total) := types.placeFields (offset + types.size type) rest
    ({ name, type, offset } :: fields, total)

/-- A record with its fields in order of declaration. -/
def record (types : TypeTable) (fields : List (Text × TypeId)) : TypeDesc :=
  let (fields, size) := types.placeFields 0 fields
  { kind := .record, size, bounds := ⟨0, size - 1⟩, fields }

end TypeTable

end MiniPascal
