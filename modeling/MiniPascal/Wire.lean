import MiniPascal.AddressSet
import MiniPascal.Machine.Basic

/-!
# Wire form

The binary form in which values go to a log. Every value starts with a tag in the three high bits of a
byte; the five low bits hold a small number or announce how many bytes of a larger one follow, the most
significant first.
-/

namespace MiniPascal.Wire

/-- The most significant bytes first, a given number of them. -/
def bigEndian : Nat → Nat → Text
  | 0, _ => []
  | count + 1, n => (n >>> (8 * count)).toUInt8 :: bigEndian count n

/-- A tag with a number below `2 ^ 64`, in the fewest bytes. -/
def tagged (tag : UInt8) (n : Nat) : Text :=
  if n < 24 then [tag + n.toUInt8]
  else if n < 0x100 then (tag + 24) :: bigEndian 1 n
  else if n < 0x10000 then (tag + 25) :: bigEndian 2 n
  else if n < 0x100000000 then (tag + 26) :: bigEndian 4 n
  else (tag + 27) :: bigEndian 8 n

/-- An integer; a negative one is encoded by the number after its magnitude. -/
def int (v : Int64) : Text :=
  if 0 ≤ v then tagged 0x00 v.toInt.toNat else tagged 0x20 (v.toInt.natAbs + 1)

def string (t : Text) : Text := tagged 0x60 t.length ++ t

/-- No value. -/
def none : Text := [0xF6]

/-- Items between an opening mark and a break. -/
def array (items : List Text) : Text := [0x9F] ++ items.flatten ++ [0xFF]

/-- Named values. -/
def record (fields : List (String × Text)) : Text :=
  tagged 0xA0 fields.length ++ fields.flatMap fun (name, value) => string (Text.ofString name) ++ value

end MiniPascal.Wire

namespace MiniPascal

/-- Integers are numbers on the wire and all other data texts. -/
def Datum.wire : Datum → Text
  | .integer v => Wire.int v
  | d => Wire.string d.text

def Instr.wire (x : Instr) : Text := Wire.string x.text

/-- A set is the array of its members; one to which nothing was ever added is no value. -/
def AddressSet.wire (s : AddressSet) : Text :=
  if s.isFresh then Wire.none
  else Wire.array (s.toList.map fun a => Wire.int (Int64.ofNat a))

/-- A free store is summed up by its range and the extent of its blocks. -/
def FreeStore.wire (s : FreeStore) : Text :=
  Wire.record
    [("base", Wire.int s.base), ("size", Wire.int s.size), ("used", Wire.int s.used),
      ("free_blocks", Wire.int (Int64.ofNat s.free.length))]

/-- A machine is summed up by its registers and its heap. -/
def Machine.wire (m : Machine) : Text :=
  Wire.record
    [("pc", Wire.int m.pc), ("fp", Wire.int m.fp), ("sp", Wire.int m.sp), ("heap", m.heap.wire)]

end MiniPascal
