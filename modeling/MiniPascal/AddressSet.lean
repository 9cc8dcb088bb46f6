/-!
# Sets of code addresses

A bitmap of 64-bit words with one bit for every address, grown to the word of the largest one ever added. Removing an
address clears its bit and keeps the room.
-/

namespace MiniPascal

/-- A finite set of code addresses. -/
structure AddressSet where
  words : Array (BitVec 64)
deriving DecidableEq, Repr

namespace AddressSet

def empty : AddressSet := ⟨#[]⟩

/-- The bit of an address in its word. -/
def mask (a : Nat) : BitVec 64 := BitVec.twoPow 64 (a % 64)

/-- The word of a given number; one for which there is no room is zero. -/
def word (s : AddressSet) (i : Nat) : BitVec 64 := s.words.getD i 0#64

/-- Whether an address is a member; negative numbers never are. -/
def contains (s : AddressSet) : Int → Bool
  | .ofNat a => (s.word (a / 64) &&& mask a) ≠ 0#64
  | .negSucc _ => false

def withRoom (s : AddressSet) (a : Nat) : AddressSet :=
  ⟨s.words ++ Array.replicate (a / 64 + 1 - s.words.size) 0#64⟩

/-- Add an address. A negative number is no address. -/
def insert? (s : AddressSet) : Int → Option AddressSet
  | .ofNat a => some ⟨(s.withRoom a).words.modify (a / 64) (· ||| mask a)⟩
  | .negSucc _ => none

/-- The set without a number. -/
def erase (s : AddressSet) : Int → AddressSet
  | .ofNat a => ⟨s.words.modify (a / 64) (· &&& ~~~mask a)⟩
  | .negSucc _ => s

/-- Remove a number, and tell whether it was a member. -/
def remove (s : AddressSet) (a : Int) : Bool × AddressSet := if s.contains a then (true, s.erase a) else (false, s)

/-- A word without its lowest bit. -/
def dropLowest (w : BitVec 64) : BitVec 64 := w &&& ~~~mask w.ctz.toNat

theorem getLsbD_mask (a j : Nat) : (mask a).getLsbD j = decide (j = a % 64) := by
  have := Nat.mod_lt a (show 0 < 64 by decide)
  simp only [mask, BitVec.getLsbD_twoPow, this, decide_true, Bool.true_and, eq_comm (a := a % 64)]

theorem getLsbD_dropLowest {w : BitVec 64} (h : w ≠ 0#64) (j : Nat) :
    (dropLowest w).getLsbD j = (w.getLsbD j && decide (j ≠ w.ctz.toNat)) := by
  have hlt : w.ctz.toNat < 64 := BitVec.lt_def.mp (BitVec.ctz_lt_iff_ne_zero.mpr h)
  rw [dropLowest, BitVec.getLsbD_and, BitVec.getLsbD_not, getLsbD_mask, Nat.mod_eq_of_lt hlt]
  by_cases hj : j < 64
  · simp [hj]
  · simp [BitVec.getLsbD_of_ge w j (by omega)]

theorem dropLowest_lt {w : BitVec 64} (h : w ≠ 0#64) : (dropLowest w).toNat < w.toNat := by
  refine Nat.lt_of_le_of_ne (BitVec.toNat_and .. ▸ Nat.and_le_left) fun heq => ?_
  have hbit := getLsbD_dropLowest h w.ctz.toNat
  rw [BitVec.eq_of_toNat_eq heq, BitVec.getLsbD_true_ctz_of_ne_zero h] at hbit
  simp at hbit

/-- The places of the bits of a word, the lowest one first. -/
def bits (w : BitVec 64) : List Nat :=
  if _h : w = 0#64 then [] else w.ctz.toNat :: bits (dropLowest w)
termination_by w.toNat
decreasing_by exact dropLowest_lt _h

/-- The addresses of the bits of words, the first of them the word of a given number. -/
def membersFrom : Nat → List (BitVec 64) → List Nat
  | _, [] => []
  | i, w :: rest => (bits w).map (64 * i + ·) ++ membersFrom (i + 1) rest

/-- The members in ascending order. -/
def toList (s : AddressSet) : List Nat := membersFrom 0 s.words.toList

def size (s : AddressSet) : Nat := s.words.foldl (fun n w => n + w.cpop.toNat) 0

/-- The lowest address of words, the first of them the word of a given number; minus one if there is none. -/
def leastFrom : Nat → List (BitVec 64) → Int
  | _, [] => -1
  | i, w :: rest => if w ≠ 0#64 then (64 * i + w.ctz.toNat : Nat) else leastFrom (i + 1) rest

/-- The least member as a number, minus one if there is none. -/
def least (s : AddressSet) : Int := leastFrom 0 s.words.toList

/-- Whether no address was ever added. -/
def isFresh (s : AddressSet) : Bool := s.words.isEmpty

end AddressSet

end MiniPascal
