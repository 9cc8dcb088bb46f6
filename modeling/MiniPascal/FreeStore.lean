/-!
# The free store

Blocks of a contiguous range of addresses are handed out and taken back. A request takes the smallest
free block that is large enough, the lowest of several, and leaves the rest of it free. A block that
comes back is merged with free neighbours, so that no two free blocks touch. Addresses and sizes are
64-bit numbers.
-/

namespace MiniPascal

/-- A run of addresses. -/
structure Block where
  addr : Int64
  size : Int64
deriving DecidableEq, Repr

/-- A range of addresses with its free and its allocated blocks. The allocated blocks are in ascending
order, and so are the free ones unless the range wraps around the end of the addresses. -/
structure FreeStore where
  base : Int64
  size : Int64
  free : List Block
  allocated : List Block
deriving DecidableEq, Repr

namespace FreeStore

def ofRange (base size : Int64) : FreeStore :=
  { base, size, free := if 0 < size then [⟨base, size⟩] else [], allocated := [] }

def contains (s : FreeStore) (a : Int64) : Bool := s.base ≤ a && a < s.base + s.size

/-- The smallest block of at least a given size, the first of several. -/
def bestFit (n : Int64) : List Block → Option Block
  | [] => none
  | b :: rest =>
    match bestFit n rest with
    | none => if n ≤ b.size then some b else none
    | some c => if n ≤ b.size && b.size ≤ c.size then some b else some c

/-- Take words from the front of a block of the list. -/
def carve (n : Int64) (block : Block) : List Block → List Block
  | [] => []
  | b :: rest =>
    if b = block then
      if b.size = n then rest else ⟨b.addr + n, b.size - n⟩ :: rest
    else b :: carve n block rest

/-- Enter a block at its place in ascending order; one that starts at the same address is replaced. -/
def place (block : Block) : List Block → List Block
  | [] => [block]
  | b :: rest =>
    if block.addr < b.addr then block :: b :: rest
    else if block.addr = b.addr then block :: rest
    else b :: place block rest

def alloc? (s : FreeStore) (n : Int64) : Option (Int64 × FreeStore) :=
  if n ≤ 0 then none
  else match bestFit n s.free with
    | none => none
    | some b =>
      some (b.addr, { s with
        free := carve n b s.free
        allocated := place ⟨b.addr, n⟩ s.allocated })

def blockAt? (s : FreeStore) (a : Int64) : Option Block := s.allocated.find? fun b => b.addr = a

/-- Part a list in two at an address by halving it: what lies at or below the address and what lies
above, if the list is in ascending order. The fuel bounds the number of halvings. -/
def partWith (a : Int64) : Nat → List Block → List Block × List Block
  | 0, blocks => ([], blocks)
  | fuel + 1, blocks =>
    let lower := blocks.take (blocks.length / 2)
    match blocks.drop (blocks.length / 2) with
    | [] => ([], [])
    | b :: upper =>
      if a < b.addr then
        let (before, after) := partWith a fuel lower
        (before, after ++ b :: upper)
      else
        let (before, after) := partWith a fuel upper
        (lower ++ b :: before, after)

/-- Part a list in two at an address; every halving removes a block, so its length is fuel enough. -/
def part (a : Int64) (blocks : List Block) : List Block × List Block := partWith a blocks.length blocks

theorem partWith_append (a : Int64) (fuel : Nat) (blocks : List Block) :
    (partWith a fuel blocks).1 ++ (partWith a fuel blocks).2 = blocks := by
  induction fuel generalizing blocks with
  | zero => rfl
  | succ fuel ih =>
    have hsplit := List.take_append_drop (blocks.length / 2) blocks
    simp only [partWith]
    split
    · next h =>
      have hlen : blocks.length = 0 := by
        have := congrArg List.length h
        simp only [List.length_drop, List.length_nil] at this
        omega
      rw [List.length_eq_zero_iff.mp hlen]
      rfl
    · next b upper h =>
      rw [h] at hsplit
      split
      · rw [← List.append_assoc, ih, hsplit]
      · rw [List.append_assoc, List.cons_append, ih, hsplit]

/-- In an ascending list the first part lies at or below the address and the second part above it. -/
theorem partWith_bounds (a : Int64) (fuel : Nat) (blocks : List Block) (hf : blocks.length ≤ fuel)
    (hs : blocks.Pairwise fun b c => b.addr < c.addr) :
    (∀ b ∈ (partWith a fuel blocks).1, b.addr ≤ a) ∧ ∀ b ∈ (partWith a fuel blocks).2, a < b.addr := by
  induction fuel generalizing blocks with
  | zero =>
    rw [List.length_eq_zero_iff.mp (Nat.le_zero.mp hf)]
    simp [partWith]
  | succ fuel ih =>
    have hsplit := List.take_append_drop (blocks.length / 2) blocks
    simp only [partWith]
    split
    · simp
    · next b upper h =>
      have hlen : upper.length + 1 = blocks.length - blocks.length / 2 := by
        have := congrArg List.length h
        simpa using this.symm
      rw [h] at hsplit
      have hs' := hsplit.symm ▸ hs
      rw [List.pairwise_append, List.pairwise_cons] at hs'
      obtain ⟨hl, ⟨hb, hu⟩, hlu⟩ := hs'
      split
      · next hlt =>
        have := ih (blocks.take (blocks.length / 2)) (by simp; omega) hl
        refine ⟨this.1, ?_⟩
        intro c hc
        rcases List.mem_append.mp hc with hc | hc
        · exact this.2 c hc
        · rcases List.mem_cons.mp hc with rfl | hc
          · exact hlt
          · exact Int64.lt_trans hlt (hb c hc)
      · next hge =>
        have := ih upper (by omega) hu
        refine ⟨?_, this.2⟩
        intro c hc
        have hba : b.addr ≤ a := Int64.not_lt.mp hge
        rcases List.mem_append.mp hc with hc | hc
        · exact Int64.le_trans (Int64.le_of_lt (hlu c hc b (by simp))) hba
        · rcases List.mem_cons.mp hc with rfl | hc
          · exact hba
          · exact this.1 c hc

/-- Put two lists of free blocks together and merge the two blocks that meet if they touch. -/
def join : List Block → List Block → List Block
  | [], after => after
  | [b], c :: after =>
    if b.addr + b.size = c.addr then ⟨b.addr, b.size + c.size⟩ :: after else b :: c :: after
  | b :: before, after => b :: join before after

/-- Enter a block among the free ones and merge it with its neighbours. Where it is entered is found by
halving, which matters for a range that wraps around the end of the addresses: its free blocks can be
out of order. -/
def giveBack (block : Block) (blocks : List Block) : List Block :=
  let (before, after) := part block.addr blocks
  join before (join [block] after)

/-- Free the block that starts at an address. Only allocated blocks can be freed. -/
def free? (s : FreeStore) (a : Int64) : Option FreeStore :=
  match s.blockAt? a with
  | none => none
  | some b =>
    some { s with
      free := giveBack b s.free
      allocated := s.allocated.filter fun c => c.addr ≠ a }

/-- The free blocks by address. They are kept in this order already, unless the range wraps around the
end of the addresses. -/
def freeBlocks (s : FreeStore) : List Block := s.free.foldl (fun blocks b => place b blocks) []

def used (s : FreeStore) : Int64 := s.allocated.foldl (fun n b => n + b.size) 0

end FreeStore

end MiniPascal
