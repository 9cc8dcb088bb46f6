import MiniPascal.Proofs.Machine.Containment
import MiniPascal.Proofs.Machine.Trace

/-!
# Arbitrary code

A machine may be given any code at all and may be made to go on after faults. From a reset on it stays in its
memory for as long as addresses cannot have wrapped around.
-/

namespace MiniPascal.Machine

/-- A machine with the extents of a configuration and with some code. -/
structure Configured (config : Config) (code : Array Instr) (m : Machine) : Prop where
  stackSize : m.stackSize = config.normalize.stackSize
  heapSize : m.heapSize = config.normalize.heapSize
  code : m.code = code

/-- A machine whose memory is as long as its configuration says, with its stack pointer in the stack, nil in word
zero, integers of 32 bits, and a heap that is tiled by its blocks. -/
structure Intact (config : Config) (m : Machine) : Prop where
  sp_nonneg : 0 ≤ m.sp.toInt
  sp_lt : m.sp.toInt < config.normalize.stackSize.toInt
  memory : (m.mem.size : Int) = config.normalize.stackSize.toInt + config.normalize.heapSize.toInt
  nil : m.mem[0]? = some (.integer 0)
  integers : ∀ (a : Nat) (v : Int64), m.mem[a]? = some (.integer v) → -2 ^ 31 ≤ v.toInt ∧ v.toInt < 2 ^ 31
  tiled : m.heap.Tiled
  lo : m.heap.lo = config.normalize.stackSize.toInt
  hi : m.heap.hi = config.normalize.stackSize.toInt + config.normalize.heapSize.toInt

variable {config : Config} {code : Array Instr} {m : Machine} {S : Setup} {r : Int}

theorem Config.stackSize_lt (h : config.stackSize.toInt < 2 ^ 30) : config.normalize.stackSize.toInt < 2 ^ 30 := by
  show Int64.toInt (if config.stackSize ≤ FrameSlot.count then defaultSize else config.stackSize) < _
  split
  · decide
  · exact h

theorem Config.heapSize_lt (h : config.heapSize.toInt < 2 ^ 30) : config.normalize.heapSize.toInt < 2 ^ 30 := by
  show Int64.toInt (if config.heapSize ≤ 0 then defaultSize else config.heapSize) < _
  split
  · decide
  · exact h

def setup (hstack : config.stackSize.toInt < 2 ^ 30) (hheap : config.heapSize.toInt < 2 ^ 30)
    (hcode : code.size < 2 ^ 31) (hargs : ∀ x ∈ code, x.arg.Immediate) : Setup where
  stack := config.normalize.stackSize.toInt.toNat
  heap := config.normalize.heapSize.toInt.toNat
  code := code
  stack_gt := by have := config.lt_stackSize; omega
  stack_lt := by have := Config.stackSize_lt hstack; omega
  heap_pos := by have := config.heapSize_pos; omega
  heap_lt := by have := Config.heapSize_lt hheap; omega
  code_lt := hcode
  args := hargs

theorem contained_reset (hstack : m.stackSize.toInt = S.stack) (hheap : m.heapSize.toInt = S.heap)
    (hcode : m.code = S.code) : Contained S (2 ^ 31) m.reset := by
  have hgt := S.stack_gt
  have hlt := S.stack_lt
  have hpos := S.heap_pos
  have hlt' := S.heap_lt
  have hsize : (m.stackSize + m.heapSize).toInt.toNat = S.stack + S.heap := by
    rw [Word.add_eq hstack hheap (by omega)]
    omega
  have hmem : m.reset.mem = Array.replicate (S.stack + S.heap) (.integer 0) := by
    rw [← hsize]
    rfl
  refine ⟨hcode, hstack, hheap, ?_, ?_, ?_, ?_, ?_, ?_, ?_, hstack, ?_⟩
  · rw [hmem, Array.size_replicate]
  · rw [hmem, Array.getElem?_replicate, if_pos (by omega)]
  · intro a d hd
    rw [hmem, Array.getElem?_replicate] at hd
    split at hd
    · cases hd
      exact ⟨by decide, by decide⟩
    · cases hd
  · exact Int.le_refl 0
  · show (0 : Int) < S.stack
    omega
  · show -2 ^ 31 ≤ (1 : Int64).toInt ∧ (1 : Int64).toInt ≤ 2 ^ 31
    decide
  · apply FreeStore.Sound.ofRange
    omega
  · show m.stackSize.toInt + m.heapSize.toInt = _
    rw [hstack, hheap]

/-- Addresses have moved by an integer in each step. -/
theorem Contained.after (h : Contained S (2 ^ 31) m) {n : Nat} (hn : n < 2 ^ 30) :
    Contained S (2 ^ 31 * (n + 1)) (m.after n) := by
  induction n with
  | zero => exact h
  | succ n ih =>
    have hstep := (ih (by omega)).step (by omega) (by omega)
    rw [show (2 : Int) ^ 31 * ((n + 1 : Nat) + 1) = 2 ^ 31 * (n + 1) + 2 ^ 31 by omega]
    exact hstep.2

/-- A machine with any code stays in its memory from a reset on, for less than `2 ^ 30` steps, whatever their outcomes
are. No step crashes, and the machine can be reset again. -/
theorem after_reset_intact (hm : m.Configured config code) (hstack : config.stackSize.toInt < 2 ^ 30)
    (hheap : config.heapSize.toInt < 2 ^ 30) (hcode : code.size < 2 ^ 31) (hargs : ∀ x ∈ code, x.arg.Immediate)
    {n : Nat} (hn : n < 2 ^ 30) : (m.reset.after n).step.1 ≠ .crash ∧ Intact config (m.reset.after n) ∧
      (m.reset.after n).Configured config code := by
  have hgt := config.lt_stackSize
  have hpos := config.heapSize_pos
  have hstart : Contained (setup hstack hheap hcode hargs) (2 ^ 31) m.reset := by
    apply contained_reset
    · rw [hm.stackSize]
      exact (Int.toNat_of_nonneg (by omega)).symm
    · rw [hm.heapSize]
      exact (Int.toNat_of_nonneg (by omega)).symm
    · exact hm.code
  have h := hstart.after hn
  have hs : ((setup hstack hheap hcode hargs).stack : Int) = config.normalize.stackSize.toInt :=
    Int.toNat_of_nonneg (by omega)
  have hh : ((setup hstack hheap hcode hargs).heap : Int) = config.normalize.heapSize.toInt :=
    Int.toNat_of_nonneg (by omega)
  refine ⟨(h.step (by omega) (by omega)).1, ?_, ?_⟩
  · constructor
    · exact h.sp_nonneg
    · rw [← hs]
      exact h.sp_lt
    · rw [h.memory, ← hs, ← hh]
      rfl
    · exact h.nil
    · intro a v hv
      exact h.data a _ hv
    · exact h.store.tiled
    · rw [h.lo, hs]
    · rw [h.hi, hs, hh]
  · constructor
    · rw [← Int64.toInt_inj, h.stackSize, hs]
    · rw [← Int64.toInt_inj, h.heapSize, hh]
    · exact h.code

/-- Code that moves an address away from the memory, takes it for the frame of its caller, returns and goes on in
circles, with an operation that does not exist. -/
def strayingCode : Array Instr :=
  #[{ op := .push, arg := .integer 2147483647 }, { op := .push, arg := .address (-2147483648) }, { op := .binary .sub },
    { op := .push, arg := .integer 7 }, { op := .push, arg := .address 0 }, { op := .undefined 200 },
    { op := .retf, arg := .integer 2147483647 }, { op := .new }, { op := .jump, arg := .integer 1 }]

theorem after_reset_intact_straying : (((ofCode ⟨7, 2⟩ strayingCode).reset.after 1000).step.1 ≠ .crash ∧
      Intact ⟨7, 2⟩ ((ofCode ⟨7, 2⟩ strayingCode).reset.after 1000) ∧
        ((ofCode ⟨7, 2⟩ strayingCode).reset.after 1000).Configured ⟨7, 2⟩ strayingCode) ∧
      strayingCode.size < 2 ^ 31 ∧ ∀ x ∈ strayingCode, x.arg.Immediate :=
  ⟨after_reset_intact ⟨rfl, rfl, rfl⟩ (by decide) (by decide) (by decide) (by decide) (by decide), by decide, by decide⟩

end MiniPascal.Machine
