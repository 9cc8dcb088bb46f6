import MiniPascal.Proofs.Machine.Action
import MiniPascal.Proofs.Machine.Trace

/-!
# The extents of a machine

The code, the sizes of the stack and of the heap, and the number of words of the memory are given when a machine is made.
No step changes them, whatever its outcome is; the memory stays a stack with a heap above it.
-/

namespace MiniPascal

namespace FreeStore

variable {s s' : FreeStore}

theorem range_of_alloc? {n a : Int64} (h : s.alloc? n = some (a, s')) : s'.base = s.base ∧ s'.size = s.size := by
  unfold alloc? at h
  split at h
  · cases h
  · split at h
    · cases h
    · cases h
      exact ⟨rfl, rfl⟩

theorem range_of_free? {a : Int64} (h : s.free? a = some s') : s'.base = s.base ∧ s'.size = s.size := by
  unfold free? at h
  split at h
  · cases h
  · cases h
    exact ⟨rfl, rfl⟩

end FreeStore

namespace Machine

/-- What is given when a machine is made: its code, the words of the stack, of the heap and of the memory, and the range
of the heap. -/
structure Extents where
  code : Array Instr
  stackSize : Int64
  heapSize : Int64
  words : Nat
  base : Int64
  size : Int64

def extents (m : Machine) : Extents := ⟨m.code, m.stackSize, m.heapSize, m.mem.size, m.heap.base, m.heap.size⟩

variable {m : Machine}

theorem extents_write (a : Int64) (d : Datum) : (m.write a d).extents = m.extents := by
  unfold extents write
  rw [Array.size_setIfInBounds]

theorem extents_placed (pc fp sp : Int64) : ({ m with pc, fp, sp } : Machine).extents = m.extents := rfl

theorem extents_move (t s n : Nat) (sp : Int64) :
    ({ m with mem := move m.mem t s n, sp } : Machine).extents = m.extents := by
  unfold extents
  rw [size_move]

theorem Acts.extents_eq {x : Instr} {e : Effect} (h : Acts m x e) : e.2.extents = m.extents := by
  cases h with
  | crash | refuse | overflow | steer | check | ret | print => rfl
  | spoil | push | replace | retf => exact extents_write _ _
  | load | store => exact extents_move _ _ _ _
  | call => simp only [done, inFrame, extents_placed, extents_write]
  | allocate hop halloc =>
    obtain ⟨hbase, hsize⟩ := FreeStore.range_of_alloc? halloc
    simp only [done, extents, write, Array.size_setIfInBounds, hbase, hsize]
  | release hop hfree =>
    obtain ⟨hbase, hsize⟩ := FreeStore.range_of_free? hfree
    simp only [done, extents, hbase, hsize]

theorem extents_step (m : Machine) : m.step.2.extents = m.extents := by
  rcases m.step_cases with hstep | ⟨cause, hstep⟩ | ⟨x, k, -, -, -, hstep⟩ <;> rw [hstep]
  · rfl
  · rfl
  · exact (execute_acts _ _).extents_eq

/-! ## Machines with a stack and a heap -/

/-- The memory of the machine is a stack with a heap above it. -/
structure Laid (m : Machine) : Prop where
  stack_pos : 0 < m.stackSize.toInt
  heap_nonneg : 0 ≤ m.heapSize.toInt
  addressable : m.stackSize.toInt + m.heapSize.toInt < 2 ^ 63
  words : (m.mem.size : Int) = m.stackSize.toInt + m.heapSize.toInt
  base : m.heap.base = m.stackSize
  size : m.heap.size = m.heapSize

namespace Laid

theorem of_extents {m' : Machine} (hm : m.Laid) (h : m'.extents = m.extents) : m'.Laid := by
  obtain ⟨-, hstack, hheap, hwords, hbase, hsize⟩ := Extents.mk.inj h
  constructor
  · rw [hstack]
    exact hm.stack_pos
  · rw [hheap]
    exact hm.heap_nonneg
  · rw [hstack, hheap]
    exact hm.addressable
  · rw [hstack, hheap, hwords]
    exact hm.words
  · rw [hstack, hbase]
    exact hm.base
  · rw [hheap, hsize]
    exact hm.size

theorem ofCode {config : Config}
    (h : config.normalize.stackSize.toInt + config.normalize.heapSize.toInt < 2 ^ 63) (code : Array Instr) :
    (ofCode config code).Laid := by
  have hstack := config.lt_stackSize
  have hheap := config.heapSize_pos
  refine ⟨show 0 < config.normalize.stackSize.toInt by omega, Int.le_of_lt hheap, h, ?_, rfl, rfl⟩
  show ((Array.replicate _ _).size : Int) = config.normalize.stackSize.toInt + config.normalize.heapSize.toInt
  rw [Array.size_replicate, Word.add_eq rfl rfl ⟨by omega, h⟩]
  omega

/-- Steps leave the stack and the heap where they are. -/
theorem after (hm : m.Laid) (n : Nat) : (m.after n).Laid := by
  induction n with
  | zero => exact hm
  | succ n ih => exact ih.of_extents (extents_step _)

theorem exists_read? (hm : m.Laid) {slot : Int64} (hlt : m.sp.toInt < m.stackSize.toInt) (hpos : 0 ≤ slot.toInt)
    (hle : slot.toInt ≤ m.sp.toInt) : ∃ d, m.read? slot = some d := by
  have hwords := hm.words
  have hheap := hm.heap_nonneg
  have hslot : slot.toInt = (slot.toInt.toNat : Int) := by omega
  rw [read?_eq hslot]
  exact ⟨_, Array.getElem?_eq_getElem (by omega)⟩

end Laid

end Machine

end MiniPascal
