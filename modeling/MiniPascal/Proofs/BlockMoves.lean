import MiniPascal.Proofs.Faults
import MiniPascal.Proofs.Machine.Extents

/-!
# Moves of blocks

Three instructions move a block of words whose address comes from the stack and whose size is their argument. They
succeed only if the blocks lie in the live stack or in the heap, and are refused otherwise. There is one gap in the check:
the address of the last word of a block is computed in 64 bits, and a block that ends beyond the last address passes.
-/

namespace MiniPascal.Machine

open Int64

/-- A block of words lies in the live stack, or it lies in the heap. -/
def Inside (m : Machine) (a n : Int64) : Prop :=
  1 ≤ a.toInt ∧ a.toInt + n.toInt ≤ m.sp.toInt + 1 ∨
    m.stackSize.toInt ≤ a.toInt ∧ a.toInt + n.toInt ≤ m.stackSize.toInt + m.heapSize.toInt

def Beyond (a n : Int64) : Prop := 2 ^ 63 < a.toInt + n.toInt

/-- An instruction whose operands are those of a move of blocks, all inside of the memory that is in use. -/
inductive MovesInside (m : Machine) : Instr → Prop
  | eval {level : Int8} {n a : Int64} (pos : 1 ≤ n.toInt) (one : 1 ≤ m.sp.toInt)
      (source : m.read? m.sp = some (.address a)) (inside : m.Inside a n)
      (room : m.sp.toInt - 1 + n.toInt < m.stackSize.toInt) :
      MovesInside m ⟨.eval, level, .integer n⟩
  | assign {level : Int8} {n a : Int64} (pos : 1 ≤ n.toInt) (words : n.toInt + 1 ≤ m.sp.toInt)
      (target : m.read? (m.sp - n) = some (.address a)) (inside : m.Inside a n) :
      MovesInside m ⟨.assign, level, .integer n⟩
  | copy {level : Int8} {n a b : Int64} (pos : 1 ≤ n.toInt) (two : 2 ≤ m.sp.toInt)
      (source : m.read? m.sp = some (.address a)) (target : m.read? (m.sp - 1) = some (.address b))
      (source_inside : m.Inside a n) (target_inside : m.Inside b n) :
      MovesInside m ⟨.copy, level, .integer n⟩

/-- An instruction that would move a block to or from words beyond the last address. -/
inductive MovesBeyond (m : Machine) : Instr → Prop
  | evaluated {level : Int8} {n a : Int64} (source : m.read? m.sp = some (.address a)) (beyond : Beyond a n) :
      MovesBeyond m ⟨.eval, level, .integer n⟩
  | pushed {level : Int8} {n : Int64} (beyond : Beyond m.sp n) : MovesBeyond m ⟨.eval, level, .integer n⟩
  | assigned {level : Int8} {n a : Int64} (target : m.read? (m.sp - n) = some (.address a)) (beyond : Beyond a n) :
      MovesBeyond m ⟨.assign, level, .integer n⟩
  | copied {level : Int8} {n a b : Int64} (source : m.read? m.sp = some (.address a))
      (target : m.read? (m.sp - 1) = some (.address b)) (beyond : Beyond a n ∨ Beyond b n) :
      MovesBeyond m ⟨.copy, level, .integer n⟩

variable {m : Machine} {a b n slot : Int64} {x : Instr}

/-! ## Copies -/

theorem slice?_eq_none (ha : 0 ≤ a.toInt) (hn : 1 ≤ n.toInt) (h : Beyond a n) : m.slice? a n = none := by
  have haupper := a.toInt_lt
  have hnupper := n.toInt_lt
  unfold Beyond at h
  -- The sum wraps to a negative number, so that the end of the block comes before its start.
  have hsum : (a + n).toInt = a.toInt + n.toInt - 2 ^ 64 := by
    rw [toInt_add, Int.bmod_def]
    omega
  unfold slice?
  rw [if_neg (by simp only [Bool.and_eq_true, decide_eq_true_eq, le_iff_toInt_le]; omega)]

theorem copyBlock_eq_move {target source sp : Int64} (hn : 0 ≤ n.toInt)
    (htarget : 0 ≤ target.toInt ∧ target.toInt + n.toInt ≤ m.mem.size)
    (hsource : 0 ≤ source.toInt ∧ source.toInt + n.toInt ≤ m.mem.size) (hsize : (m.mem.size : Int) < 2 ^ 63) :
    m.copyBlock target source n sp = done
      { m with mem := move m.mem target.toInt.toNat source.toInt.toNat n.toInt.toNat, sp } :=
  copyBlock_eq (by omega) (by omega) (by omega) (by omega) (by omega) (by omega)

theorem copyBlock_crash {target source sp : Int64} (hn : 1 ≤ n.toInt)
    (h : 0 ≤ target.toInt ∧ Beyond target n ∨ 0 ≤ source.toInt ∧ Beyond source n) :
    (m.copyBlock target source n sp).1 = .crash := by
  unfold copyBlock
  rcases h with ⟨hpos, hbeyond⟩ | ⟨hpos, hbeyond⟩
  · rw [slice?_eq_none hpos hn hbeyond]
    rfl
  · rw [slice?_eq_none hpos hn hbeyond]
    cases m.slice? target n <;> rfl

section

variable (hm : m.Laid) (hlt : m.sp.toInt < m.stackSize.toInt)
include hm hlt

theorem Laid.add_le_size (h : m.Inside a n) : 0 ≤ a.toInt ∧ a.toInt + n.toInt ≤ m.mem.size := by
  have hwords := hm.words
  have hheap := hm.heap_nonneg
  have hstack := hm.stack_pos
  unfold Inside at h
  omega

/-! ## The check of a block -/

/-- The check passes blocks that are inside, and those that end beyond the last address. -/
theorem valid_iff (hnonneg : 0 ≤ m.sp.toInt) (hn : 1 ≤ n.toInt) : m.valid a n = true ↔ m.Inside a n ∨ 1 ≤ a.toInt ∧ Beyond a n := by
  have hstack := hm.stack_pos
  have hheap := hm.heap_nonneg
  have hsum := hm.addressable
  have hlast : (a + n - 1).toInt = (a.toInt + n.toInt - 1).bmod (2 ^ 64) := by
    rw [toInt_sub, toInt_add, Word.toInt_one, Int.bmod_sub_bmod]
  have hend : (m.stackSize + m.heapSize).toInt = m.stackSize.toInt + m.heapSize.toInt :=
    Word.add_eq rfl rfl ⟨by omega, hsum⟩
  have hcontains (b : Int64) : m.heap.contains b = true ↔
      m.stackSize.toInt ≤ b.toInt ∧ b.toInt < m.stackSize.toInt + m.heapSize.toInt := by
    unfold FreeStore.contains
    rw [hm.base, hm.size, Bool.and_eq_true, decide_eq_true_eq, decide_eq_true_eq, le_iff_toInt_le,
      lt_iff_toInt_lt, hend]
  have halower := a.le_toInt
  have haupper := a.toInt_lt
  have hnupper := n.toInt_lt
  unfold valid Inside Beyond
  by_cases ha : 1 ≤ a.toInt
  · rw [if_neg (by
      simp only [Bool.or_eq_true, decide_eq_true_eq, le_iff_toInt_le, lt_iff_toInt_lt, Word.toInt_zero, Word.toInt_one]
      omega)]
    dsimp only
    rw [Bool.or_eq_true, Bool.and_eq_true, hcontains, hcontains, decide_eq_true_eq, le_iff_toInt_le, hlast]
    rw [Int.bmod_def]
    omega
  · rw [if_pos (by
      simp only [Bool.or_eq_true, decide_eq_true_eq, lt_iff_toInt_lt, Word.toInt_one]
      omega)]
    refine iff_of_false Bool.false_ne_true ?_
    omega

/-- An instruction that names a block names a positive size and an address of the check. It is refused otherwise. -/
theorem blockAt_cases (hnonneg : 0 ≤ m.sp.toInt) (arg : Datum) (hle : slot.toInt ≤ m.sp.toInt) :
    (∃ n a, arg = .integer n ∧ 1 ≤ n.toInt ∧ 1 ≤ slot.toInt ∧ m.read? slot = some (.address a) ∧
      (m.Inside a n ∨ 1 ≤ a.toInt ∧ Beyond a n) ∧ m.blockAt arg slot = .ok (n, a)) ∨
    ∃ cause, m.blockAt arg slot = .error (.fault cause) := by
  unfold blockAt
  split
  · split
    · exact .inr ⟨_, rfl⟩
    · split
      · exact .inr ⟨_, rfl⟩
      · next n hn hslot =>
        rw [lt_iff_toInt_lt, Word.toInt_one, Int.not_lt] at hn hslot
        obtain ⟨d, hd⟩ := hm.exists_read? hlt (by omega) hle
        rw [hd]
        cases d with
        | address a =>
          dsimp only
          split
          · next hvalid => exact .inl ⟨n, a, rfl, hn, hslot, rfl, (valid_iff hm hlt hnonneg hn).mp hvalid, rfl⟩
          · exact .inr ⟨_, rfl⟩
        | _ => exact .inr ⟨_, rfl⟩
  · exact .inr ⟨_, rfl⟩

theorem blockAt_eq (hn : 1 ≤ n.toInt) (hinside : m.Inside a n)
    (hslot : 1 ≤ slot.toInt) (hle : slot.toInt ≤ m.sp.toInt) (hread : m.read? slot = some (.address a)) :
    m.blockAt (.integer n) slot = .ok (n, a) := by
  rw [blockAt_address hn hslot hread]
  exact if_pos ((valid_iff hm hlt (by omega) hn).mpr (.inl hinside))

/-! ## Moves that can be made -/

section

variable (hn : 1 ≤ n.toInt) (hinside : m.Inside a n)
include hn hinside

theorem eval_eq (hone : 1 ≤ m.sp.toInt) (hread : m.read? m.sp = some (.address a))
    (hroom : m.sp.toInt - 1 + n.toInt < m.stackSize.toInt) : m.eval (.integer n) = (.success,
      { m with mem := move m.mem m.sp.toInt.toNat a.toInt.toNat n.toInt.toNat, sp := m.sp - 1 + n }) := by
  have hwords := hm.words
  have hheap := hm.heap_nonneg
  have hsum := hm.addressable
  have htop : (m.sp - 1 + n).toInt = m.sp.toInt - 1 + n.toInt := Word.add_eq (Word.sub_one (by omega)) rfl (by omega)
  unfold eval
  rw [blockAt_eq hm hlt hn hinside hone (Int.le_refl _) hread]
  dsimp only
  rw [if_neg (by rw [ge_iff_le, le_iff_toInt_le, htop]; omega)]
  exact copyBlock_eq_move (m := { m with sp := m.sp - 1 }) (by omega) ⟨by omega, show _ ≤ (m.mem.size : Int) by omega⟩
    (hm.add_le_size hlt hinside) (show (m.mem.size : Int) < _ by omega)

theorem assign_eq (hwords : n.toInt + 1 ≤ m.sp.toInt) (hread : m.read? (m.sp - n) = some (.address a)) :
    m.assign (.integer n) = (.success,
      { m with mem := move m.mem a.toInt.toNat (m.sp - n + 1).toInt.toNat n.toInt.toNat, sp := m.sp - (n + 1) }) := by
  have hsize := hm.words
  have hheap := hm.heap_nonneg
  have hsum := hm.addressable
  have hslot : (m.sp - n).toInt = m.sp.toInt - n.toInt := Word.sub_eq rfl rfl (by omega)
  have hsource : (m.sp - n + 1).toInt = m.sp.toInt - n.toInt + 1 := Word.add_eq hslot Word.toInt_one (by omega)
  rw [assign_eq_copyBlock hn hwords (blockAt_eq hm hlt hn hinside (by omega) (by omega) hread)]
  exact copyBlock_eq_move (by omega) (hm.add_le_size hlt hinside) ⟨by omega, by omega⟩ (by omega)

theorem copy_eq (hinside' : m.Inside b n) (htwo : 2 ≤ m.sp.toInt) (hread : m.read? m.sp = some (.address a))
    (hread' : m.read? (m.sp - 1) = some (.address b)) : m.copy (.integer n) = (.success,
      { m with mem := move m.mem b.toInt.toNat a.toInt.toNat n.toInt.toNat, sp := m.sp - 2 }) := by
  have hsize := hm.words
  have hheap := hm.heap_nonneg
  have hsum := hm.addressable
  have hprev : (m.sp - 1).toInt = m.sp.toInt - 1 := Word.sub_one (by omega)
  unfold copy
  rw [blockAt_eq hm hlt hn hinside (by omega) (Int.le_refl _) hread]
  dsimp only
  rw [blockAt_eq hm hlt hn hinside' (by omega) (by omega) hread']
  exact copyBlock_eq_move (by omega) (hm.add_le_size hlt hinside') (hm.add_le_size hlt hinside) (by omega)

end

/-! ## Moves that cannot be made -/

/-- An instruction is refused, or it crashes at a block that ends beyond the last address. -/
def Effect.Refused (e : Effect) (beyond : Prop) : Prop := (∃ cause, e.1 = .fault cause) ∨ e.1 = .crash ∧ beyond

variable (hnonneg : 0 ≤ m.sp.toInt) {level : Int8} {arg : Datum}
include hnonneg

theorem eval_refused (h : ¬m.MovesInside ⟨.eval, level, arg⟩) :
    (m.eval arg).Refused (m.MovesBeyond ⟨.eval, level, arg⟩) := by
  unfold eval
  rcases blockAt_cases hm hlt hnonneg arg (Int.le_refl m.sp.toInt) with
    ⟨n, a, rfl, hn, hone, hread, hinside | ⟨hpos, hbeyond⟩, heq⟩ | ⟨cause, heq⟩ <;> rw [heq] <;> dsimp only
  · split
    · exact .inl ⟨_, rfl⟩
    · next hroom =>
      rw [ge_iff_le, le_iff_toInt_le, toInt_add, Word.sub_one (by omega)] at hroom
      -- Beyond the last address the new height wraps to a negative number, and the check for room passes.
      by_cases hpushed : Beyond m.sp n
      · exact .inr ⟨copyBlock_crash hn (.inl ⟨hnonneg, hpushed⟩), .pushed hpushed⟩
      · unfold Beyond at hpushed
        rw [Word.bmod_eq ⟨by omega, by omega⟩] at hroom
        exact absurd (.eval hn hone hread hinside (by omega)) h
  · split
    · exact .inl ⟨_, rfl⟩
    · exact .inr ⟨copyBlock_crash hn (.inr ⟨by omega, hbeyond⟩), .evaluated hread hbeyond⟩
  · exact .inl ⟨cause, rfl⟩

theorem assign_refused (h : ¬m.MovesInside ⟨.assign, level, arg⟩) :
    (m.assign arg).Refused (m.MovesBeyond ⟨.assign, level, arg⟩) := by
  have hsum := hm.addressable
  have hheap := hm.heap_nonneg
  unfold assign
  split
  · next n =>
    dsimp only
    split
    · exact .inl ⟨_, rfl⟩
    · next hn =>
      split
      · exact .inl ⟨_, rfl⟩
      · next hwords =>
        rw [lt_iff_toInt_lt, Word.toInt_one] at hn
        have hnupper := n.toInt_lt
        have hslot : (m.sp - n).toInt = m.sp.toInt - n.toInt := Word.sub_eq rfl rfl (by omega)
        rw [Int64.add_sub_cancel]
        rcases blockAt_cases hm hlt hnonneg (.integer n) (show (m.sp - n).toInt ≤ m.sp.toInt by omega) with
          ⟨_, a, ⟨⟩, hn, hone, hread, hinside | ⟨hpos, hbeyond⟩, heq⟩ | ⟨cause, heq⟩ <;> rw [heq] <;> dsimp only
        · exact absurd (.assign hn (by omega) hread hinside) h
        · exact .inr ⟨copyBlock_crash hn (.inl ⟨by omega, hbeyond⟩), .assigned hread hbeyond⟩
        · exact .inl ⟨cause, rfl⟩
  · exact .inl ⟨_, rfl⟩

theorem copy_refused (h : ¬m.MovesInside ⟨.copy, level, arg⟩) :
    (m.copy arg).Refused (m.MovesBeyond ⟨.copy, level, arg⟩) := by
  unfold copy
  rcases blockAt_cases hm hlt hnonneg arg (Int.le_refl m.sp.toInt) with
    ⟨n, a, rfl, hn, hone, hread, hblock, heq⟩ | ⟨cause, heq⟩ <;> rw [heq] <;> dsimp only
  · have hprev : (m.sp - 1).toInt = m.sp.toInt - 1 := Word.sub_one (by omega)
    rcases blockAt_cases hm hlt hnonneg (.integer n) (show (m.sp - 1).toInt ≤ m.sp.toInt by omega) with
      ⟨_, b, ⟨⟩, -, htwo, hread', hblock', heq'⟩ | ⟨cause, heq'⟩ <;> rw [heq'] <;> dsimp only
    · rcases hblock with hinside | ⟨hpos, hbeyond⟩
      · rcases hblock' with hinside' | ⟨hpos, hbeyond⟩
        · exact absurd (.copy hn (by omega) hread hread' hinside hinside') h
        · exact .inr ⟨copyBlock_crash hn (.inl ⟨by omega, hbeyond⟩), .copied hread hread' (.inr hbeyond)⟩
      · exact .inr ⟨copyBlock_crash hn (.inr ⟨by omega, hbeyond⟩), .copied hread hread' (.inl hbeyond)⟩
    · exact .inl ⟨cause, rfl⟩
  · exact .inl ⟨cause, rfl⟩

theorem execute_refused (hop : x.op = .eval ∨ x.op = .assign ∨ x.op = .copy) (h : ¬m.MovesInside x) :
    (m.execute x).Refused (m.MovesBeyond x) := by
  obtain ⟨op, level, arg⟩ := x
  rcases hop with rfl | rfl | rfl
  · exact eval_refused hm hlt hnonneg h
  · exact assign_refused hm hlt hnonneg h
  · exact copy_refused hm hlt hnonneg h

end

/-! ## Steps -/

theorem movesInside_advance : m.advance.MovesInside x ↔ m.MovesInside x := by
  constructor <;> (intro h; cases h <;> constructor <;> assumption)

theorem movesBeyond_advance (h : m.advance.MovesBeyond x) : m.MovesBeyond x := by
  cases h with
  | evaluated source beyond => exact .evaluated source beyond
  | pushed beyond => exact .pushed beyond
  | assigned target beyond => exact .assigned target beyond
  | copied source target beyond => exact .copied source target beyond

theorem MovesInside.pops_le {k : Nat} (h : m.MovesInside x) (hk : x.op.pops = some k) : k ≤ m.sp.toInt := by
  cases h with
  | eval _ one _ _ _ =>
    cases hk
    exact one
  | assign _ _ _ _ =>
    cases hk
    omega
  | copy _ two _ _ _ _ =>
    cases hk
    exact two

theorem MovesInside.execute (h : m.MovesInside x) (hm : m.Laid) (hlt : m.sp.toInt < m.stackSize.toInt) :
    (m.execute x).1 = .success := by
  cases h with
  | eval pos one source inside room => exact congrArg Prod.fst (eval_eq hm hlt pos inside one source room)
  | assign pos words target inside => exact congrArg Prod.fst (assign_eq hm hlt pos inside words target)
  | copy pos two source target source_inside target_inside =>
    exact congrArg Prod.fst (copy_eq hm hlt pos source_inside target_inside two source target)

/-- **Moves of blocks are checked.** An instruction that moves blocks succeeds exactly if all of them lie in the live stack
or in the heap, and the words that it pushes below the end of the stack. Otherwise it is refused and leaves the memory and
the height of the stack, unless one of the blocks ends beyond the last address of 64 bits. -/
theorem step_moves_blocks (hm : m.Laid) (hnonneg : 0 ≤ m.sp.toInt) (hlt : m.sp.toInt < m.stackSize.toInt) {x : Instr}
    (hx : m.fetch? = some x) (hop : x.op = .eval ∨ x.op = .assign ∨ x.op = .copy) :
    m.step.1 = .success ∧ m.MovesInside x ∨
      (∃ cause, m.step.1 = .fault cause) ∧ ¬m.MovesInside x ∧ m.step.2.mem = m.mem ∧ m.step.2.sp = m.sp ∨
      m.step.1 = .crash ∧ m.MovesBeyond x := by
  obtain ⟨k, hk⟩ : ∃ k, x.op.pops = some k := by
    rcases hop with h | h | h <;> exact ⟨_, by rw [h]; rfl⟩
  have hfirst : x.op.checksFirst = true := by
    rcases hop with h | h | h <;> rw [h] <;> rfl
  by_cases hle : k ≤ m.sp.toInt
  · rw [step_eq_execute hx hk hle]
    have hlaid : m.advance.Laid := hm.of_extents rfl
    by_cases h : m.advance.MovesInside x
    · exact .inl ⟨h.execute hlaid hlt, movesInside_advance.mp h⟩
    · rcases execute_refused hlaid hlt hnonneg hop h with ⟨cause, hcause⟩ | ⟨hcrash, hbeyond⟩
      · refine .inr (.inl ⟨⟨cause, hcause⟩, fun hinside => h (movesInside_advance.mpr hinside), ?_⟩)
        rw [(execute_acts m.advance x).eq_of_checksFirst (lt_iff_toInt_lt.mpr hlt) hfirst hcause]
        exact ⟨rfl, rfl⟩
      · exact .inr (.inr ⟨hcrash, movesBeyond_advance hbeyond⟩)
  · have hshort : m.step = refuse .stackUnderflow m.advance := step_eq_underflow hx hk (by omega)
    rw [hshort]
    exact .inr (.inl ⟨⟨_, rfl⟩, fun h => hle (h.pops_le hk), rfl, rfl⟩)

/-- A machine that has pushed the address of its heap and that of its topmost word, and comes to a copy of a number of
words from there to the heap. -/
def copying (n : Int64) : Machine :=
  (ofCode { stackSize := 8, heapSize := 2 }
    #[{ op := .push, arg := .address 8 }, { op := .push, arg := .address 2 }, { op := .copy, arg := .integer n }]).after 2

theorem laid_copying (n : Int64) : (copying n).Laid := (Laid.ofCode (by decide) _).after 2

/-- One word is copied, and a copy of two is refused. -/
theorem step_moves_blocks_copying : (copying 1).step.1 = .success ∧ (copying 1).MovesInside ⟨.copy, 0, .integer 1⟩ ∧
      (copying 2).step.1 = .fault .outOfRange ∧ (copying 2).step.2.mem = (copying 2).mem := by
  refine ⟨rfl, ?_, rfl, ?_⟩
  · obtain ⟨-, hinside⟩ | ⟨⟨_, hfault⟩, -⟩ | ⟨hcrash, -⟩ :=
      step_moves_blocks (laid_copying 1) (by decide) (by decide) rfl (.inr (.inr rfl))
    · exact hinside
    · cases hfault
    · cases hcrash
  · obtain ⟨hsuccess, -⟩ | ⟨-, -, hmem, -⟩ | ⟨hcrash, -⟩ :=
      step_moves_blocks (laid_copying 2) (by decide) (by decide) rfl (.inr (.inr rfl))
    · cases hsuccess
    · exact hmem
    · cases hcrash

/-- A copy of as many words as an integer can say is not refused: it reaches outside of the memory. -/
theorem step_copying_crash : (copying 9223372036854775807).Laid ∧ 0 ≤ (copying 9223372036854775807).sp ∧
      (copying 9223372036854775807).sp < (copying 9223372036854775807).stackSize ∧
      (copying 9223372036854775807).step.1 = .crash :=
  ⟨laid_copying _, by decide, by decide, rfl⟩

end MiniPascal.Machine
