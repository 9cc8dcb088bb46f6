import MiniPascal.Proofs.Machine.Extents

/-!
# The frame condition of a step

The words that an instruction takes from the stack are given by a table of the operations. What the interpreter touches
is tied to that table here: an instruction changes the memory only above the words that it leaves on the stack, unless it
stores a block or returns the result of a function. Apart from the memory every component of the machine has its own few
operations that change it.
-/

namespace MiniPascal.Machine

open Word

variable {m : Machine} {x : Instr} {sp a : Int64}

theorem nonneg_of_read? (h : (m.read? a).isSome = true) : 0 ≤ a.toInt := by
  unfold read? at h
  split at h
  · next hnonneg => exact Int64.le_iff_toInt_le.mp hnonneg
  · cases h

/-- Where an operation puts its result: above the words below its operands, and for an operation on values on top. -/
theorem operand?_bounds {op : Opcode} {k : Nat} (hk : op.pops = some k) (hle : k ≤ m.sp.toInt) {a sp : Int64}
    (h : m.operand? op = some (a, sp)) : m.sp.toInt - k < a.toInt ∧ a.toInt ≤ m.sp.toInt ∧ op.checksFirst = false ∧
      (op.isOperator = true → sp = a ∧ sp.toInt = m.sp.toInt - k + 1) := by
  have hupper := m.sp.toInt_lt
  have hprev : 1 ≤ m.sp.toInt → (m.sp - 1).toInt = m.sp.toInt - 1 := fun _ =>
    Word.sub_one (by omega)
  cases op <;> cases h <;> cases hk
  · exact ⟨by omega, by omega, rfl, fun _ => ⟨rfl, by omega⟩⟩
  · exact ⟨by omega, by omega, rfl, nofun⟩
  · exact ⟨by omega, by omega, rfl, fun _ => ⟨rfl, by omega⟩⟩
  · exact ⟨by omega, by omega, rfl, nofun⟩

/-- A word of the block whose address is in a word of the stack. -/
def InBlock (m : Machine) (slot n : Int64) (a : Nat) : Prop :=
  ∃ t : Int64, m.read? slot = some (.address t) ∧ t.toInt ≤ a ∧ a < t.toInt + n.toInt

/-- The words that an instruction may change, by the height of the stack after it. -/
def Touches (m : Machine) (x : Instr) (top : Int64) (a : Nat) : Prop :=
  match x.op, x.arg with
  | .assign, .integer n => m.InBlock (m.sp - n) n a
  | .copy, .integer n => m.InBlock (m.sp - 1) n a
  | .assign, _ | .copy, _ => False
  | .retf, _ => a = top.toInt
  | op, _ => m.sp.toInt - op.pops.getD 0 < a ∧ a < m.stackSize.toInt

/-- What an instruction leaves of a machine. -/
structure Leaves (m : Machine) (x : Instr) (m' : Machine) : Prop where
  mem : ∀ a : Nat, ¬m.Touches x m'.sp a → m'.mem[a]? = m.mem[a]?
  heap : x.op ≠ .new → x.op ≠ .dispose → m'.heap = m.heap
  fp : x.op ≠ .call → x.op ≠ .calli → x.op ≠ .ret → x.op ≠ .retf → m'.fp = m.fp
  out : x.op ≠ .write → x.op ≠ .writeln → m'.out = m.out

/-- Most operations change no other words than those above what they leave on the stack. -/
theorem touches_iff {k : Nat} (hk : x.op.pops = some k) (hassign : x.op ≠ .assign) (hcopy : x.op ≠ .copy)
    (hretf : x.op ≠ .retf) {top : Int64} {a : Nat} :
    m.Touches x top a ↔ m.sp.toInt - k < a ∧ a < m.stackSize.toInt := by
  unfold Touches
  split
  · contradiction
  · contradiction
  · contradiction
  · contradiction
  · contradiction
  · rw [hk]
    rfl

/-- An operation on values changes no other word than the one that it replaces. -/
theorem Touches.of_operand? {k : Nat} (hk : x.op.pops = some k) (hle : k ≤ m.sp.toInt)
    (hlt : m.sp.toInt < m.stackSize.toInt) (h : m.operand? x.op = some (a, sp)) (top : Int64) :
    m.Touches x top a.toInt.toNat := by
  obtain ⟨hlow, hhigh, -⟩ := operand?_bounds hk hle h
  have hne {op : Opcode} (hnone : m.operand? op = none) : x.op ≠ op := fun hop => by
    rw [hop, hnone] at h
    cases h
  exact (touches_iff hk (hne rfl) (hne rfl) (hne rfl)).mpr (by omega)

theorem leaves_advance : m.Leaves x m.advance := ⟨fun _ _ => rfl, fun _ _ => rfl, fun _ _ _ _ => rfl, fun _ _ => rfl⟩

/-- An instruction that changes no more than a word that it touches. -/
theorem leaves_write (h : m.Touches x sp a.toInt.toNat) (d : Datum) : m.Leaves x ({ m.advance with sp }.write a d) where
  mem := fun i hi => Array.getElem?_setIfInBounds_ne fun heq : a.toInt.toNat = i => hi (heq ▸ h)
  heap := fun _ _ => rfl
  fp := fun _ _ _ _ => rfl
  out := fun _ _ => rfl

/-- Words that the memory has do not go beyond the last address. -/
theorem slice?_inv {n : Int64} {t : Nat} (h : m.slice? a n = some t) :
    t = a.toInt ∧ 0 ≤ n.toInt ∧ a.toInt + n.toInt < 2 ^ 63 := by
  unfold slice? at h
  split at h
  · next hslice =>
    cases h
    simp only [Bool.and_eq_true, decide_eq_true_eq, Int64.le_iff_toInt_le, toInt_zero] at hslice
    obtain ⟨⟨hnonneg, hle⟩, -⟩ := hslice
    have haupper := a.toInt_lt
    have hlower := n.le_toInt
    have hupper := n.toInt_lt
    -- A sum that leaves the range of words would be negative.
    rw [Int64.toInt_add, Int.bmod_def] at hle
    split at hle <;> omega
  · cases h

theorem leaves_move {n : Int64} {t s : Nat} (htarget : m.slice? a n = some t)
    (h : ∀ i : Nat, a.toInt ≤ i → i < a.toInt + n.toInt → m.Touches x sp i) :
    m.Leaves x { m.advance with mem := move m.mem t s n.toInt.toNat, sp } where
  mem := fun i hi => by
    obtain ⟨ht, hn, -⟩ := slice?_inv htarget
    refine getElem?_move_of_outside (Decidable.byContradiction fun hin => ?_)
    exact hi (h i (by omega) (by omega))
  heap := fun _ _ => rfl
  fp := fun _ _ _ _ => rfl
  out := fun _ _ => rfl

theorem mem_inFrame {base entry : Int64} (hnonneg : 0 ≤ sp.toInt) (hupper : sp.toInt + 4 < 2 ^ 63) {i : Nat}
    (hi : i ≤ sp.toInt ∨ sp.toInt + 4 < i) : (m.inFrame sp base entry).mem[i]? = m.mem[i]? := by
  have hslot (slot : FrameSlot) : (sp + 1 + slot.offset).toInt.toNat ≠ i := by
    have hoffset : 0 ≤ slot.offset.toInt ∧ slot.offset.toInt < 4 := by cases slot <;> decide
    have hsum : (sp + 1 + slot.offset).toInt = sp.toInt + 1 + slot.offset.toInt :=
      add_eq (add_one (by omega)) rfl (by omega)
    omega
  unfold inFrame write
  dsimp only
  rw [Array.getElem?_setIfInBounds_ne (hslot _), Array.getElem?_setIfInBounds_ne (hslot _),
    Array.getElem?_setIfInBounds_ne (hslot _), Array.getElem?_setIfInBounds_ne (hslot _)]

theorem leaves_inFrame {k : Nat} {base entry : Int64} (hstack : m.stackSize.toInt + 4 ≤ 2 ^ 63)
    (hlt : m.sp.toInt < m.stackSize.toInt) (hk : x.op.pops = some k) (hle : k ≤ m.sp.toInt)
    (hop : x.op = .call ∧ sp = m.sp ∨ x.op = .calli ∧ sp = m.sp - 1) (hroom : ¬sp + FrameSlot.count ≥ m.stackSize) :
    m.Leaves x (m.advance.inFrame sp base entry) := by
  have hprev : 1 ≤ m.sp.toInt → (m.sp - 1).toInt = m.sp.toInt - 1 := fun _ =>
    sub_one (by omega)
  obtain ⟨hlow, hhigh⟩ : m.sp.toInt - k ≤ sp.toInt ∧ sp.toInt ≤ m.sp.toInt := by
    rcases hop with ⟨hop, rfl⟩ | ⟨hop, rfl⟩ <;> rw [hop] at hk <;> cases hk <;> omega
  have hroom : (sp + FrameSlot.count).toInt < m.stackSize.toInt := Int64.lt_iff_toInt_lt.mp (Int64.not_le.mp hroom)
  rw [add_eq rfl (show FrameSlot.count.toInt = 4 from rfl) (by omega)] at hroom
  have hplain {op : Opcode} (hcall : op ≠ .call) (hcalli : op ≠ .calli) : x.op ≠ op := by
    rcases hop with ⟨hop, -⟩ | ⟨hop, -⟩ <;> rw [hop]
    · exact hcall.symm
    · exact hcalli.symm
  refine ⟨fun i hi => mem_inFrame (m := m.advance) (by omega) (by omega) ?_, fun _ _ => by unfold inFrame; rfl,
    fun hcall hcalli => ?_, fun _ _ => by unfold inFrame; rfl⟩
  · refine Decidable.byContradiction fun hin => hi ((touches_iff hk ?_ ?_ ?_).mpr (by omega)) <;>
      exact hplain nofun nofun
  · exact (hop.elim (hcall ·.1) (hcalli ·.1)).elim

/-- An instruction leaves what it does not touch. -/
theorem Acts.leaves {e : Effect} (h : Acts m.advance x e) (hstack : m.stackSize.toInt + 4 ≤ 2 ^ 63)
    (hlt : m.sp.toInt < m.stackSize.toInt) {k : Nat} (hk : x.op.pops = some k) (hle : k ≤ m.sp.toInt)
    (hcrash : e.1 ≠ .crash) : m.Leaves x e.2 := by
  cases h with
  | crash => exact absurd rfl hcrash
  | refuse | steer | check => exact ⟨fun _ _ => rfl, fun _ _ => rfl, fun _ _ _ _ => rfl, fun _ _ => rfl⟩
  | overflow hop => exact ⟨fun _ _ => rfl, fun _ _ => rfl, fun _ _ _ h => absurd hop h, fun _ _ => rfl⟩
  | spoil _ hplace => exact leaves_write (.of_operand? hk hle hlt hplace _) _
  | replace hplace => exact leaves_write (.of_operand? hk hle hlt hplace _) _
  | push hop hroom =>
    have hsum : (m.sp + 1).toInt = m.sp.toInt + 1 := add_one (by omega)
    have hroom : (m.sp + 1).toInt < m.stackSize.toInt := Int64.lt_iff_toInt_lt.mp (Int64.not_le.mp hroom)
    refine leaves_write ((touches_iff hk ?_ ?_ ?_).mpr ⟨by change _ < ((m.sp + 1).toInt.toNat : Int); omega,
      by change ((m.sp + 1).toInt.toNat : Int) < _; omega⟩) _ <;>
      rcases hop with hop | hop | hop <;> rw [hop] <;> nofun
  | @load n t s hop harg hroom htarget =>
    have hroom : (m.sp - 1 + n).toInt < m.stackSize.toInt := Int64.lt_iff_toInt_lt.mp (Int64.not_le.mp hroom)
    obtain ⟨-, hn, hbelow⟩ := slice?_inv (m := m) (a := m.sp) htarget
    obtain rfl : k = 1 := by
      rw [hop] at hk
      exact (Option.some.inj hk).symm
    rw [add_eq (sub_one (by omega)) rfl (by omega)] at hroom
    refine leaves_move (m := m) htarget fun i hlow hhigh => (touches_iff hk ?_ ?_ ?_).mpr ⟨?_, ?_⟩
    · rw [hop]; nofun
    · rw [hop]; nofun
    · rw [hop]; nofun
    · exact Int.lt_of_lt_of_le (Int.sub_lt_self _ Int.one_pos) hlow
    · exact Int.lt_of_lt_of_le hhigh (by change m.sp.toInt + _ ≤ _; omega)
  | @store slot a n sp t s hop harg hread htarget =>
    refine leaves_move (m := m) htarget fun i hlow hhigh => ?_
    obtain ⟨op, level, arg⟩ := x
    subst harg
    rcases hop with ⟨rfl, rfl⟩ | ⟨rfl, rfl⟩ <;> exact ⟨a, hread, hlow, hhigh⟩
  | call hop hroom => exact leaves_inFrame hstack hlt hk hle hop hroom
  | ret hop =>
    refine ⟨fun _ _ => rfl, fun _ _ => rfl, fun _ _ hret hretf => ?_, fun _ _ => rfl⟩
    exact (hop.elim hret hretf).elim
  | @retf pc fp sp d hop hread =>
    have htop : m.Touches x sp sp.toInt.toNat := by
      obtain ⟨op, level, arg⟩ := x
      cases hop
      exact Int.toNat_of_nonneg (nonneg_of_read? hread)
    exact ⟨(leaves_write htop d).mem, fun _ _ => rfl, fun _ _ _ hretf => absurd hop hretf, fun _ _ => rfl⟩
  | allocate hop halloc =>
    have htop : m.Touches x m.sp m.sp.toInt.toNat := .of_operand? hk hle hlt (by rw [hop]; rfl) _
    exact ⟨(leaves_write htop _).mem, fun h => absurd hop h, fun _ _ _ _ => rfl, fun _ _ => rfl⟩
  | release hop hfree =>
    exact ⟨fun _ _ => rfl, fun _ h => absurd hop h, fun _ _ _ _ => rfl, fun _ _ => rfl⟩
  | print hop =>
    refine ⟨fun _ _ => rfl, fun _ _ => rfl, fun _ _ _ _ => rfl, fun hwrite hwriteln => ?_⟩
    exact (hop.elim hwrite hwriteln).elim

/-- **The frame condition of a step.** Whatever its outcome is, a step changes the memory only in the block that it stores,
in the word of the result of a function, or above the words that its operation leaves on the stack. The blocks of the free
store change only where one is made or given back, the base of the frame only at calls and returns, and the output only
where something is written. -/
theorem step_leaves (hstack : m.stackSize.toInt + 4 ≤ 2 ^ 63) (hlt : m.sp.toInt < m.stackSize.toInt)
    (hx : m.fetch? = some x) (hcrash : m.step.1 ≠ .crash) : m.Leaves x m.step.2 := by
  cases hk : x.op.pops with
  | none =>
    unfold step
    simp only [hx, hk]
    exact leaves_advance
  | some k =>
    by_cases hle : k ≤ m.sp.toInt
    · rw [step_eq_execute hx hk hle] at hcrash ⊢
      exact (execute_acts _ _).leaves hstack hlt hk hle hcrash
    · rw [step_eq_underflow hx hk (by omega)]
      exact leaves_advance

/-- A machine that comes to store the two words on top of its stack in its heap. -/
def storing : Machine :=
  { stackSize := 6
    heapSize := 2
    code := #[{ op := .assign, arg := .integer 2 }]
    mem := #[.integer 0, .address 6, .integer 7, .integer 8, .integer 9, .integer 0, .integer 0, .integer 0]
    heap := .ofRange 6 2
    sp := 3 }

/-- The words are stored, and the word below the block that holds them is left. -/
theorem step_leaves_storing :
    storing.step.1 = .success ∧ storing.step.2.mem[6]? = some (.integer 7) ∧ storing.step.2.mem[7]? = some (.integer 8) ∧
      storing.step.2.mem[4]? = some (.integer 9) := by
  refine ⟨rfl, rfl, rfl, ?_⟩
  refine (step_leaves (m := storing) (by decide) (by decide) rfl nofun).mem 4 fun ⟨t, ht, hlow, _⟩ => ?_
  cases ht
  exact absurd hlow (by decide)

end MiniPascal.Machine
