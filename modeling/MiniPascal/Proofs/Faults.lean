import MiniPascal.Proofs.FrameCondition
import MiniPascal.Proofs.Machine.Containment

/-!
# What a fault leaves

An instruction that is refused leaves the frame, the output and the free store as they are, and it has touched no word
below its operands. Most operations check everything before they change anything, so that a fault of theirs leaves the
whole machine but for the program counter. An operation on values has taken its operands already, and has put a zero in
their place.
-/

namespace MiniPascal.Machine

variable {m m' : Machine}

/-- The words of the frame are on the stack, so there is room for a result in their place. -/
theorem sp_lt_of_frame {fp n stackSize sp : Int64} (hfp : ¬(fp < 1))
    (hframe : ¬(fp + FrameSlot.result.offset > sp)) (hd : (m.read? (fp + FrameSlot.result.offset)).isSome = true)
    (hn : ¬(n < 0)) (hsp : sp < stackSize) : (fp - 1 - n).toInt + 1 < stackSize.toInt := by
  rw [Int64.lt_iff_toInt_lt] at hfp hn hsp
  rw [gt_iff_lt, Int64.lt_iff_toInt_lt] at hframe
  rw [Word.toInt_one] at hfp
  rw [Word.toInt_zero] at hn
  have hpos : 0 ≤ (fp + FrameSlot.result.offset).toInt := nonneg_of_read? hd
  have hoffset : FrameSlot.result.offset.toInt = 3 := rfl
  have hfplt := fp.toInt_lt
  have hnlt := n.toInt_lt
  -- A sum that leaves the range of words is negative, and no word is read there.
  have hsum : (fp + FrameSlot.result.offset).toInt = fp.toInt + 3 := by
    rw [Int64.toInt_add, hoffset] at hpos ⊢
    rw [Int.bmod_def] at hpos ⊢
    omega
  rw [Word.sub_eq (Word.sub_one (by omega)) rfl (by omega)]
  omega

theorem Acts.eq_of_checksFirst {x : Instr} {e : Effect} (h : Acts m x e) (hsp : m.sp < m.stackSize)
    (hfirst : x.op.checksFirst = true) {cause : Fault} (hcause : e.1 = .fault cause) : e.2 = m := by
  cases h with
  | refuse _ hop hsp =>
    rw [hsp hfirst]
    rfl
  | @overflow n _ _ hop hframe hfull =>
    have hlt := sp_lt_of_frame hframe.fp hframe.top hframe.result hframe.count hsp
    have hupper := m.stackSize.toInt_lt
    have hlower := (m.fp - 1 - n).le_toInt
    rw [ge_iff_le, Int64.le_iff_toInt_le, Word.add_one (by omega)] at hfull
    omega
  | spoil _ hplace =>
    cases hop : x.op <;> rw [hop] at hfirst hplace <;> cases hplace <;> cases hfirst
  | steer _ hgood => exact absurd hcause (hgood _)
  | _ => cases hcause

/-- What a refused instruction leaves of the machine before it. -/
structure Spares (m : Machine) (x : Instr) (m' : Machine) : Prop where
  /-- The program counter has moved on by one. -/
  pc : m'.pc = m.pc + 1
  fp : m'.fp = m.fp
  out : m'.out = m.out
  heap : m'.heap = m.heap
  /-- The words below the operands are as before. -/
  below : ∀ a : Nat, a ≤ m.sp.toInt - x.op.pops.getD 0 → m'.mem[a]? = m.mem[a]?
  /-- Operands that are missing are found before any of them is taken. -/
  short : m.sp.toInt < x.op.pops.getD 0 → m'.mem = m.mem ∧ m'.sp = m.sp
  /-- An operation that checks first leaves the whole stack. -/
  checked : x.op.checksFirst = true → m'.mem = m.mem ∧ m'.sp = m.sp
  /-- An operation on two words has put a zero in their place. -/
  binary : ∀ op, x.op = .binary op → 2 ≤ m.sp.toInt → m'.sp.toInt = m.sp.toInt - 1 ∧ m'.read? m'.sp = some (.integer 0)
  /-- An operation on the top has put a zero there. -/
  unary : ∀ op, x.op = .unary op → 1 ≤ m.sp.toInt → m'.sp = m.sp ∧ m'.read? m'.sp = some (.integer 0)

/-- An instruction that is refused before any change leaves all but the program counter. -/
theorem spares_advance {x : Instr} (hop : x.op.isOperator = true → m.sp.toInt < x.op.pops.getD 0) :
    Spares m x m.advance where
  pc := rfl
  fp := rfl
  out := rfl
  heap := rfl
  below := fun _ _ => rfl
  short := fun _ => ⟨rfl, rfl⟩
  checked := fun _ => ⟨rfl, rfl⟩
  binary := fun op hx hle => by
    have hlt : m.sp.toInt < 2 := by simpa [hx, Opcode.pops, Opcode.isOperator] using hop
    omega
  unary := fun op hx hle => by
    have hlt : m.sp.toInt < 1 := by simpa [hx, Opcode.pops, Opcode.isOperator] using hop
    omega

theorem read?_write {a : Int64} (h : (m.read? a).isSome = true) (d : Datum) : (m.write a d).read? a = some d := by
  obtain ⟨e, he⟩ := Option.isSome_iff_exists.mp h
  unfold read? at he ⊢
  split at he
  · next hpos =>
    rw [if_pos hpos]
    exact Array.getElem?_setIfInBounds_self_of_lt (Array.getElem?_eq_some_iff.mp he).1
  · cases he

/-- An instruction that is refused while it is carried out. -/
theorem Acts.spares {x : Instr} {e : Effect} (h : Acts m.advance x e) (hsp : m.sp < m.stackSize) {k : Nat}
    (hk : x.op.pops = some k) (hle : k ≤ m.sp.toInt) {cause : Fault} (hcause : e.1 = .fault cause) :
    cause ≠ .badFetch ∧ Spares m x e.2 := by
  have hleave := h.eq_of_checksFirst hsp
  have hgetD : x.op.pops.getD 0 = k := by rw [hk]; rfl
  cases h with
  | refuse hne hop hsp =>
    cases hcause
    have hoperator {P : Prop} (h : x.op.isOperator = true) : P := by
      rw [hop] at h
      cases h
    exact ⟨hne, rfl, rfl, rfl, rfl, fun _ _ => rfl, fun _ => by omega, fun hfirst => ⟨rfl, hsp hfirst⟩,
      fun op hx => hoperator (by rw [hx]; rfl), fun op hx => hoperator (by rw [hx]; rfl)⟩
  | overflow hop =>
    rw [hleave (by rw [hop]; rfl) hcause]
    cases hcause
    exact ⟨by decide, spares_advance (by rw [hop]; nofun)⟩
  | spoil hne hplace hread hd =>
    cases hcause
    obtain ⟨habove, -, hchecked, htop⟩ := operand?_bounds (m := m) hk hle hplace
    have hzero := read?_write (m := m.advance) hread
    refine ⟨hne, rfl, rfl, rfl, rfl, fun i hi => ?_, fun _ => by omega, fun hfirst => ?_, fun op hx htwo => ?_,
      fun op hx hone => ?_⟩
    · exact Array.getElem?_setIfInBounds_ne (by omega)
    · rw [hchecked] at hfirst
      cases hfirst
    · obtain ⟨rfl, hsum⟩ := htop (by rw [hx]; rfl)
      rw [hx] at hk
      cases hk
      exact ⟨hsum.trans (by omega), by rw [hd (by rw [hx]; nofun)]; exact hzero _⟩
    · obtain ⟨rfl, hsum⟩ := htop (by rw [hx]; rfl)
      rw [hx] at hk
      cases hk
      exact ⟨Int64.toInt_inj.mp (hsum.trans (by omega)), by rw [hd (by rw [hx]; nofun)]; exact hzero _⟩
  | steer _ hgood => exact absurd hcause (hgood _)
  | _ => cases hcause

/-- **A step that faults leaves the state intact.** A fault for want of an instruction leaves the machine as it is. Any
other fault leaves the frame, the output, the free store and the words below the operands of the instruction, with the
program counter moved on by one; where the operands are missing or the operation checks first the whole stack is left,
and an operation on values leaves a zero in place of its operands. -/
theorem step_fault_spares {cause : Fault} (hsp : m.sp < m.stackSize) (h : m.step = (.fault cause, m')) :
    m.fetch? = none ∧ cause = .badFetch ∧ m' = m ∨ ∃ x, m.fetch? = some x ∧ cause ≠ .badFetch ∧ Spares m x m' := by
  cases hfetch : m.fetch? with
  | none =>
    unfold step at h
    rw [hfetch] at h
    cases h
    exact .inl ⟨rfl, rfl, rfl⟩
  | some x =>
    refine .inr ⟨x, rfl, ?_⟩
    cases hpops : x.op.pops with
    | none =>
      unfold step at h
      simp only [hfetch, hpops] at h
      cases h
      refine ⟨by decide, spares_advance fun hop => ?_⟩
      cases hx : x.op <;> rw [hx] at hop hpops <;> cases hpops
      cases hop
    | some k =>
      by_cases hle : k ≤ m.sp.toInt
      · have hacts := execute_acts m.advance x
        rw [← step_eq_execute hfetch hpops hle, h] at hacts
        exact hacts.spares hsp hpops hle rfl
      · rw [step_eq_underflow hfetch hpops (by omega)] at h
        cases h
        refine ⟨by decide, spares_advance fun _ => ?_⟩
        rw [hpops]
        exact Int.not_le.mp hle

/-- A machine with two operands on its stack, the divisor zero, at an instruction that divides. -/
def dividing : Machine :=
  { stackSize := 6
    heapSize := 2
    code := #[{ op := .binary .div }]
    mem := #[.integer 0, .integer 7, .integer 5, .integer 0, .integer 0, .integer 0, .integer 0, .integer 0]
    heap := .ofRange 6 2
    sp := 3 }

/-- The refused division leaves the word below its operands, and a zero in their place. -/
theorem step_fault_spares_division :
    ∃ m', dividing.step = (.fault .divideByZero, m') ∧ m'.mem[1]? = some (.integer 7) ∧ m'.sp.toInt = 2 ∧
      m'.read? m'.sp = some (.integer 0) := by
  refine ⟨dividing.step.2, rfl, ?_⟩
  obtain ⟨hnone, -⟩ | ⟨x, hx, -, hspares⟩ := step_fault_spares (m := dividing) (by decide) rfl
  · cases hnone
  · cases hx
    exact ⟨hspares.below 1 (by decide), hspares.binary .div rfl (by decide)⟩

end MiniPascal.Machine
