import MiniPascal.Proofs.Machine.Computing
import MiniPascal.Proofs.Machine.Extents

/-!
# Operands above a height

Code that only computes works on the words above a height of the stack. Such a state is described
by these words, the topmost one first, and by a machine with which it agrees in everything else.
-/

namespace MiniPascal.Machine

open List

/-- Two machines that differ at most in the words of the stack from a height on, in the height of
the stack, and in where they are. -/
structure Agrees (height : Nat) (m m' : Machine) : Prop where
  extents : m'.extents = m.extents
  fp : m'.fp = m.fp
  heap : m'.heap = m.heap
  out : m'.out = m.out
  below : ∀ a ≤ height, m'.mem[a]? = m.mem[a]?
  above : ∀ a : Nat, m.stackSize.toInt ≤ a → m'.mem[a]? = m.mem[a]?

/-- A state at an address of the code, with operands above a height, that agrees with a machine up to it. -/
structure Carries (m₀ : Machine) (height pc : Nat) (ds : List Datum) (m : Machine) : Prop where
  agrees : Agrees height m₀ m
  pc : m.pc.toInt = pc
  sp : m.sp.toInt = height + ds.length
  room : height + ds.length < m₀.stackSize.toInt
  operands : Stacked m.mem height ds

/-- A state with operands whose memory has words of one kind only. -/
structure Bears (P : Datum → Prop) (m₀ : Machine) (height pc : Nat) (ds : List Datum) (m : Machine) :
    Prop extends Carries m₀ height pc ds m where
  words : ∀ (a : Nat) (d : Datum), m.mem[a]? = some d → P d

/-- An instruction leads to operands, or is refused and leaves what lies below them. -/
def Computed (P : Datum → Prop) (m₀ : Machine) (height pc : Nat) (e : Effect) :
    Except Fault (List Datum) → Prop
  | .ok ds => e.1 = .success ∧ Bears P m₀ height pc ds e.2
  | .error f => e.1 = .fault f ∧ Agrees height m₀ e.2

/-- A machine whose code can be addressed, and whose memory is a stack with a heap above it. -/
structure Ready (m : Machine) : Prop where
  laid : m.Laid
  code_lt : m.code.size < 2 ^ 63

/-- A machine whose code can be addressed, and whose memory has all words of the stack. -/
structure Roomy (m : Machine) : Prop where
  words : m.stackSize.toInt ≤ m.mem.size
  code_lt : m.code.size < 2 ^ 63

variable {P : Datum → Prop} {m₀ m m' : Machine} {height pc : Nat} {ds : List Datum} {d : Datum}
  {x : Instr}

theorem Ready.of_extents (hm : m.Ready) (h : m'.extents = m.extents) : m'.Ready := by
  have hcode : m'.code = m.code := congrArg Extents.code h
  refine ⟨hm.laid.of_extents h, ?_⟩
  rw [hcode]
  exact hm.code_lt

theorem Ready.roomy (hm : m.Ready) : m.Roomy := by
  have hwords := hm.laid.words
  have hheap := hm.laid.heap_nonneg
  exact ⟨by omega, hm.code_lt⟩

theorem Agrees.refl (height : Nat) (m : Machine) : Agrees height m m :=
  ⟨rfl, rfl, rfl, rfl, fun _ _ => rfl, fun _ _ => rfl⟩

namespace Carries

theorem code_eq (h : Carries m₀ height pc ds m) : m.code = m₀.code := congrArg Extents.code h.agrees.extents

theorem stackSize_eq (h : Carries m₀ height pc ds m) : m.stackSize = m₀.stackSize :=
  congrArg Extents.stackSize h.agrees.extents

theorem size_eq (h : Carries m₀ height pc ds m) : m.mem.size = m₀.mem.size := congrArg Extents.words h.agrees.extents

/-- Nothing is asked of the words of a state. -/
theorem bears (h : Carries m₀ height pc ds m) : Bears (fun _ => True) m₀ height pc ds m :=
  ⟨h, fun _ _ _ => trivial⟩

theorem read_top (h : Carries m₀ height pc (d :: ds) m) : m.read? m.sp = some d := by
  have hsp := h.sp
  rw [length_cons] at hsp
  rw [read?_eq (n := height + ds.length + 1) (by omega)]
  exact h.operands.1

theorem exists_room (h : Carries m₀ height pc ds m) :
    ∃ room : Nat, height + room + 1 = m₀.stackSize.toInt := by
  have hroom := h.room
  exact ⟨(m₀.stackSize.toInt - height - 1).toNat, by omega⟩

theorem dropped (h : Carries m₀ height pc (d :: ds) m) : Carries m₀ height pc ds { m with sp := m.sp - 1 } := by
  have hsp := h.sp
  have hroom := h.room
  rw [length_cons] at hsp hroom
  have hprev : (m.sp - 1).toInt = height + ds.length := by
    rw [Word.sub_one (by omega), hsp]
    omega
  exact ⟨{ h.agrees with }, h.pc, hprev, by omega, h.operands.2⟩

/-- A word right above the operands that are kept is stored. -/
theorem stored (hm : m₀.Roomy) (h : Carries m₀ height pc ds m) {vs : List Datum}
    (hvs : Stacked m.mem height vs) (hroom : height + vs.length + 1 < m₀.stackSize.toInt) {sp : Int64}
    (hsp : sp.toInt = height + vs.length + 1) (d : Datum) :
    Carries m₀ height pc (d :: vs) ({ m with sp }.write sp d) := by
  have hwords := hm.words
  have hindex : sp.toInt.toNat = height + vs.length + 1 := by omega
  have hother {a : Nat} (ha : a ≠ sp.toInt.toNat) :
      (m.mem.setIfInBounds sp.toInt.toNat d)[a]? = m.mem[a]? :=
    Array.getElem?_setIfInBounds_ne (Ne.symm ha)
  refine ⟨⟨(extents_write _ _).trans h.agrees.extents, h.agrees.fp, h.agrees.heap, h.agrees.out,
    fun a ha => (hother (by omega)).trans (h.agrees.below a ha),
    fun a ha => (hother (by omega)).trans (h.agrees.above a ha)⟩, h.pc, ?_, ?_, ?_⟩
  · show sp.toInt = _
    rw [length_cons]
    omega
  · rw [length_cons]
    omega
  · show Stacked (m.mem.setIfInBounds sp.toInt.toNat d) height (d :: vs)
    rw [hindex]
    exact hvs.push (by rw [h.size_eq]; omega) d

/-- The instruction at the address is carried out with the address moved on. -/
theorem step_eq (h : Carries m₀ height pc ds m) (hm : m₀.Roomy) (hx : m₀.code[pc]? = some x) {n : Nat}
    (hn : x.op.pops = some n) (hle : n ≤ height + ds.length) :
    Carries m₀ height (pc + 1) ds m.advance ∧ m.step = m.advance.execute x := by
  have hcode : m.code[pc]? = some x := by rw [h.code_eq]; exact hx
  have hlt := (Array.getElem?_eq_some_iff.mp hx).1
  have hcode_lt := hm.code_lt
  have hnext : (m.pc + 1).toInt = (pc + 1 : Nat) := Word.add_eq h.pc Word.toInt_one (by omega)
  have hfetch : m.fetch? = some x := (fetch?_eq h.pc).trans hcode
  exact ⟨⟨{ h.agrees with }, hnext, h.sp, h.room, h.operands⟩,
    step_eq_execute hfetch hn (by rw [h.sp]; omega)⟩

/-- The address on top is replaced by the word that is stored there, if it may be read. -/
theorem load (hm : m₀.Ready) {a : Int64} (h : Carries m₀ height pc (.address a :: ds) m)
    (hread : m.valid a 1 = true → m.read? a = some d) : Computed (fun _ => True) m₀ height pc
      (m.eval (.integer 1)) (if m.valid a 1 then .ok (d :: ds) else .error .outOfRange) := by
  have hsp := h.sp
  have hroom := h.room
  have hsize := h.size_eq
  have hwords := hm.laid.words
  have haddressable := hm.laid.addressable
  have hheap := hm.laid.heap_nonneg
  rw [length_cons] at hsp hroom
  unfold Machine.eval
  rw [blockAt_address (n := 1) (by decide) (by omega) h.read_top]
  by_cases hvalid : m.valid a 1 = true
  · rw [if_pos hvalid, if_pos hvalid]
    have hread := hread hvalid
    unfold read? at hread
    split at hread
    · next hnonneg =>
      rw [Int64.le_iff_toInt_le, Word.toInt_zero] at hnonneg
      obtain ⟨hlt, -⟩ := Array.getElem?_eq_some_iff.mp hread
      show Computed _ _ _ _ (if m.sp - 1 + 1 ≥ m.stackSize then _ else
        copyBlock { m with sp := m.sp - 1 } m.sp a 1 (m.sp - 1 + 1)) _
      rw [Int64.sub_add_cancel, if_neg, copyBlock_eq (t := m.sp.toInt.toNat)
        (s := a.toInt.toNat) (k := 1) (by omega) (by omega) rfl (by show _ ≤ m.mem.size; omega)
        (by exact hlt) (by omega)]
      · show Computed _ _ _ _ (done { m with mem := move m.mem _ _ 1 }) _
        rw [move_eq, blockOf_one hread]
        exact ⟨rfl, (h.stored hm.roomy h.operands.2 (by omega) (by omega) d).bears⟩
      · rw [ge_iff_le, Int64.le_iff_toInt_le, h.stackSize_eq]
        omega
    · cases hread
  · rw [if_neg hvalid, if_neg hvalid]
    exact ⟨rfl, h.agrees⟩

/-- A word of the machine outside of the unused part of the stack can be read as before. -/
theorem read?_eq_of_used (h : Carries m₀ height pc ds m) (hsp : m₀.sp.toInt = height) {a : Int64}
    (hused : ¬(m₀.sp < a ∧ a < m₀.stackSize)) :
    m.valid a 1 = m₀.valid a 1 ∧ m.read? a = m₀.read? a := by
  have hm := h.sp
  have hroom := h.room
  rw [Int64.lt_iff_toInt_lt, Int64.lt_iff_toInt_lt] at hused
  constructor
  · have hle : a ≤ m.sp ↔ a ≤ m₀.sp := by
      rw [Int64.le_iff_toInt_le, Int64.le_iff_toInt_le]
      omega
    unfold valid
    rw [Int64.add_sub_cancel, h.agrees.heap]
    simp only [hle]
  · unfold read?
    split
    · by_cases hbelow : a.toInt ≤ height
      · exact h.agrees.below _ (by omega)
      · exact h.agrees.above _ (by omega)
    · rfl

end Carries

namespace Bears

section

variable (hm : m₀.Roomy)

include hm

theorem push (h : Bears P m₀ height pc ds m) (hd : height + ds.length + 1 < m₀.stackSize.toInt → P d) :
    Computed P m₀ height pc (m.push d)
      (if height + ds.length + 1 < m₀.stackSize.toInt then .ok (d :: ds) else .error .stackOverflow) := by
  have hwords := hm.words
  have hupper := m₀.stackSize.toInt_lt
  have hroom := h.room
  have hsp : (m.sp + 1).toInt = height + ds.length + 1 := Word.add_eq h.sp Word.toInt_one (by omega)
  have hfull : m.sp + 1 ≥ m.stackSize ↔ ¬height + ds.length + 1 < m₀.stackSize.toInt := by
    rw [ge_iff_le, Int64.le_iff_toInt_le, hsp, h.stackSize_eq]
    omega
  unfold Machine.push
  by_cases hroom : height + ds.length + 1 < m₀.stackSize.toInt
  · rw [if_pos hroom, if_neg (mt hfull.mp (not_not_intro hroom))]
    unfold store
    rw [if_pos]
    · exact ⟨rfl, h.stored hm h.operands hroom hsp d, write_data h.words (hd hroom)⟩
    · rw [read?_eq (n := height + ds.length + 1) (by omega)]
      show (m.mem[height + ds.length + 1]?).isSome = true
      rw [Array.getElem?_eq_getElem (by rw [h.size_eq]; omega)]
      rfl
  · rw [if_neg hroom, if_pos (hfull.mpr hroom)]
    exact ⟨rfl, h.agrees⟩

theorem update_top (h : Bears P m₀ height pc (d :: ds) m) {f : Datum → Except Fault Datum}
    (hf : ∀ r, f d = .ok r → P r) : Computed P m₀ height pc (m.update m.sp f) ((f d).map (· :: ds)) := by
  have hsp := h.sp
  have hroom := h.room
  rw [length_cons] at hsp hroom
  have hstored (r : Datum) : Carries m₀ height pc (r :: ds) (m.write m.sp r) :=
    h.stored hm h.operands.2 (by omega) (by omega) r
  unfold update
  rw [h.read_top]
  dsimp only
  cases hr : f d with
  | ok r => exact ⟨rfl, hstored r, write_data h.words (hf r hr)⟩
  | error f => exact ⟨rfl, (hstored _).agrees⟩

theorem update_second {b : Datum} (h : Bears P m₀ height pc (b :: d :: ds) m)
    {f : Datum → Except Fault Datum} (hf : ∀ r, f d = .ok r → P r) :
    Computed P m₀ height pc (m.update (m.sp - 1) f) ((f d).map fun r => b :: r :: ds) := by
  have hsp := h.dropped.sp
  have hroom := h.room
  have hwords := hm.words
  simp only [length_cons] at hsp hroom
  have hsp : (m.sp - 1).toInt = height + ds.length + 1 := by omega
  -- the word below the top is stored as if it were the topmost one
  have hstored (r : Datum) : Carries m₀ height pc (b :: r :: ds) (m.write (m.sp - 1) r) := by
    have hbelow := h.dropped.stored hm h.operands.2.2 (by omega) hsp r
    have htop : (m.mem.setIfInBounds (m.sp - 1).toInt.toNat r)[height + ds.length + 2]? =
        some b := by
      rw [Array.getElem?_setIfInBounds_ne (by omega)]
      exact h.operands.1
    exact ⟨{ hbelow.agrees with }, h.pc, h.sp, h.room, htop, hbelow.operands⟩
  unfold update
  rw [show m.read? (m.sp - 1) = some d from h.dropped.read_top]
  dsimp only
  cases hr : f d with
  | ok r => exact ⟨rfl, hstored r, write_data h.words (hf r hr)⟩
  | error f => exact ⟨rfl, (hstored _).agrees⟩

/-- The two topmost words are replaced by the result of an operation. -/
theorem pop_update {a b : Datum} (h : Bears P m₀ height pc (b :: a :: ds) m)
    {f : Datum → Datum → Except Fault Datum} (hf : ∀ r, f a b = .ok r → P r) :
    Computed P m₀ height pc (m.pop fun b m => m.update m.sp fun a => f a b)
      ((f a b).map (· :: ds)) := by
  have hdropped : Bears P m₀ height pc (a :: ds) { m with sp := m.sp - 1 } := ⟨h.dropped, h.words⟩
  unfold pop
  rw [h.read_top]
  exact hdropped.update_top hm hf

omit hm in
theorem checkLimit (h : Bears P m₀ height pc (d :: ds) m) (limit : Int64)
    (exceeds : Int64 → Int64 → Bool) : Computed P m₀ height pc
      (m.checkLimit (.integer limit) exceeds) ((d.limited limit exceeds).map (· :: ds)) := by
  unfold Machine.checkLimit Datum.limited
  rw [h.read_top]
  dsimp only
  cases d.ordinal? with
  | none => exact ⟨rfl, h.agrees⟩
  | some v =>
    dsimp only
    split
    · exact ⟨rfl, h.agrees⟩
    · exact ⟨rfl, h⟩

/-- An instruction that only computes leaves its operands as it should. -/
theorem execute_compute (h : Bears P m₀ height pc ds m) {room : Nat}
    (hroom : height + room + 1 = m₀.stackSize.toInt)
    (hr : Expects (· ≠ .unknownInstr) (fun ds' => ∀ d ∈ ds', P d) (x.compute room ds)) :
    Computed P m₀ height pc (m.execute x) (x.compute room ds) := by
  generalize heq : x.compute room ds = r at hr ⊢
  unfold Instr.compute at heq
  split at heq <;> subst heq
  · simp only [show ∀ k : Nat, k < room ↔ height + k + 1 < m₀.stackSize.toInt by omega] at hr ⊢
    refine h.push hm fun hroom => ?_
    rw [if_pos hroom] at hr
    exact hr _ mem_cons_self
  · exact h.update_top hm fun r hr' => hr.of_map hr' r mem_cons_self
  · exact h.update_second hm fun r hr' => hr.of_map hr' r (mem_cons_of_mem _ mem_cons_self)
  · exact h.pop_update hm fun r hr' => hr.of_map hr' r mem_cons_self
  · exact h.checkLimit _ _
  · exact h.checkLimit _ _
  · exact absurd rfl hr

theorem step_compute (h : Bears P m₀ height pc ds m) (hx : m₀.code[pc]? = some x) {room : Nat}
    (hroom : height + room + 1 = m₀.stackSize.toInt)
    (hr : Expects (· ≠ .unknownInstr) (fun ds' => ∀ d ∈ ds', P d) (x.compute room ds)) :
    Computed P m₀ height (pc + 1) m.step (x.compute room ds) := by
  obtain ⟨n, hn, hle⟩ := x.pops_of_compute fun hunknown => by
    rw [hunknown] at hr
    exact hr rfl
  obtain ⟨hat, hstep⟩ := h.step_eq hm hx hn (by omega)
  rw [hstep]
  exact Bears.execute_compute hm ⟨hat, h.words⟩ hroom hr

end

end Bears

theorem Carries.step_push (hm : m₀.Roomy) (h : Carries m₀ height pc ds m) {level : Int8}
    (hx : m₀.code[pc]? = some ⟨.push, level, d⟩) (hroom : height + ds.length + 1 < m₀.stackSize.toInt) :
    Computed (fun _ => True) m₀ height (pc + 1) m.step (.ok (d :: ds)) := by
  obtain ⟨hat, hstep⟩ := h.step_eq hm hx (n := 0) rfl (Nat.zero_le _)
  have hpush := hat.bears.push hm (d := d) fun _ => trivial
  rw [if_pos hroom] at hpush
  exact hstep ▸ hpush

end MiniPascal.Machine
