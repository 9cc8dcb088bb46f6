import MiniPascal.Proofs.FreeStore.History
import MiniPascal.Proofs.Machine.Activation
import MiniPascal.Proofs.Machine.Output

/-!
# Machines that keep to their memory

Whatever the code is, a machine stays within its stack and its heap: no instruction reaches outside of the
memory, word zero is never stored to, and the blocks of the heap tile it. Integers keep to 32 bits, and
addresses can move away from the memory only by 32 bits in every step.
-/

namespace MiniPascal

open Word

open Int64

/-- An address within a distance of zero. -/
def Word.Near (r : Int) (a : Int64) : Prop := -r ≤ a.toInt ∧ a.toInt ≤ r

/-- A datum whose integer or address has 32 bits. -/
def Datum.Immediate : Datum → Prop := Datum.Within 31 (Word.Signed 31)

instance (d : Datum) : Decidable d.Immediate :=
  match d with
  | .integer _ | .address _ => inferInstanceAs (Decidable (_ ∧ _))
  | .real _ | .boolean _ | .character _ => isTrue trivial

namespace Machine

open Word (Near)

/-- The words of the stack and of the heap, and the code. -/
structure Setup where
  stack : Nat
  heap : Nat
  code : Array Instr
  stack_gt : 4 < stack
  stack_lt : stack < 2 ^ 30
  heap_pos : 0 < heap
  heap_lt : heap < 2 ^ 30
  code_lt : code.size < 2 ^ 31
  args : ∀ x ∈ code, x.arg.Immediate

/-- The machine is as it was set up, its registers lie in the stack, and all addresses are near. -/
structure Contained (S : Setup) (r : Int) (m : Machine) : Prop where
  code : m.code = S.code
  stackSize : m.stackSize.toInt = S.stack
  heapSize : m.heapSize.toInt = S.heap
  memory : m.mem.size = S.stack + S.heap
  nil : m.mem[0]? = some (.integer 0)
  data : ∀ (a : Nat) (d : Datum), m.mem[a]? = some d → d.Within 31 (Near r)
  sp_nonneg : 0 ≤ m.sp.toInt
  sp_lt : m.sp.toInt < S.stack
  fp : Near r m.fp
  store : m.heap.Sound
  lo : m.heap.lo = S.stack
  hi : m.heap.hi = S.stack + S.heap

/-- An instruction does not crash and leaves a machine that is contained. -/
def Keeps (S : Setup) (r : Int) (e : Effect) : Prop := e.1 ≠ .crash ∧ Contained S r e.2

variable {S : Setup} {r r' : Int} {m : Machine} {a n : Int64} {d arg : Datum}

theorem near_mono (h : Near r a) (hle : r ≤ r') : Near r' a := ⟨by have := h.1; omega, by have := h.2; omega⟩

theorem within_mono (h : d.Within 31 (Near r)) (hle : r ≤ r') : d.Within 31 (Near r') := by
  cases d with
  | address a => exact near_mono h hle
  | _ => exact h

theorem within_immediate (h : d.Immediate) (hr : 2 ^ 31 ≤ r) : d.Within 31 (Near r) := by
  cases d with
  | address a =>
    obtain ⟨hlower, hupper⟩ : Word.Signed 31 a := h
    exact ⟨by omega, by omega⟩
  | _ => exact h

theorem moves_near (hr : r < 2 ^ 62) : BinaryOp.Moves 31 (Near r) (Near (r + 2 ^ 31)) := by
  intro a n ⟨hlower, hupper⟩ ⟨hlower', hupper'⟩
  unfold Near
  rw [add_eq rfl rfl (by omega), sub_eq rfl rfl (by omega)]
  omega

theorem fetch?_eq_some {x : Instr} (h : m.fetch? = some x) : 0 ≤ m.pc.toInt ∧ m.code[m.pc.toInt.toNat]? = some x := by
  unfold fetch? at h
  split at h
  · next hpos => exact ⟨le_iff_toInt_le.mp hpos, h⟩
  · cases h

namespace Contained

variable (h : Contained S r m)

include h

theorem mono (hle : r ≤ r') : Contained S r' m :=
  { h with
    data := fun a d hd => within_mono (h.data a d hd) hle
    fp := near_mono h.fp hle }

theorem keeps_done : Keeps S r (done m) := ⟨by simp [done, Status.crash], h⟩

theorem keeps_refuse (cause : Fault) : Keeps S r (refuse cause m) :=
  ⟨by simp [refuse, Status.fault, Status.crash], h⟩

theorem keeps_stop (cause : Fault) : Keeps S r (stop (.fault cause) m) :=
  h.keeps_refuse cause

theorem exists_read? (hlower : 0 ≤ a.toInt) (hupper : a.toInt < S.stack + S.heap) :
    ∃ d, m.read? a = some d ∧ d.Within 31 (Near r) := by
  have hindex : a.toInt = a.toInt.toNat := (Int.toNat_of_nonneg hlower).symm
  have hlt : a.toInt.toNat < m.mem.size := by
    rw [h.memory]
    omega
  refine ⟨m.mem[a.toInt.toNat], ?_, h.data _ _ (Array.getElem?_eq_getElem hlt)⟩
  rw [read?_eq hindex, Array.getElem?_eq_getElem hlt]

theorem exists_read?_stack (ha : 0 ≤ a.toInt ∧ a.toInt ≤ m.sp.toInt) :
    ∃ d, m.read? a = some d ∧ d.Within 31 (Near r) := by
  have hsp := h.sp_lt
  exact h.exists_read? ha.1 (by omega)

theorem write (ha : 1 ≤ a.toInt) (hd : d.Within 31 (Near r)) : Contained S r (m.write a d) := by
  have hindex : a.toInt = a.toInt.toNat := (Int.toNat_of_nonneg (by omega)).symm
  have hmem := mem_write (m := m) hindex d
  refine { h with memory := ?_, nil := ?_, data := ?_ }
  · rw [hmem, Array.size_setIfInBounds]
    exact h.memory
  · rw [hmem, Array.getElem?_setIfInBounds, if_neg (by omega)]
    exact h.nil
  · intro i e he
    rw [hmem, Array.getElem?_setIfInBounds] at he
    split at he
    · split at he
      · exact Option.some.inj he ▸ hd
      · cases he
    · exact h.data i e he

theorem setSp (sp : Int64) (hsp : 0 ≤ sp.toInt ∧ sp.toInt < S.stack) : Contained S r { m with sp } :=
  { h with sp_nonneg := hsp.1, sp_lt := hsp.2 }

theorem setFrame {sp fp : Int64} (pc : Int64) (hlower : 0 ≤ sp.toInt)
    (hupper : sp.toInt < S.stack) (hfp : Near r fp) : Contained S r { m with sp, fp, pc } :=
  { h with sp_nonneg := hlower, sp_lt := hupper, fp := hfp }

theorem sp_add (hn : 0 ≤ n.toInt ∧ n.toInt < 2 ^ 31) : (m.sp + n).toInt = m.sp.toInt + n.toInt := by
  have hsp := h.sp_nonneg
  have hlt := h.sp_lt
  have hsize := S.stack_lt
  exact add_eq rfl rfl (by omega)

theorem sp_sub (hn : 0 ≤ n.toInt ∧ n.toInt < 2 ^ 31) : (m.sp - n).toInt = m.sp.toInt - n.toInt := by
  have hsp := h.sp_nonneg
  have hlt := h.sp_lt
  have hsize := S.stack_lt
  exact sub_eq rfl rfl (by omega)

theorem push (hd : d.Within 31 (Near r)) : Keeps S r (m.push d) := by
  have hsp := h.sp_nonneg
  have hnext : (m.sp + 1).toInt = m.sp.toInt + 1 := h.sp_add (n := 1) (by decide)
  unfold Machine.push
  split
  · exact h.keeps_refuse _
  · next hroom =>
    rw [ge_iff_le, le_iff_toInt_le, h.stackSize, hnext] at hroom
    have hmoved : Contained S r { m with sp := m.sp + 1 } := h.setSp _ (by omega)
    obtain ⟨e, he, -⟩ := hmoved.exists_read? (a := m.sp + 1) (by omega) (by omega)
    unfold Machine.store
    rw [he]
    exact (hmoved.write (by omega) hd).keeps_done

/-- A word above word zero is replaced. -/
theorem update (hle : r ≤ r') (ha : 1 ≤ a.toInt) (hsp : a.toInt ≤ m.sp.toInt) {f : Datum → Except Fault Datum}
    (hf : ∀ d, d.Within 31 (Near r) → ∀ e, f d = .ok e → e.Within 31 (Near r')) : Keeps S r' (m.update a f) := by
  obtain ⟨d, hd, hwithin⟩ := h.exists_read?_stack ⟨by omega, hsp⟩
  have h' := h.mono hle
  unfold Machine.update
  rw [hd]
  dsimp only
  split
  · next e he => exact (h'.write ha (hf d hwithin e he)).keeps_done
  · exact (h'.write ha (d := .integer 0) ⟨by decide, by decide⟩).keeps_refuse _

/-- The top is taken off. -/
theorem pop (hsp : 1 ≤ m.sp.toInt) {next : Datum → Machine → Effect}
    (hnext : ∀ d, d.Within 31 (Near r) → ∀ m', Contained S r m' → m'.sp.toInt = m.sp.toInt - 1 → m'.pc = m.pc →
      Keeps S r' (next d m')) : Keeps S r' (m.pop next) := by
  obtain ⟨d, hd, hwithin⟩ := h.exists_read?_stack (a := m.sp) (by omega)
  have hdown : (m.sp - 1).toInt = m.sp.toInt - 1 := h.sp_sub (n := 1) (by decide)
  have hlt := h.sp_lt
  unfold Machine.pop
  rw [hd]
  exact hnext d hwithin _ (h.setSp _ (by omega)) hdown rfl

section

variable (hr : r < 2 ^ 62)

include hr

theorem bounds_of_valid (ha : Near r a) (hn : n.toInt < 2 ^ 31)
    (hvalid : m.valid a n = true) : 1 ≤ n.toInt ∧ 1 ≤ a.toInt ∧ a.toInt + n.toInt ≤ S.stack + S.heap := by
  have hlt := h.sp_lt
  have hlo : m.heap.base.toInt = S.stack := h.lo
  have hhi : m.heap.base.toInt + m.heap.size.toInt = S.stack + S.heap := h.hi
  have hstack := S.stack_lt
  have hheap := S.heap_lt
  obtain ⟨-, hupper⟩ := ha
  unfold valid at hvalid
  split at hvalid
  · cases hvalid
  · next hrange =>
    simp only [Bool.or_eq_true, decide_eq_true_eq, le_iff_toInt_le, lt_iff_toInt_lt, not_or,
      Word.toInt_zero, Word.toInt_one] at hrange
    have hlast : (a + n - 1).toInt = a.toInt + n.toInt - 1 :=
      Word.sub_eq (Word.add_eq rfl rfl (by omega)) Word.toInt_one (by omega)
    have hend : (m.heap.base + m.heap.size).toInt = S.stack + S.heap := by
      rw [Word.add_eq rfl rfl (by omega), hhi]
    simp only [FreeStore.contains, Bool.or_eq_true, Bool.and_eq_true, decide_eq_true_eq, le_iff_toInt_le,
      lt_iff_toInt_lt, hlast, hend] at hvalid
    omega

/-- The links lead to an address that is near, or they are refused. -/
theorem follow (hops : Nat) {frame : Int64} (hframe : Near r frame) :
    (∃ base, m.follow hops frame = .ok base ∧ Near r base) ∨ ∃ cause, m.follow hops frame = .error (.fault cause) := by
  induction hops generalizing frame with
  | zero => exact .inl ⟨frame, rfl, hframe⟩
  | succ hops ih =>
    rw [Machine.follow]
    split
    · exact .inr ⟨_, rfl⟩
    · next hvalid =>
      simp only [Bool.not_eq_true, Bool.not_eq_false'] at hvalid
      have hbounds := h.bounds_of_valid (n := 1) hr hframe (by decide) hvalid
      rw [Word.toInt_one] at hbounds
      have hoffset : frame + FrameSlot.base.offset = frame := Int64.add_zero frame
      obtain ⟨d, hd, hwithin⟩ := h.exists_read? (a := frame) (by omega) (by omega)
      rw [hoffset, hd]
      cases d with
      | address a => exact ih hwithin
      | _ => exact .inr ⟨_, rfl⟩

theorem frameAt (level : Int8) :
    (∃ base, m.frameAt level = .ok base ∧ Near r base) ∨ ∃ cause, m.frameAt level = .error (.fault cause) :=
  h.follow hr _ h.fp

/-- A block that is addressed from the stack lies in the memory above word zero, or it is refused. -/
theorem blockAt (harg : arg.Immediate) (slot : Int64) (hslot : slot.toInt ≤ m.sp.toInt) :
    (∃ n a, arg = .integer n ∧ m.blockAt arg slot = .ok (n, a) ∧ 1 ≤ n.toInt ∧ n.toInt < 2 ^ 31 ∧ 1 ≤ a.toInt ∧
      a.toInt + n.toInt ≤ S.stack + S.heap) ∨ ∃ cause, m.blockAt arg slot = .error (.fault cause) := by
  cases arg with
  | integer n =>
    obtain ⟨-, hn⟩ : Word.Signed 31 n := harg
    unfold Machine.blockAt
    dsimp only
    split
    · exact .inr ⟨_, rfl⟩
    · split
      · exact .inr ⟨_, rfl⟩
      · next hpos =>
        rw [lt_iff_toInt_lt, Word.toInt_one] at hpos
        obtain ⟨d, hd, hwithin⟩ := h.exists_read?_stack (a := slot) ⟨by omega, hslot⟩
        rw [hd]
        cases d with
        | address a =>
          dsimp only
          split
          · next hvalid =>
            obtain ⟨hn', ha, hend⟩ := h.bounds_of_valid hr hwithin hn hvalid
            exact .inl ⟨n, a, rfl, rfl, hn', hn, ha, hend⟩
          · exact .inr ⟨_, rfl⟩
        | _ => exact .inr ⟨_, rfl⟩
  | _ => exact .inr ⟨_, rfl⟩

omit hr in
/-- A block of the memory is copied to another one that lies above word zero. -/
theorem copyBlock {target source sp : Int64} (hn : 1 ≤ n.toInt)
    (htarget : 1 ≤ target.toInt) (htend : target.toInt + n.toInt ≤ S.stack + S.heap) (hsource : 1 ≤ source.toInt)
    (hsend : source.toInt + n.toInt ≤ S.stack + S.heap) (hsp : 0 ≤ sp.toInt ∧ sp.toInt < S.stack) :
    Keeps S r (m.copyBlock target source n sp) := by
  have hstack := S.stack_lt
  have hheap := S.heap_lt
  have hmemory := h.memory
  rw [copyBlock_eq (t := target.toInt.toNat) (s := source.toInt.toNat) (k := n.toInt.toNat) (by omega) (by omega)
    (by omega) (by omega) (by omega) (by omega)]
  exact keeps_done { h with
    memory := (size_move _ _ _).trans h.memory
    nil := (getElem?_move_of_outside (by omega)).trans h.nil
    data := move_data h.data _ _ _
    sp_nonneg := hsp.1
    sp_lt := hsp.2 }

theorem eval (harg : arg.Immediate) (hsp : 1 ≤ m.sp.toInt) : Keeps S r (m.eval arg) := by
  have hdown : (m.sp - 1).toInt = m.sp.toInt - 1 := h.sp_sub (n := 1) (by decide)
  have hlt := h.sp_lt
  have hstack := S.stack_lt
  unfold Machine.eval
  rcases h.blockAt hr harg m.sp (by omega) with ⟨n, a, -, hblock, hn, hn', ha, hend⟩ | ⟨cause, hblock⟩
  · have hup : (m.sp - 1 + n).toInt = m.sp.toInt - 1 + n.toInt := add_eq hdown rfl (by omega)
    rw [hblock]
    dsimp only
    split
    · exact h.keeps_refuse _
    · next hroom =>
      rw [ge_iff_le, le_iff_toInt_le, h.stackSize, hup] at hroom
      have hmoved : Contained S r { m with sp := m.sp - 1 } := h.setSp _ (by omega)
      exact hmoved.copyBlock hn hsp (by omega) ha hend (by omega)
  · rw [hblock]
    exact h.keeps_stop cause

theorem assign (harg : arg.Immediate) : Keeps S r (m.assign arg) := by
  have hlt := h.sp_lt
  have hstack := S.stack_lt
  unfold Machine.assign
  cases arg with
  | integer n =>
    have hn : n.toInt < 2 ^ 31 := harg.2
    dsimp only
    split
    · exact h.keeps_refuse _
    · next hpos =>
      rw [lt_iff_toInt_lt, Word.toInt_one] at hpos
      have hcount : (n + 1).toInt = n.toInt + 1 := add_one (by omega)
      split
      · exact h.keeps_refuse _
      · next hroom =>
        rw [lt_iff_toInt_lt, hcount] at hroom
        have hsource : (m.sp - n + 1).toInt = m.sp.toInt - n.toInt + 1 :=
          Word.add_eq (h.sp_sub ⟨by omega, hn⟩) Word.toInt_one (by omega)
        have hslot : (m.sp - n + 1 - 1).toInt = m.sp.toInt - n.toInt := by
          rw [Word.sub_eq hsource Word.toInt_one (by omega)]
          omega
        have hafter : (m.sp - (n + 1)).toInt = m.sp.toInt - (n.toInt + 1) :=
          sub_eq rfl hcount (by omega)
        rcases h.blockAt hr harg (m.sp - n + 1 - 1) (by omega) with
          ⟨k, a, hk, hblock, -, -, ha, hend⟩ | ⟨cause, hblock⟩
        · obtain rfl := Datum.integer.inj hk
          rw [hblock]
          exact h.copyBlock (by omega) ha hend (by omega) (by omega) (by omega)
        · rw [hblock]
          exact h.keeps_stop cause
  | _ => exact h.keeps_refuse _

theorem copy (harg : arg.Immediate) (hsp : 2 ≤ m.sp.toInt) : Keeps S r (m.copy arg) := by
  have hdown : (m.sp - 1).toInt = m.sp.toInt - 1 := h.sp_sub (n := 1) (by decide)
  have hafter : (m.sp - 2).toInt = m.sp.toInt - 2 := h.sp_sub (n := 2) (by decide)
  have hlt := h.sp_lt
  unfold Machine.copy
  rcases h.blockAt hr harg m.sp (by omega) with ⟨n, a, harg', hblock, hn, -, ha, hend⟩ | ⟨cause, hblock⟩
  · rcases h.blockAt hr harg (m.sp - 1) (by omega) with
      ⟨k, b, hk, hblock', -, -, hb, hend'⟩ | ⟨cause, hblock'⟩
    · obtain rfl := Datum.integer.inj (harg'.symm.trans hk)
      rw [hblock]
      dsimp only
      rw [hblock']
      exact h.copyBlock hn hb hend' ha hend (by omega)
    · rw [hblock]
      dsimp only
      rw [hblock']
      exact h.keeps_stop cause
  · rw [hblock]
    exact h.keeps_stop cause

omit hr in
theorem drop (harg : arg.Immediate) : Keeps S r (m.drop arg) := by
  have hlt := h.sp_lt
  unfold Machine.drop
  cases arg with
  | integer n =>
    obtain ⟨-, hn⟩ : Word.Signed 31 n := harg
    dsimp only
    split
    · exact h.keeps_refuse _
    · next hpos =>
      rw [lt_iff_toInt_lt, Word.toInt_zero] at hpos
      have hafter := h.sp_sub (n := n) ⟨by omega, hn⟩
      split
      · exact h.keeps_refuse _
      · next hroom =>
        rw [lt_iff_toInt_lt] at hroom
        exact (h.setSp _ (by omega)).keeps_done
  | _ => exact h.keeps_refuse _

omit hr in
theorem enter (harg : arg.Immediate) : Keeps S r (m.enter arg) := by
  have hsp := h.sp_nonneg
  unfold Machine.enter
  cases arg with
  | integer n =>
    obtain ⟨-, hn⟩ : Word.Signed 31 n := harg
    dsimp only
    split
    · exact h.keeps_refuse _
    · next hpos =>
      rw [lt_iff_toInt_lt, Word.toInt_zero] at hpos
      have hafter := h.sp_add (n := n) ⟨by omega, hn⟩
      split
      · exact h.keeps_refuse _
      · next hroom =>
        rw [ge_iff_le, le_iff_toInt_le, h.stackSize] at hroom
        exact (h.setSp _ (by omega)).keeps_done
  | _ => exact h.keeps_refuse _

/-- A frame is opened above the stack. Its words are near addresses and the address to return to. -/
theorem call (hlow : 2 ^ 31 ≤ r) (hpc : Word.Signed 31 m.pc) (level : Int8)
    (entry : Int64) : Keeps S r (m.call level entry) := by
  have hsp := h.sp_nonneg
  have hlt := h.sp_lt
  have hstack := S.stack_lt
  have hfp : (m.sp + 1).toInt = m.sp.toInt + 1 := h.sp_add (n := 1) (by decide)
  have hcount : (m.sp + FrameSlot.count).toInt = m.sp.toInt + 4 := h.sp_add (n := 4) (by decide)
  have hslot (slot : FrameSlot) : 1 ≤ (m.sp + 1 + slot.offset).toInt := by
    have hoffset : 0 ≤ slot.offset.toInt ∧ slot.offset.toInt ≤ 3 := by cases slot <;> decide
    rw [add_eq hfp rfl (by omega)]
    omega
  unfold Machine.call
  rcases h.frameAt hr level with ⟨base, hbase, hnear⟩ | ⟨cause, hbase⟩
  · rw [hbase]
    dsimp only
    split
    · exact h.keeps_refuse _
    · next hroom =>
      rw [ge_iff_le, le_iff_toInt_le, h.stackSize, hcount] at hroom
      obtain ⟨d, hd, -⟩ := h.exists_read? (a := m.sp + 1) (by omega) (by omega)
      rw [hd]
      have hbase := h.write (hslot .base) (d := .address base) hnear
      have hold := hbase.write (hslot .oldFrame) (d := .address m.fp) h.fp
      have hback := hold.write (hslot .returnAddress) (d := .integer m.pc) hpc
      have hresult := hback.write (hslot .result) (d := .integer 0) ⟨by decide, by decide⟩
      unfold Machine.write at hresult ⊢
      have hnear : Near r (m.sp + 1) := ⟨by omega, by omega⟩
      have hlower : 0 ≤ (m.sp + FrameSlot.count).toInt := by omega
      have hupper : (m.sp + FrameSlot.count).toInt < S.stack := by omega
      exact keeps_done (hresult.setFrame entry hlower hupper hnear)
  · rw [hbase]
    exact h.keeps_stop cause

/-- A frame is left. It has to lie in the stack, whatever the frame pointer was. -/
theorem ret (harg : arg.Immediate) (function : Bool) : Keeps S r (m.ret arg function) := by
  have hlt := h.sp_lt
  obtain ⟨-, hnear⟩ := h.fp
  unfold Machine.ret
  cases arg with
  | integer n =>
    obtain ⟨-, hn⟩ : Word.Signed 31 n := harg
    dsimp only
    split
    · exact h.keeps_refuse _
    · next hpos =>
      rw [lt_iff_toInt_lt, Word.toInt_zero] at hpos
      have hslot (slot : FrameSlot) {k : Int} (hk : slot.offset.toInt = k) (hk' : 0 ≤ k ∧ k ≤ 3) (hfp : 1 ≤ m.fp.toInt) :
          (m.fp + slot.offset).toInt = m.fp.toInt + k := Word.add_eq rfl hk (by omega)
      split
      · exact h.keeps_refuse _
      · next hframe =>
        simp only [Bool.or_eq_true, decide_eq_true_eq, lt_iff_toInt_lt, gt_iff_lt, not_or, Word.toInt_one] at hframe
        obtain ⟨hfp, htop⟩ := hframe
        have hfp : 1 ≤ m.fp.toInt := by omega
        rw [hslot .result (k := 3) rfl (by omega) hfp] at htop
        have hback := hslot .returnAddress (k := 2) rfl (by omega) hfp
        have hold := hslot .oldFrame (k := 1) rfl (by omega) hfp
        have hresult := hslot .result (k := 3) rfl (by omega) hfp
        obtain ⟨back, hback, -⟩ := h.exists_read?_stack (a := m.fp + FrameSlot.returnAddress.offset) (by omega)
        obtain ⟨old, hold, hnear'⟩ := h.exists_read?_stack (a := m.fp + FrameSlot.oldFrame.offset) (by omega)
        obtain ⟨result, hresult, hwithin⟩ := h.exists_read?_stack (a := m.fp + FrameSlot.result.offset) (by omega)
        rw [hback]
        cases back with
        | integer pc =>
          dsimp only
          rw [hold]
          cases old with
          | address oldFp =>
            dsimp only
            rw [hresult]
            dsimp only
            split
            · exact h.keeps_refuse _
            · next hsp =>
              have hafter : (m.fp - 1 - n).toInt = m.fp.toInt - 1 - n.toInt :=
                Word.sub_eq (Word.sub_one (by omega)) rfl (by omega)
              rw [lt_iff_toInt_lt, hafter, Word.toInt_zero] at hsp
              have hleft : Contained S r { m with sp := m.fp - 1 - n, fp := oldFp, pc } :=
                h.setFrame pc (by omega) (by omega) hnear'
              split
              · exact hleft.push hwithin
              · exact hleft.keeps_done
          | _ => exact h.keeps_refuse _
        | _ => exact h.keeps_refuse _
  | _ => exact h.keeps_refuse _

end

theorem jump (target : Datum) : Keeps S r (m.jump target) := by
  cases target with
  | integer a => exact keeps_done { h with }
  | _ => exact h.keeps_refuse _

/-- A block of the heap is handed out, or the heap stays as it is. -/
theorem allocate (hlow : 2 ^ 31 ≤ r) (hsp : 1 ≤ m.sp.toInt) : Keeps S r m.allocate := by
  have hstack := S.stack_lt
  have hheap := S.heap_lt
  obtain ⟨d, hd, -⟩ := h.exists_read?_stack (a := m.sp) (by omega)
  unfold Machine.allocate
  rw [hd]
  cases d with
  | integer n =>
    dsimp only
    split
    · next a heap halloc =>
      have hsound := h.store.alloc? halloc
      obtain ⟨-, b, hb, -, rfl, rfl⟩ := FreeStore.exists_of_alloc? halloc
      have hnear : Near r b.addr := by
        obtain ⟨hlower, hne, hupper⟩ := h.store.spaced.inside b hb
        rw [h.lo] at hlower
        rw [h.hi] at hupper
        unfold Near
        unfold Block.first Block.stop at *
        omega
      exact keeps_done { h.write hsp (d := .address b.addr) hnear with store := hsound }
    · have hzero : Near r 0 := by
        unfold Near
        rw [Word.toInt_zero]
        omega
      exact (h.write hsp (d := .address 0) hzero).keeps_refuse _
  | _ => exact h.keeps_refuse _

theorem release (block : Datum) : Keeps S r (m.release block) := by
  unfold Machine.release
  cases block with
  | address a =>
    dsimp only
    split
    · next heap hfree =>
      have hsound := h.store.free? hfree
      obtain ⟨b, -, -, rfl⟩ := FreeStore.exists_of_free? hfree
      exact keeps_done { h with store := hsound }
    · exact h.keeps_refuse _
  | _ => exact h.keeps_refuse _

theorem checkLimit (arg : Datum) (exceeds : Int64 → Int64 → Bool) : Keeps S r (m.checkLimit arg exceeds) := by
  obtain ⟨d, hd, -⟩ := h.exists_read?_stack (a := m.sp) ⟨h.sp_nonneg, Int.le_refl _⟩
  unfold Machine.checkLimit
  rw [hd]
  dsimp only
  split
  · split
    · exact h.keeps_refuse _
    · exact h.keeps_done
  · exact h.keeps_refuse _

theorem writeValue {width : Int64} (hwidth : Word.Signed 31 width) {places : Option Nat}
    (hplaces : places.getD 0 < 2 ^ 48) (d : Datum) : Keeps S r (m.writeValue width places d) := by
  have hnarrow : (Datum.integer width).Narrow := by
    obtain ⟨hlower, hupper⟩ := hwidth
    exact ⟨by omega, by omega⟩
  unfold Machine.writeValue
  dsimp only
  rw [if_neg (by rw [gt_iff_lt, Int64.not_lt]; exact blanks_le hnarrow hplaces)]
  exact keeps_done { h with }

theorem popInteger (hsp : 1 ≤ m.sp.toInt) {next : Int64 → Machine → Effect}
    (hnext : ∀ n, Word.Signed 31 n → ∀ m', Contained S r m' → m'.sp.toInt = m.sp.toInt - 1 → Keeps S r (next n m')) :
    Keeps S r (m.pop fun d m => match d with
      | .integer n => next n m
      | _ => refuse .badDataType m) := by
  refine h.pop hsp fun d hd m' h' hsp' _ => ?_
  cases d with
  | integer n => exact hnext n hd m' h' hsp'
  | _ => exact h'.keeps_refuse _

theorem output (level : Int8) : Keeps S r (m.output level) := by
  have hzero : Word.Signed 31 0 := ⟨by decide, by decide⟩
  unfold Machine.output
  split
  · exact h.keeps_refuse _
  · next hrange =>
    split
    · exact h.keeps_refuse _
    · next hsp =>
      split
      · next heq =>
        subst heq
        rw [lt_iff_toInt_lt] at hsp
        have hsp : 1 ≤ m.sp.toInt := Int.not_lt.mp hsp
        exact h.pop hsp fun d _ m' h' _ _ => h'.writeValue hzero (by decide) d
      · split
        · next heq =>
          subst heq
          rw [lt_iff_toInt_lt] at hsp
          have hsp : 2 ≤ m.sp.toInt := Int.not_lt.mp hsp
          refine h.popInteger (by omega) fun width hwidth m₁ h₁ hsp₁ => ?_
          exact h₁.pop (by omega) fun d _ m' h' _ _ => h'.writeValue hwidth (by decide) d
        · next hzero hone =>
          have htwo : level = 2 := by
            simp only [Bool.or_eq_true, decide_eq_true_eq, Int8.lt_iff_toInt_lt, not_or] at hrange
            rw [← Int8.toInt_inj] at *
            have : (0 : Int8).toInt = 0 := rfl
            have : (1 : Int8).toInt = 1 := rfl
            have : (2 : Int8).toInt = 2 := rfl
            omega
          subst htwo
          rw [lt_iff_toInt_lt] at hsp
          have hsp : 3 ≤ m.sp.toInt := Int.not_lt.mp hsp
          refine h.popInteger (by omega) fun places hplaces m₁ h₁ hsp₁ => ?_
          refine h₁.popInteger (by omega) fun width hwidth m₂ h₂ hsp₂ => ?_
          refine h₂.pop (by omega) fun d _ m' h' _ _ => h'.writeValue hwidth ?_ d
          show places.toInt.toNat < 2 ^ 48
          have := hplaces.2
          omega

/-- An instruction whose operands are there is carried out in containment. -/
theorem execute (hlow : 2 ^ 31 ≤ r) (hr : r < 2 ^ 62) (hpc : Word.Signed 31 m.pc) {x : Instr}
    (hx : x.arg.Immediate) {k : Nat} (hk : x.op.pops = some k) (hsp : k ≤ m.sp.toInt) :
    Keeps S (r + 2 ^ 31) (m.execute x) := by
  have hkeeps {e : Effect} (he : Keeps S r e) : Keeps S (r + 2 ^ 31) e := ⟨he.1, he.2.mono (by omega)⟩
  obtain ⟨op, level, arg⟩ := x
  unfold Machine.execute
  cases op with
  | halt => exact hkeeps ⟨by simp [Status.crash], h⟩
  | unary op =>
    cases hk
    exact hkeeps (h.update (Int.le_refl r) hsp (Int.le_refl _) fun d hd e he => (op.apply_within (by decide) hd).ok he)
  | itor2 =>
    cases hk
    have hdown : (m.sp - 1).toInt = m.sp.toInt - 1 := h.sp_sub (n := 1) (by decide)
    exact hkeeps (h.update (Int.le_refl r) (by omega) (by omega) fun d hd e he =>
      (UnaryOp.itor.apply_within (by decide) hd).ok he)
  | dup =>
    obtain ⟨d, hd, hwithin⟩ := h.exists_read?_stack (a := m.sp) ⟨h.sp_nonneg, Int.le_refl _⟩
    dsimp only
    rw [hd]
    exact hkeeps (h.push hwithin)
  | binary op =>
    cases hk
    refine h.pop (by omega) fun b hb m' h' hsp' _ => ?_
    exact h'.update (by omega) (by omega) (Int.le_refl _) fun d hd e he =>
      (op.apply_within (by decide) (by decide) (moves_near hr) hd hb).ok he
  | push => exact hkeeps (h.push (within_immediate hx hlow))
  | pushVar =>
    cases arg with
    | integer offset =>
      dsimp only
      rcases h.frameAt hr level with ⟨base, hbase, hnear⟩ | ⟨cause, hbase⟩
      · rw [hbase]
        exact (h.mono (by omega)).push (moves_near hr base offset hnear hx).1
      · rw [hbase]
        exact hkeeps (h.keeps_stop cause)
    | _ => exact hkeeps (h.keeps_refuse _)
  | eval => exact hkeeps (h.eval hr hx (by cases hk; exact hsp))
  | assign => exact hkeeps (h.assign hr hx)
  | copy => exact hkeeps (h.copy hr hx (by cases hk; exact hsp))
  | pop => exact hkeeps (h.drop hx)
  | call =>
    cases arg with
    | integer entry => exact hkeeps (h.call hr hlow hpc level entry)
    | _ => exact hkeeps (h.keeps_refuse _)
  | calli =>
    cases hk
    refine hkeeps (h.pop hsp fun d _ m' h' _ hpc' => ?_)
    cases d with
    | integer entry => exact h'.call hr hlow (hpc' ▸ hpc) level entry
    | _ => exact h'.keeps_refuse _
  | enter => exact hkeeps (h.enter hx)
  | ret => exact hkeeps (h.ret hr hx false)
  | retf => exact hkeeps (h.ret hr hx true)
  | jump => exact hkeeps (h.jump arg)
  | jumpi =>
    cases hk
    exact hkeeps (h.pop hsp fun d _ m' h' _ _ => h'.jump d)
  | jneq =>
    cases hk
    refine hkeeps (h.pop hsp fun d _ m' h' _ _ => ?_)
    cases d with
    | boolean b =>
      cases b with
      | true => exact h'.keeps_done
      | false => exact h'.jump arg
    | _ => exact h'.keeps_refuse _
  | new => exact hkeeps (h.allocate hlow (by cases hk; exact hsp))
  | dispose =>
    cases hk
    exact hkeeps (h.pop hsp fun d _ m' h' _ _ => h'.release d)
  | llimit => exact hkeeps (h.checkLimit arg _)
  | ulimit => exact hkeeps (h.checkLimit arg _)
  | write => exact hkeeps (h.output level)
  | writeln => exact hkeeps (keeps_done { h with })
  | undefined b => exact hkeeps (h.keeps_refuse _)

/-- One step. An address may move on by an integer. -/
theorem step (hlow : 2 ^ 31 ≤ r) (hr : r < 2 ^ 62) : Keeps S (r + 2 ^ 31) m.step := by
  have h' : Contained S (r + 2 ^ 31) m := h.mono (by omega)
  have hadvance (r : Int) (h : Contained S r m) : Contained S r m.advance := { h with }
  rcases step_cases m with hstep | ⟨cause, hstep⟩ | ⟨x, k, hfetch, hk, hsp, hstep⟩
  · rw [hstep]
    exact h'.keeps_refuse _
  · rw [hstep]
    exact (hadvance _ h').keeps_refuse _
  · rw [hstep]
    have hcode := S.code_lt
    obtain ⟨hpos, hx⟩ := fetch?_eq_some hfetch
    rw [h.code] at hx
    obtain ⟨hindex, hmem⟩ := Array.getElem?_eq_some_iff.mp hx
    have hnext : (m.pc + 1).toInt = m.pc.toInt + 1 := add_one (by omega)
    apply (hadvance r h).execute hlow hr _ (S.args x (hmem ▸ Array.getElem_mem hindex)) hk hsp
    show -2 ^ 31 ≤ (m.pc + 1).toInt ∧ (m.pc + 1).toInt < 2 ^ 31
    omega

end Contained

end Machine

end MiniPascal
