import MiniPascal.Machine.Run
import MiniPascal.Proofs.Machine.Execution

/-!
# Passages through a piece of code

A passage is a number of steps that all start inside a piece of code. A piece of code that has a meaning is either
passed up to a state that fits its result, or it stops at the fault that the meaning has instead. Pieces are put
together in the way in which their results are.
-/

namespace MiniPascal.Machine

open List

def Within (lo hi : Nat) (m : Machine) : Prop := lo ≤ m.pc.toInt ∧ m.pc.toInt < hi

/-- A number of steps, all of which start between two addresses. -/
def Passes (lo hi : Nat) : Nat → Machine → Machine → Prop
  | 0, m, m' => m = m'
  | n + 1, m, m' => m.Within lo hi ∧ m.step.1 = .success ∧ Passes lo hi n m.step.2 m'

/-- A fault between two addresses, after steps that start there as well. -/
def FaultsWithin (lo hi : Nat) (f : Fault) (m : Machine) : Prop :=
  ∃ n m', Passes lo hi n m m' ∧ m'.Within lo hi ∧ m'.step.1 = .fault f

variable {lo hi lo' hi' n k : Nat} {m m' m'' : Machine} {f f' : Fault}

theorem Within.mono (hle : lo' ≤ lo ∧ hi ≤ hi') (h : m.Within lo hi) : m.Within lo' hi' := by
  obtain ⟨hge, hlt⟩ := h
  constructor <;> omega

/-- A machine at the end of a piece of code is outside of it. -/
theorem not_within (h : m.pc.toInt = hi) : ¬m.Within lo hi := by
  intro hwithin
  have := hwithin.2
  omega

namespace Passes

variable (h : Passes lo hi n m m')

include h

theorem mono (hle : lo' ≤ lo ∧ hi ≤ hi') : Passes lo' hi' n m m' := by
  induction n generalizing m with
  | zero => exact h
  | succ n ih => exact ⟨h.1.mono hle, h.2.1, ih h.2.2⟩

theorem trans (h' : Passes lo hi k m' m'') : Passes lo hi (n + k) m m'' := by
  induction n generalizing m with
  | zero =>
    cases (h : m = m')
    rwa [Nat.zero_add]
  | succ n ih =>
    rw [Nat.add_right_comm]
    exact ⟨h.1, h.2.1, ih h.2.2⟩

/-- A passage is a prefix of every longer one. -/
theorem split (h' : Passes lo hi (n + k) m m'') : Passes lo hi k m' m'' := by
  induction n generalizing m with
  | zero =>
    cases (h : m = m')
    rwa [Nat.zero_add] at h'
  | succ n ih =>
    rw [Nat.add_right_comm] at h'
    exact ih h.2.2 h'.2.2

/-- A passage cannot be continued where the machine is outside or does not go on. -/
theorem length_le (hend : m'.Within lo hi → m'.step.1 ≠ .success) (h' : Passes lo hi k m m'') : k ≤ n := by
  by_contra hlt
  obtain ⟨j, rfl⟩ : ∃ j, k = n + (j + 1) := ⟨k - n - 1, by omega⟩
  have hmore := h.split h'
  exact hend hmore.1 hmore.2.1

omit h in
/-- The start of a passage is one. -/
theorem take (h : Passes lo hi (n + k) m m') : ∃ m'', Passes lo hi n m m'' := by
  induction n generalizing m with
  | zero => exact ⟨m, rfl⟩
  | succ n ih =>
    rw [Nat.add_right_comm] at h
    obtain ⟨m'', hrest⟩ := ih h.2.2
    exact ⟨m'', h.1, h.2.1, hrest⟩

/-- All passages of one length end in one state. -/
theorem unique (h' : Passes lo hi n m m'') : m' = m'' := h.split (k := 0) h'

end Passes

theorem Passes.end_unique (h : Passes lo hi n m m') (hend : m'.Within lo hi → m'.step.1 ≠ .success)
    (h' : Passes lo hi k m m'') (hend' : m''.Within lo hi → m''.step.1 ≠ .success) : m' = m'' := by
  have hle := h.length_le hend h'
  have hge := h'.length_le hend' h
  obtain rfl : n = k := by omega
  exact h.unique h'

/-- The end of the code is reached in one way. -/
theorem Passes.exit_unique (h : Passes lo hi n m m') (hpc : m'.pc.toInt = hi) (h' : Passes lo hi k m m'')
    (hpc' : m''.pc.toInt = hi) : m' = m'' :=
  h.end_unique (fun hin => absurd hin (not_within hpc)) h' fun hin => absurd hin (not_within hpc')

namespace FaultsWithin

theorem mono (hle : lo' ≤ lo ∧ hi ≤ hi') (h : FaultsWithin lo hi f m) : FaultsWithin lo' hi' f m := by
  obtain ⟨n, m', hpass, hwithin, hfault⟩ := h
  exact ⟨n, m', hpass.mono hle, hwithin.mono hle, hfault⟩

theorem after (h : Passes lo hi n m m') (h' : FaultsWithin lo hi f m') : FaultsWithin lo hi f m := by
  obtain ⟨k, m'', hpass, hend⟩ := h'
  exact ⟨n + k, m'', h.trans hpass, hend⟩

end FaultsWithin

/-- The machine stays between two addresses for ever. -/
def Diverges (lo hi : Nat) (m : Machine) : Prop := ∀ n, ∃ m', Passes lo hi n m m'

namespace Diverges

theorem mono (hle : lo' ≤ lo ∧ hi ≤ hi') (h : Diverges lo hi m) : Diverges lo' hi' m := by
  intro n
  obtain ⟨m', hpass⟩ := h n
  exact ⟨m', hpass.mono hle⟩

theorem after (h : Passes lo hi n m m') (h' : Diverges lo hi m') : Diverges lo hi m := by
  intro k
  obtain ⟨m'', hpass⟩ := h' k
  have hall := h.trans hpass
  rw [Nat.add_comm] at hall
  exact hall.take

/-- From every state of some kind, the machine comes to another one of that kind, or stays for ever. -/
theorem of_progress {I : Machine → Prop}
    (hprogress : ∀ m, I m → Diverges lo hi m ∨ ∃ n m', Passes lo hi (n + 1) m m' ∧ I m') (hm : I m) :
    Diverges lo hi m := by
  intro k
  induction k generalizing m with
  | zero => exact ⟨m, rfl⟩
  | succ k ih =>
    rcases hprogress m hm with hstays | ⟨n, m', hpass, hm'⟩
    · exact hstays (k + 1)
    · obtain ⟨m'', hrest⟩ := ih hm'
      have hall := hpass.trans hrest
      rw [show n + 1 + k = k + 1 + n by omega] at hall
      exact hall.take

/-- A passage that cannot be continued is not one of a machine that stays for ever. -/
theorem not_passes (h : Diverges lo hi m) (hpass : Passes lo hi n m m') (hend : m'.Within lo hi → m'.step.1 ≠ .success) :
    False := by
  obtain ⟨m'', hlonger⟩ := h (n + 1)
  exact Nat.not_succ_le_self n (hpass.length_le hend hlonger)

end Diverges

/-! ## Results -/

section

variable {α β : Type} {P P' : α → Machine → Prop} {Q : β → Machine → Prop} {r : Except Fault α}
  {next : α → Except Fault β} {a : α}

/-- A piece of code is passed up to a state that fits a result, or stops at a fault. -/
def Results (lo hi : Nat) (P : α → Machine → Prop) (m : Machine) : Except Fault α → Prop
  | .ok a => ∃ n m', Passes lo hi n m m' ∧ P a m'
  | .error f => FaultsWithin lo hi f m

namespace Results

/-- Nothing is done. -/
theorem refl (h : P a m) : Results lo hi P m (.ok a) := ⟨0, m, rfl, h⟩

theorem mono (hle : lo' ≤ lo ∧ hi ≤ hi') (h : Results lo hi P m r) : Results lo' hi' P m r := by
  cases r with
  | ok a =>
    obtain ⟨n, m', hpass, hP⟩ := h
    exact ⟨n, m', hpass.mono hle, hP⟩
  | error f => exact FaultsWithin.mono hle h

theorem after (h : Passes lo hi n m m') (h' : Results lo hi P m' r) : Results lo hi P m r := by
  cases r with
  | ok a =>
    obtain ⟨k, m'', hpass, hP⟩ := h'
    exact ⟨n + k, m'', h.trans hpass, hP⟩
  | error f => exact FaultsWithin.after h h'

/-- Code that goes on with a result. -/
theorem bind (h : Results lo hi P m r) (hnext : ∀ a m', r = .ok a → P a m' → Results lo hi Q m' (next a)) :
    Results lo hi Q m (r >>= next) := by
  cases r with
  | error f => exact h
  | ok a =>
    obtain ⟨n, m', hpass, hP⟩ := h
    exact after hpass (hnext a m' rfl hP)

/-- The result of an operation on words, seen as a result of another kind. -/
theorem of_map {g : β → α} {r : Except Fault β} (h : Results lo hi P m (r.map g)) :
    Results lo hi (fun b => P (g b)) m r := by
  cases r with
  | error f => exact h
  | ok b => exact h

end Results

/-- A piece of code comes to the results of a relation, and is not left if there are none. -/
structure Meets (lo hi : Nat) (P : α → Machine → Prop) (R : Except Fault α → Prop) (m : Machine) : Prop where
  results : ∀ r, R r → Results lo hi P m r
  diverges : (∀ r, ¬R r) → Diverges lo hi m

namespace Meets

variable {R : Except Fault α → Prop}

theorem mono (hle : lo' ≤ lo ∧ hi ≤ hi') (h : Meets lo hi P R m) : Meets lo' hi' P R m where
  results r hr := (h.results r hr).mono hle
  diverges hnone := (h.diverges hnone).mono hle

/-- Code that goes on in the same way from every result. -/
theorem andThen (h : Meets lo hi P R m) (hnext : ∀ a m', P a m' → ∃ n m'', Passes lo hi n m' m'' ∧ P' a m'') :
    Meets lo hi P' R m where
  results r hr := by
    have hresult := h.results r hr
    cases r with
    | error f => exact hresult
    | ok a =>
      obtain ⟨n, m', hpass, hP⟩ := hresult
      obtain ⟨k, m'', hpass', hP'⟩ := hnext a m' hP
      exact ⟨n + k, m'', hpass.trans hpass', hP'⟩
  diverges := h.diverges

variable (h : Meets lo hi P R m) (hP : ∀ a m', P a m' → m'.pc.toInt = hi)

include h hP

/-- Where a passage ends, a result is found. -/
theorem of_passes (hpass : Passes lo hi n m m') (hend : m'.Within lo hi → m'.step.1 ≠ .success) :
    (∃ a, R (.ok a) ∧ P a m') ∨ ∃ f, R (.error f) ∧ m'.Within lo hi ∧ m'.step.1 = .fault f := by
  by_cases hR : ∃ r, R r
  · obtain ⟨r, hr⟩ := hR
    have hresult := h.results r hr
    cases r with
    | ok a =>
      obtain ⟨k, m'', hpass', ha⟩ := hresult
      cases hpass.end_unique hend hpass' fun hin => absurd hin (not_within (hP a m'' ha))
      exact .inl ⟨a, hr, ha⟩
    | error f =>
      obtain ⟨k, m'', hpass', hwithin, hstep⟩ := hresult
      cases hpass.end_unique hend hpass' fun _ => by rw [hstep]; nofun
      exact .inr ⟨f, hr, hwithin, hstep⟩
  · exact ((h.diverges (not_exists.mp hR)).not_passes hpass hend).elim

theorem ok_of_passes (hpass : Passes lo hi n m m') (hpc : m'.pc.toInt = hi) : ∃ a, R (.ok a) ∧ P a m' := by
  rcases h.of_passes hP hpass fun hin => absurd hin (not_within hpc) with hok | ⟨f, -, hwithin, -⟩
  · exact hok
  · exact absurd hwithin (not_within hpc)

theorem error_of_faults (hfault : FaultsWithin lo hi f m) : R (.error f) := by
  obtain ⟨n, m', hpass, hwithin, hstep⟩ := hfault
  rcases h.of_passes hP hpass fun _ => by rw [hstep]; nofun with ⟨a, -, ha⟩ | ⟨f', hf', -, hstep'⟩
  · exact absurd hwithin (not_within (hP a m' ha))
  · cases hstep.symm.trans hstep'
    exact hf'

end Meets

end

/-! ## Single instructions -/

def Stands (code : Array Instr) (pc : Nat) (xs : List Instr) : Prop := ∀ i < xs.length, code[pc + i]? = xs[i]?

namespace Stands

variable {code : Array Instr} {pc : Nat} {x : Instr} {xs ys : List Instr}

theorem whole (xs : List Instr) : Stands xs.toArray 0 xs := by
  intro i _
  rw [Nat.zero_add, List.getElem?_toArray]

theorem left (h : Stands code pc (xs ++ ys)) : Stands code pc xs := by
  intro i hi
  rw [h i (by rw [length_append]; omega), List.getElem?_append_left hi]

theorem right (h : Stands code pc (xs ++ ys)) : Stands code (pc + xs.length) ys := by
  intro i hi
  rw [Nat.add_assoc, h (xs.length + i) (by rw [length_append]; omega),
    List.getElem?_append_right (Nat.le_add_right _ _), Nat.add_sub_cancel_left]

theorem head (h : Stands code pc (x :: xs)) : code[pc]? = some x := h 0 (Nat.zero_lt_succ _)

theorem tail (h : Stands code pc (x :: xs)) : Stands code (pc + 1) xs := by
  intro i hi
  rw [Nat.add_assoc, Nat.add_comm 1 i, h (i + 1) (Nat.succ_lt_succ hi), List.getElem?_cons_succ]

theorem le_size (h : Stands code pc xs) (hne : xs ≠ []) : pc + xs.length ≤ code.size := by
  have hpos := length_pos_iff.mpr hne
  have hlast := h (xs.length - 1) (by omega)
  rw [List.getElem?_eq_getElem (by omega)] at hlast
  obtain ⟨hlt, -⟩ := Array.getElem?_eq_some_iff.mp hlast
  omega

end Stands

namespace At

variable {A A' : Activation} {pc pc' : Nat} {ds ds' : List Datum} {d : Datum} {x : Instr}

theorem within (h : At A pc ds m) : m.Within pc (pc + 1) := by
  have hpc := h.pc
  constructor <;> omega

/-- A step that leads to a state. -/
theorem passes (h : At A pc ds m) (hstep : Yields A' pc' ds' m.step) :
    ∃ m', Passes pc (pc + 1) 1 m m' ∧ At A' pc' ds' m' :=
  ⟨m.step.2, ⟨h.within, hstep.1, rfl⟩, hstep.2⟩

/-- A step with a result on the stack. -/
theorem results (h : At A pc ds m) {r : Except Fault (List Datum)}
    (hstep : match r with
      | .ok ds' => Yields A (pc + 1) ds' m.step
      | .error f => m.step.1 = .fault f) : Results pc (pc + 1) (At A (pc + 1)) m r := by
  cases r with
  | ok ds' =>
    obtain ⟨m', hpass, hat⟩ := h.passes hstep
    exact ⟨1, m', hpass, hat⟩
  | error f => exact ⟨0, m, rfl, h.within, hstep⟩

theorem results_push (h : At A pc ds m) {level : Int8} (hx : A.code[pc]? = some ⟨.push, level, d⟩)
    (hd : A.admits d) (hroom : A.top + ds.length + 1 < A.size) :
    Results pc (pc + 1) (fun d => At A (pc + 1) (d :: ds)) m (.ok d) := by
  obtain ⟨hat, hstep⟩ := h.step_eq hx (n := 0) rfl (Nat.zero_le _)
  have hpush := hat.push hd
  rw [if_pos hroom] at hpush
  exact h.results (r := .ok (d :: ds)) (hstep ▸ hpush)

theorem results_unary {op : UnaryOp} (h : At A pc (d :: ds) m)
    (hx : A.code[pc]? = some { op := .unary op }) (hadmits : ∀ d, A.admits d) :
    Results pc (pc + 1) (fun d => At A (pc + 1) (d :: ds)) m (op.apply d) := by
  obtain ⟨hat, hstep⟩ := h.step_eq hx (n := 1) rfl (by rw [length_cons]; omega)
  have hupdate := hat.of_computed (hat.bears.update_top hat.roomy (f := op.apply) fun r _ => hadmits r)
  exact (h.results (hstep ▸ hupdate)).of_map

theorem results_binary {op : BinaryOp} {a b : Datum} (h : At A pc (b :: a :: ds) m)
    (hx : A.code[pc]? = some { op := .binary op }) (hadmits : ∀ d, A.admits d) :
    Results pc (pc + 1) (fun d => At A (pc + 1) (d :: ds)) m (op.apply a b) := by
  obtain ⟨hat, hstep⟩ := h.step_eq hx (n := 2) rfl (by simp only [length_cons]; omega)
  have hupdate := hat.of_computed (hat.bears.pop_update hat.roomy (f := op.apply) fun r _ => hadmits r)
  exact (h.results (hstep ▸ hupdate)).of_map

/-- The address of a word in the frame that is a number of blocks further out. -/
theorem results_pushVar (h : At A pc ds m) {level : Int8} {hops frame slot : Nat} {offset : Int64}
    (hx : A.code[pc]? = some ⟨.pushVar, level, .integer offset⟩) (hlevel : level.toInt = hops)
    (hframe : (A.fp :: A.outer)[hops]? = some frame) (hslot : Int64.ofNat frame + offset = Int64.ofNat slot)
    (hadmits : ∀ d, A.admits d) (hroom : A.top + ds.length + 1 < A.size) :
    Results pc (pc + 1) (fun d => At A (pc + 1) (d :: ds)) m (.ok (.address (Int64.ofNat slot))) := by
  obtain ⟨hat, hstep⟩ := h.step_eq hx (n := 0) rfl (Nat.zero_le _)
  have hpush := hat.push (hadmits (.address (Int64.ofNat slot)))
  rw [if_pos hroom] at hpush
  refine h.results (r := .ok (_ :: ds)) ?_
  rw [hstep, hat.execute_pushVar hlevel hframe, hslot]
  exact hpush

theorem results_eval {slot : Nat} (h : At A pc (.address (Int64.ofNat slot) :: ds) m)
    (hx : A.code[pc]? = some (Opcode.eval.withInt 1)) (hpos : 1 ≤ slot) (htop : slot ≤ A.top)
    (hfixed : ¬A.writable slot) : Results pc (pc + 1) (fun d => At A (pc + 1) (d :: ds)) m (.ok (A.frozen slot)) := by
  obtain ⟨hat, hstep⟩ := h.step_eq hx (n := 1) rfl (by rw [length_cons]; omega)
  have hroom := h.room
  rw [length_cons] at hroom
  have heval := hat.eval (n := 1) (k := 1) rfl (Nat.le_refl 1) hpos (by omega)
  rw [if_pos (by omega), blockOf_one (hat.frozen slot htop hfixed)] at heval
  exact h.results (r := .ok (_ :: ds)) (hstep ▸ heval)

theorem passes_jump (h : At A pc ds m) {target : Nat} (hx : A.code[pc]? = some (Opcode.jump.withTarget target))
    (htarget : target ≤ A.code.size) : ∃ m', Passes pc (pc + 1) 1 m m' ∧ At A target ds m' := by
  have hcode := A.code_le
  obtain ⟨hat, hstep⟩ := h.step_eq hx (n := 0) rfl (Nat.zero_le _)
  have hjump := hat.jump (Word.toInt_ofNat (n := target) (by omega))
  exact h.passes (hstep ▸ hjump)

theorem pop_yields (h : At A pc (d :: ds) m) {next : Datum → Machine → Effect}
    (hnext : ∀ m', At A pc ds m' → Yields A' pc' ds' (next d m')) : Yields A' pc' ds' (m.pop next) :=
  h.pop_ind hnext

/-- A jump that is taken if a truth value does not hold. -/
theorem passes_jneq {b : Bool} (h : At A pc (.boolean b :: ds) m) {target : Nat}
    (hx : A.code[pc]? = some (Opcode.jneq.withTarget target)) (htarget : target ≤ A.code.size) :
    ∃ m', Passes pc (pc + 1) 1 m m' ∧ At A (if b then pc + 1 else target) ds m' := by
  have hcode := A.code_le
  obtain ⟨hat, hstep⟩ := h.step_eq hx (n := 1) rfl (by rw [length_cons]; omega)
  refine h.passes (hstep ▸ hat.pop_yields fun m' hat' => ?_)
  cases b with
  | true => exact ⟨rfl, hat'⟩
  | false => exact hat'.jump (Word.toInt_ofNat (by omega))

end At

end MiniPascal.Machine
