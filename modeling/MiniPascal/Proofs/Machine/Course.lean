import MiniPascal.Proofs.Machine.Printing

/-!
# The course of a run

A run takes steps until one of them ends it, or until it is cancelled at a look. Which of the two happens, and after
how many steps, does not depend on the way in which the steps are grouped between the looks.
-/

namespace MiniPascal.Machine

/-- The outcome of a run that the next step ends. -/
def ending? (m : Machine) : Option Outcome :=
  match m.step with
  | (.success, _) => none
  | (.halted, _) => some .finished
  | (.stopped (.fault cause), m') => some (.faulted m.pc m'.sp cause)
  | (.stopped .crash, _) => some .crashed

/-- A number of steps go on. -/
def Lasts (m : Machine) (n : Nat) : Prop := ∀ i < n, (m.after i).ending? = none

/-- The step after a number of others is the first one that ends a run. -/
structure EndsAt (m : Machine) (n : Nat) (outcome : Outcome) : Prop where
  lasts : m.Lasts n
  ending : (m.after n).ending? = some outcome

variable {m : Machine} {n k looks : Nat} {outcome : Outcome}

theorem ending?_eq_none : m.ending? = none ↔ m.step.1 = .success := by
  unfold ending?
  split
  · next h => simp [h]
  · next h => simp [h]
  · next h => simp [h]
  · next h => simp [h]

theorem ending?_ne_cancelled : m.ending? ≠ some .cancelled := by
  unfold ending?
  split <;> simp

theorem lasts_or_endsAt (m : Machine) (n : Nat) : m.Lasts n ∨ ∃ k < n, ∃ outcome, m.EndsAt k outcome := by
  induction n with
  | zero => exact .inl fun i hi => absurd hi (Nat.not_lt_zero i)
  | succ n ih =>
    obtain hlasts | ⟨k, hk, outcome, hends⟩ := ih
    · cases hn : (m.after n).ending? with
      | none =>
        refine .inl fun i hi => ?_
        obtain hi | rfl := Nat.lt_succ_iff_lt_or_eq.mp hi
        · exact hlasts i hi
        · exact hn
      | some outcome => exact .inr ⟨n, n.lt_succ_self, outcome, hlasts, hn⟩
    · exact .inr ⟨k, Nat.lt_succ_of_lt hk, outcome, hends⟩

theorem Lasts.mono (h : m.Lasts n) (hk : k ≤ n) : m.Lasts k := fun i hi => h i (Nat.lt_of_lt_of_le hi hk)

theorem EndsAt.not_lasts (h : m.EndsAt k outcome) (hk : k < n) : ¬ m.Lasts n := by
  intro hlasts
  have hnone := hlasts k hk
  rw [h.ending] at hnone
  cases hnone

theorem EndsAt.unique {outcome' : Outcome} (h : m.EndsAt k outcome) (h' : m.EndsAt n outcome') :
    k = n ∧ outcome = outcome' := by
  obtain hlt | rfl | hlt := Nat.lt_trichotomy k n
  · exact absurd h'.lasts (h.not_lasts hlt)
  · exact ⟨rfl, Option.some.inj (h.ending.symm.trans h'.ending)⟩
  · exact absurd h.lasts (h'.not_lasts hlt)

/-- Steps that go on may be taken in two parts. -/
theorem lasts_add : m.Lasts (n + k) ↔ m.Lasts n ∧ (m.after n).Lasts k := by
  constructor
  · intro h
    refine ⟨h.mono (Nat.le_add_right n k), fun i hi => ?_⟩
    rw [← after_add]
    exact h (n + i) (Nat.add_lt_add_left hi n)
  · rintro ⟨hn, hk⟩ i hi
    by_cases hin : i < n
    · exact hn i hin
    · obtain ⟨j, rfl⟩ := Nat.exists_eq_add_of_le (Nat.not_lt.mp hin)
      rw [after_add]
      exact hk j (by omega)

theorem endsAt_add : m.EndsAt (n + k) outcome ↔ m.Lasts n ∧ (m.after n).EndsAt k outcome := by
  constructor
  · rintro ⟨hlasts, hends⟩
    obtain ⟨hn, hk⟩ := lasts_add.mp hlasts
    rw [after_add] at hends
    exact ⟨hn, hk, hends⟩
  · rintro ⟨hn, hk, hends⟩
    refine ⟨lasts_add.mpr ⟨hn, hk⟩, ?_⟩
    rw [after_add]
    exact hends

/-! ### Runs -/

theorem stretch_succ (n : Nat) (m : Machine) :
    stretch (n + 1) m = match m.ending? with
      | none => stretch n m.step.2
      | some outcome => (some outcome, m.step.2) := by
  unfold ending?
  rw [stretch]
  split <;> next h => simp only [h]

theorem stretch_of_lasts (h : m.Lasts n) : stretch n m = (none, m.after n) := by
  induction n generalizing m with
  | zero => rfl
  | succ n ih =>
    rw [Nat.add_comm] at h ⊢
    rw [after_add, Nat.add_comm, stretch_succ, show m.ending? = none from h 0 (by omega)]
    exact ih (lasts_add.mp h).2

theorem stretch_of_endsAt (h : m.EndsAt k outcome) (hk : k < n) : stretch n m = (some outcome, m.after (k + 1)) := by
  obtain ⟨d, rfl⟩ := Nat.exists_eq_add_of_lt hk
  clear hk
  induction k generalizing m with
  | zero => rw [stretch_succ, show m.ending? = some outcome from h.ending]; rfl
  | succ k ih =>
    rw [Nat.add_comm k 1] at h
    obtain ⟨hlasts, hends⟩ := endsAt_add.mp h
    rw [stretch_succ, show m.ending? = none from hlasts 0 Nat.one_pos, Nat.add_comm (k + 1) 1, after_add,
      Nat.add_right_comm]
    exact ih hends

theorem proceed_of_lasts (h : m.Lasts (looks * interval)) :
    proceed looks m = (.cancelled, m.after (looks * interval)) := by
  induction looks generalizing m with
  | zero => rw [Nat.zero_mul]; rfl
  | succ looks ih =>
    rw [Nat.succ_mul, Nat.add_comm (looks * interval)] at h ⊢
    obtain ⟨hfirst, hrest⟩ := lasts_add.mp h
    rw [proceed, stretch_of_lasts hfirst, after_add]
    exact ih hrest

theorem proceed_of_endsAt (h : m.EndsAt k outcome) (hk : k < looks * interval) :
    proceed looks m = (outcome, m.after (k + 1)) := by
  induction looks generalizing m k with
  | zero => omega
  | succ looks ih =>
    rw [proceed]
    by_cases hfirst : k < interval
    · rw [stretch_of_endsAt h hfirst]
    · obtain ⟨j, rfl⟩ := Nat.exists_eq_add_of_le (Nat.not_lt.mp hfirst)
      obtain ⟨hlasts, hends⟩ := endsAt_add.mp h
      rw [stretch_of_lasts hlasts, Nat.add_assoc, after_add]
      exact ih hends (by rw [Nat.succ_mul] at hk; omega)

/-- The number of steps up to the look that finds a cancellation. -/
def allowance (looks : Nat) (m : Machine) : Nat := m.untilLook + looks * interval

theorem execution_of_lasts (h : m.Lasts (m.allowance looks)) :
    m.execution looks = (.cancelled, m.after (m.allowance looks)) := by
  obtain ⟨hfirst, hrest⟩ := lasts_add.mp h
  rw [execution, stretch_of_lasts hfirst, allowance, after_add]
  exact proceed_of_lasts hrest

theorem execution_of_endsAt (h : m.EndsAt k outcome) (hk : k < m.allowance looks) :
    m.execution looks = (outcome, m.after (k + 1)) := by
  rw [execution]
  by_cases hfirst : k < m.untilLook
  · rw [stretch_of_endsAt h hfirst]
  · obtain ⟨j, rfl⟩ := Nat.exists_eq_add_of_le (Nat.not_lt.mp hfirst)
    obtain ⟨hlasts, hends⟩ := endsAt_add.mp h
    rw [stretch_of_lasts hlasts, Nat.add_assoc, after_add]
    exact proceed_of_endsAt hends (by rw [allowance] at hk; omega)

/-- A run comes to the first step that ends it, or to the look that cancels it. -/
theorem execution_cases (looks : Nat) (m : Machine) :
    m.Lasts (m.allowance looks) ∧ m.execution looks = (.cancelled, m.after (m.allowance looks)) ∨
      ∃ k < m.allowance looks, ∃ outcome, m.EndsAt k outcome ∧ m.execution looks = (outcome, m.after (k + 1)) := by
  obtain hlasts | ⟨k, hk, outcome, hends⟩ := m.lasts_or_endsAt (m.allowance looks)
  · exact .inl ⟨hlasts, execution_of_lasts hlasts⟩
  · exact .inr ⟨k, hk, outcome, hends, execution_of_endsAt hends hk⟩

/-! ### Counted and printed steps -/

theorem good_of_ending?_eq_none (h : m.ending? = none) : m.step.1.Good := by
  rw [ending?_eq_none.mp h]
  exact fun _ => Status.noConfusion

theorem good_of_finished (h : m.ending? = some .finished) : m.step.1.Good := by
  unfold ending? at h
  split at h
  · cases h
  · next hstep =>
    rw [hstep]
    exact fun _ => Status.noConfusion
  · cases h
  · cases h

theorem steps_after (h : ∀ i < n, (m.after i).step.1.Good) : (m.after n).steps = m.steps + n := by
  induction n with
  | zero => rfl
  | succ n ih =>
    rw [after, step_steps (fetch?_of_good (h n n.lt_succ_self)), ih fun i hi => h i (Nat.lt_succ_of_lt hi),
      Nat.add_assoc]

theorem text_after (h : ∀ i < n, (m.after i).step.1.Good) : (m.after n).out.text = m.out.text ++ m.prints n := by
  induction n with
  | zero => exact (List.append_nil _).symm
  | succ n ih =>
    rw [after, text_step (h n n.lt_succ_self), ih fun i hi => h i (Nat.lt_succ_of_lt hi), prints, List.append_assoc]

theorem Lasts.good (h : m.Lasts n) : ∀ i < n, (m.after i).step.1.Good :=
  fun i hi => good_of_ending?_eq_none (h i hi)

theorem EndsAt.good (h : m.EndsAt n .finished) : ∀ i < n + 1, (m.after i).step.1.Good := by
  intro i hi
  obtain hi | rfl := Nat.lt_succ_iff_lt_or_eq.mp hi
  · exact h.lasts.good i hi
  · exact good_of_finished h.ending

end MiniPascal.Machine
