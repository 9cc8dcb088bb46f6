import MiniPascal.Proofs.Delivery

/-!
# Resumption

A run that was cancelled is taken up again by another run of the same machine. However often that happens, the runs
together do what a single one does that is not cancelled.
-/

namespace MiniPascal.Machine

open List

/-! ### Steps without the output before them -/

theorem ending?_silent (m : Machine) : m.silent.ending? = m.ending? := by
  unfold ending?
  rw [m.step_behind]
  rcases m.silent.step with ⟨_ | _ | _ | _, m'⟩ <;> rfl

/-- Output from before stays in front of what the steps add. -/
theorem after_eq_onOut (m : Machine) (n : Nat) :
    m.after n = (m.silent.after n).onOut (m.out.extend (m.silent.after n).out) := by
  induction n with
  | zero => exact congrArg m.onOut (Output.extend_empty m.out).symm
  | succ n ih =>
    rw [after, after]
    generalize m.silent.after n = m' at ih ⊢
    rw [(m.after n).step_behind, m'.step_behind, ih]
    exact congrArg m'.silent.step.2.onOut (Output.extend_assoc m.out m'.out m'.silent.step.2.out)

variable {m : Machine} {n k : Nat} {outcome : Outcome}

theorem ending?_after_silent (m : Machine) (n : Nat) : (m.silent.after n).ending? = (m.after n).ending? := by
  rw [m.after_eq_onOut n, ← ending?_silent (m.silent.after n), ← ending?_silent ((m.silent.after n).onOut _)]
  rfl

theorem lasts_silent : m.silent.Lasts n ↔ m.Lasts n := by
  simp only [Lasts, ending?_after_silent]

theorem endsAt_silent : m.silent.EndsAt n outcome ↔ m.EndsAt n outcome := by
  constructor
  · rintro ⟨hlasts, hends⟩
    exact ⟨lasts_silent.mp hlasts, (ending?_after_silent m n).symm.trans hends⟩
  · rintro ⟨hlasts, hends⟩
    exact ⟨lasts_silent.mpr hlasts, (ending?_after_silent m n).trans hends⟩

theorem silent_eq_self (h : m.out = {}) : m.silent = m := by
  rw [silent, ← h]
  rfl

/-! ### Courses -/

/-- What becomes of a machine in a number of steps: it comes to an end, or it is cancelled after the last one. -/
def course (m : Machine) (n : Nat) : Outcome × Machine :=
  match stretch n m with
  | (some outcome, m) => (outcome, m)
  | (none, m) => (.cancelled, m)

theorem course_of_lasts (h : m.Lasts n) : m.course n = (.cancelled, m.after n) := by
  rw [course, stretch_of_lasts h]

theorem course_of_endsAt (h : m.EndsAt k outcome) (hk : k < n) : m.course n = (outcome, m.after (k + 1)) := by
  rw [course, stretch_of_endsAt h hk]

theorem EndsAt.ne_cancelled (h : m.EndsAt k outcome) : outcome ≠ .cancelled := by
  rintro rfl
  exact ending?_ne_cancelled h.ending

theorem lasts_iff_course : m.Lasts n ↔ (m.course n).1 = .cancelled := by
  obtain hlasts | ⟨k, hk, outcome, hends⟩ := m.lasts_or_endsAt n
  · simp only [hlasts, course_of_lasts hlasts]
  · simp only [hends.not_lasts hk, course_of_endsAt hends hk, hends.ne_cancelled]

theorem course_add (h : m.Lasts n) : m.course (n + k) = behind (m.after n).out ((m.after n).silent.course k) := by
  have hafter (i : Nat) : m.after (n + i) = ((m.after n).silent.after i).onOut
      ((m.after n).out.extend ((m.after n).silent.after i).out) := (m.after_add n i).trans (after_eq_onOut _ i)
  obtain hlasts | ⟨i, hi, outcome, hends⟩ := (m.after n).lasts_or_endsAt k
  · rw [course_of_lasts (lasts_add.mpr ⟨h, hlasts⟩), course_of_lasts (lasts_silent.mpr hlasts), hafter k]
    rfl
  · rw [course_of_endsAt (endsAt_add.mpr ⟨h, hends⟩) (Nat.add_lt_add_left hi n),
      course_of_endsAt (endsAt_silent.mpr hends) hi, Nat.add_assoc, hafter (i + 1)]
    rfl

/-- The output of a machine is empty, and it is about to look for a cancellation. -/
structure AtLook (m : Machine) : Prop where
  out : m.out = {}
  steps : interval ∣ m.steps

theorem AtLook.execution_eq (h : m.AtLook) (looks : Nat) : m.execution looks = m.course (looks * interval) := by
  have hallowance : m.allowance looks = looks * interval := by
    rw [allowance, untilLook, Nat.mod_eq_zero_of_dvd h.steps, Nat.sub_zero, Nat.mod_self, Nat.zero_add]
  rw [← hallowance]
  obtain ⟨hlasts, hexec⟩ | ⟨k, hk, outcome, hends, hexec⟩ := execution_cases looks m
  · rw [hexec, course_of_lasts hlasts]
  · rw [hexec, course_of_endsAt hends hk]

theorem AtLook.after (h : m.AtLook) {looks : Nat} (hlasts : m.Lasts (looks * interval)) :
    (m.after (looks * interval)).silent.AtLook := by
  refine ⟨rfl, ?_⟩
  rw [show (m.after (looks * interval)).silent.steps = (m.after (looks * interval)).steps from rfl,
    steps_after hlasts.good]
  exact Nat.dvd_add h.steps (Nat.dvd_mul_left interval looks)

theorem ofCode_atLook (config : Config) (code : Array Instr) : (ofCode config code).AtLook :=
  ⟨rfl, Nat.dvd_zero interval⟩

/-! ### Runs -/

open Writer (Record)

variable {σ : Type}

/-- Runs that follow each other as long as they are cancelled. Each of them may look a number of times before its
cancellation. -/
def resume (w : Writer σ) : List Nat → Machine → σ → Outcome × Machine × σ
  | [], m, s => (.cancelled, m, s)
  | looks :: rest, m, s =>
    match m.run w looks s with
    | (.cancelled, m, s) => resume w rest m s
    | ended => ended

/-- What runs with a record give: an outcome, the machine without its output, and the output in the record. -/
structure Gives (result : Outcome × Machine × σ × Record) (before : Record) (ended : Outcome × Machine) : Prop where
  outcome : result.1 = ended.1
  machine : result.2.1 = ended.2.silent
  taken : result.2.2.2.taken = before.taken ++ ended.2.out.text

variable {w : Writer σ}

theorem run_gives (hw : ∀ s chunk, (w.write s chunk).1 = none) (looks : Nat) (m : Machine) (s : σ) (r : Record) :
    Gives (m.run w.recorded looks (s, r)) r (m.execution looks) := by
  have haccepts (s : σ) (chunks : List Text) : w.Accepts s chunks := by
    induction chunks generalizing s with
    | nil => exact fun e he => absurd he not_mem_nil
    | cons chunk rest ih => exact forall_mem_cons.mpr ⟨hw s chunk, ih _⟩
  rw [run_recorded, run_eq]
  refine ⟨?_, rfl, ?_⟩
  · dsimp only
    rw [Record.refusal?, List.findSome?_eq_none_iff.mpr (haccepts _ _)]
    cases (m.execution looks).1 <;> rfl
  · rw [Record.taken_append, (haccepts s _).taken, Output.flatten_handed]

theorem resume_gives (hw : ∀ s chunk, (w.write s chunk).1 = none) (pattern : List Nat) (hm : m.AtLook) (s : σ)
    (r : Record) : Gives (resume w.recorded pattern m (s, r)) r (m.course (pattern.sum * interval)) := by
  induction pattern generalizing m s r with
  | nil =>
    rw [sum_nil, Nat.zero_mul]
    have htext : m.out.text = [] := by rw [hm.out]; rfl
    exact ⟨rfl, (silent_eq_self hm.out).symm, ((congrArg (r.taken ++ ·) htext).trans (append_nil _)).symm⟩
  | cons looks rest ih =>
    rw [sum_cons, Nat.add_mul, resume]
    have hrun := run_gives hw looks m s r
    rw [hm.execution_eq] at hrun
    obtain hlasts | ⟨k, hk, outcome, hends⟩ := m.lasts_or_endsAt (looks * interval)
    · -- The first run is cancelled, and the others go on from there.
      rw [course_of_lasts hlasts] at hrun
      rw [course_add hlasts]
      generalize m.run w.recorded looks (s, r) = result at hrun ⊢
      obtain ⟨outcome, m', s', r'⟩ := result
      obtain ⟨rfl, rfl, htaken⟩ := hrun
      obtain ⟨houtcome, hmachine, htaken'⟩ := ih (hm.after hlasts) s' r'
      refine ⟨houtcome, hmachine, htaken'.trans ?_⟩
      dsimp only at htaken
      rw [htaken, append_assoc, ← Output.text_extend]
      rfl
    · rw [course_of_endsAt hends hk] at hrun
      rw [course_of_endsAt hends (Nat.lt_add_right _ hk)]
      have hne : (m.run w.recorded looks (s, r)).1 ≠ .cancelled := by
        rw [hrun.outcome]
        exact hends.ne_cancelled
      split
      · next hcancelled =>
        rw [hcancelled] at hne
        exact absurd rfl hne
      · exact hrun

theorem Gives.ext {result result' : Outcome × Machine × σ × Record} {before : Record} {ended : Outcome × Machine}
    (h : Gives result before ended) (h' : Gives result' before ended) :
    result.1 = result'.1 ∧ result.2.1 = result'.2.1 ∧ result.2.2.2.taken = result'.2.2.2.taken :=
  ⟨h.outcome.trans h'.outcome.symm, h.machine.trans h'.machine.symm, h.taken.trans h'.taken.symm⟩

/-- Runs that are taken up again after each cancellation end if and only if a single run ends, and then as that one
does, with the same machine and the same output. When they are cancelled, the machine has taken a number of steps that
is a multiple of 1024, and none of them was refused. -/
theorem resume_agrees (w : Writer σ) (hw : ∀ s chunk, (w.write s chunk).1 = none) (config : Config)
    (code : Array Instr) (pattern : List Nat) (s : σ) :
    let start := ofCode config code
    let r := resume w.recorded pattern start (s, [])
    (r.1 = .cancelled → 1024 ∣ r.2.1.steps ∧ (∀ i < r.2.1.steps, (start.after i).step.1 = .success) ∧
      r.2.1 = (start.after r.2.1.steps).silent ∧ r.2.2.2.taken = start.prints r.2.1.steps) ∧
    (r.1 ≠ .cancelled ↔ ∃ looks ≤ pattern.sum, (start.run w.recorded looks (s, [])).1 ≠ .cancelled) ∧
    ∀ looks, r.1 ≠ .cancelled → (start.run w.recorded looks (s, [])).1 ≠ .cancelled →
      let u := start.run w.recorded looks (s, [])
      r.1 = u.1 ∧ r.2.1 = u.2.1 ∧ r.2.2.2.taken = u.2.2.2.taken := by
  intro start r
  have hlook : start.AtLook := ofCode_atLook config code
  have hr : Gives r [] (start.course (pattern.sum * interval)) := resume_gives hw pattern hlook s []
  have hrun (looks : Nat) : Gives (start.run w.recorded looks (s, [])) [] (start.course (looks * interval)) := by
    rw [← hlook.execution_eq]
    exact run_gives hw looks start s []
  have hcancelled {looks : Nat} {result : Outcome × Machine × σ × Record}
      (h : Gives result [] (start.course (looks * interval))) :
      result.1 = .cancelled ↔ start.Lasts (looks * interval) := by
    rw [h.outcome, lasts_iff_course]
  refine ⟨fun h => ?_, ?_, fun looks hended hended' => ?_⟩
  · have hlasts := (hcancelled hr).mp h
    rw [course_of_lasts hlasts] at hr
    have hsteps : r.2.1.steps = pattern.sum * interval := by
      rw [hr.machine]
      exact (steps_after hlasts.good).trans (Nat.zero_add _)
    rw [hsteps]
    refine ⟨Nat.dvd_mul_left interval _, fun i hi => ending?_eq_none.mp (hlasts i hi), hr.machine, ?_⟩
    rw [hr.taken, text_after hlasts.good]
    rfl
  · constructor
    · intro h
      rw [Ne, hcancelled hr, ← hcancelled (hrun pattern.sum)] at h
      exact ⟨pattern.sum, Nat.le_refl _, h⟩
    · rintro ⟨looks, hle, hended⟩ hcancel
      have hlasts := (hcancelled hr).mp hcancel
      exact hended ((hcancelled (hrun looks)).mpr (hlasts.mono (Nat.mul_le_mul_right interval hle)))
  · rw [Ne, hcancelled hr] at hended
    rw [Ne, hcancelled (hrun looks)] at hended'
    -- Both end at the first step that ends a run.
    obtain ⟨k, hk, outcome, hends⟩ := (start.lasts_or_endsAt _).resolve_left hended
    obtain ⟨k', hk', outcome', hends'⟩ := (start.lasts_or_endsAt _).resolve_left hended'
    obtain ⟨rfl, rfl⟩ := hends.unique hends'
    have hu := hrun looks
    rw [course_of_endsAt hends hk] at hr
    rw [course_of_endsAt hends hk'] at hu
    exact hr.ext hu

/-- A program that prints two values and counts down from 171 between them. -/
def countdown : Array Instr :=
  #[⟨.push, 0, .integer 7⟩, ⟨.write, 0, .integer 0⟩, ⟨.push, 0, .integer 171⟩, ⟨.push, 0, .integer 1⟩,
    ⟨.binary .sub, 0, .integer 0⟩, ⟨.dup, 0, .integer 0⟩, ⟨.push, 0, .integer 0⟩,
    ⟨.binary (.compare .equal), 0, .integer 0⟩, ⟨.jneq, 0, .integer 3⟩, ⟨.push, 0, .integer 8⟩,
    ⟨.write, 0, .integer 0⟩, ⟨.halt, 0, .integer 0⟩]

/-- A cancellation between the two values does not change what is printed. -/
theorem resume_agrees_countdown :
    let start := ofCode { stackSize := 8, heapSize := 1 } countdown
    let r := resume (Writer.bounded none).recorded [1, 1] start (#[], [])
    let u := start.run (Writer.bounded none).recorded 2 (#[], [])
    r.1 = .finished ∧ r.2.1 = u.2.1 ∧ r.2.2.2.taken = u.2.2.2.taken := by
  obtain ⟨-, hends, hagrees⟩ := resume_agrees (Writer.bounded none) (fun _ _ => rfl)
    { stackSize := 8, heapSize := 1 } countdown [1, 1] #[]
  have hfinished : ((ofCode { stackSize := 8, heapSize := 1 } countdown).run (Writer.bounded none).recorded 2
      (#[], [])).1 = .finished := by decide +kernel
  have hu : ((ofCode { stackSize := 8, heapSize := 1 } countdown).run (Writer.bounded none).recorded 2
      (#[], [])).1 ≠ .cancelled := fun h => Outcome.noConfusion (hfinished.symm.trans h)
  obtain ⟨houtcome, hsame⟩ := hagrees 2 (hends.mpr ⟨2, Nat.le_refl 2, hu⟩) hu
  dsimp only
  exact ⟨houtcome.trans hfinished, hsame⟩

end MiniPascal.Machine
