import MiniPascal.Proofs.Machine.Course

/-!
# Delivery of the output

A run hands its output to a writer, one chunk for each line and one for what is left at the end. A writer may refuse
a chunk. If it refuses the last one, the run fails; a line that is refused is lost. So a run with a good end has
delivered all that its steps printed, unless a line was refused on the way.
-/

namespace MiniPascal

open List

namespace Writer

/-- The chunks that were handed to a writer, each with its answer. -/
abbrev Record : Type := List (Text × Option Text)

def Record.taken (r : Record) : Text := (r.filter fun e => e.2.isNone).flatMap Prod.fst

def Record.refusal? (r : Record) : Option Text := r.findSome? Prod.snd

variable {σ : Type}

/-- The answers of a writer to chunks that are handed to it one after the other. -/
def answers (w : Writer σ) : σ → List Text → Record
  | _, [] => []
  | s, chunk :: rest => (chunk, (w.write s chunk).1) :: w.answers (w.write s chunk).2 rest

def recorded (w : Writer σ) : Writer (σ × Record) where
  write s chunk := ((w.write s.1 chunk).1, (w.write s.1 chunk).2, s.2 ++ [(chunk, (w.write s.1 chunk).1)])

def Accepts (w : Writer σ) (s : σ) (chunks : List Text) : Prop := ∀ e ∈ w.answers s chunks, e.2 = none

instance (w : Writer σ) (s : σ) (chunks : List Text) : Decidable (w.Accepts s chunks) :=
  inferInstanceAs (Decidable (∀ e ∈ w.answers s chunks, e.2 = none))

theorem answers_append (w : Writer σ) (s : σ) (first second : List Text) :
    w.answers s (first ++ second) = w.answers s first ++ w.answers (w.feed s first) second := by
  induction first generalizing s with
  | nil => rfl
  | cons chunk rest ih => exact congrArg _ (ih _)

theorem accepts_append {w : Writer σ} {s : σ} {first second : List Text} :
    w.Accepts s (first ++ second) ↔ w.Accepts s first ∧ w.Accepts (w.feed s first) second := by
  rw [Accepts, answers_append, forall_mem_append]
  rfl

theorem feed_recorded (w : Writer σ) (s : σ) (r : Record) (chunks : List Text) :
    w.recorded.feed (s, r) chunks = (w.feed s chunks, r ++ w.answers s chunks) := by
  induction chunks generalizing s r with
  | nil => exact Prod.ext rfl (append_nil r).symm
  | cons chunk rest ih =>
    refine (ih (w.write s chunk).2 _).trans (Prod.ext rfl ?_)
    exact append_assoc r _ _

theorem Record.taken_append (r r' : Record) : (r ++ r').taken = r.taken ++ r'.taken := by
  simp only [taken, filter_append, flatMap_append]

theorem Accepts.taken {w : Writer σ} {s : σ} {chunks : List Text} (h : w.Accepts s chunks) :
    (w.answers s chunks).taken = chunks.flatten := by
  induction chunks generalizing s with
  | nil => rfl
  | cons chunk rest ih =>
    obtain ⟨hchunk, hrest⟩ := forall_mem_cons.mp h
    have htaken := ih hrest
    simp only [Record.taken, answers] at htaken ⊢
    rw [filter_cons_of_pos (by rw [hchunk]; rfl), flatMap_cons, htaken, flatten_cons]

end Writer

namespace Output

/-- The chunk that is left at the end. -/
def last (o : Output) : List Text := if o.pending.isEmpty then [] else [o.pending.toList]

def handed (o : Output) : List Text := o.chunks.toList ++ o.last

theorem flatten_last (o : Output) : o.last.flatten = o.pending.toList := by
  unfold last
  split
  · next h => rw [Array.isEmpty_iff.mp h]; rfl
  · exact append_nil _

theorem flatten_handed (o : Output) : o.handed.flatten = o.text := by
  rw [handed, flatten_append, flatten_last]
  rfl

end Output

namespace Machine

open Writer (Record)

variable {σ : Type} (w : Writer σ) (looks : Nat) (m : Machine) (s : σ)

theorem close_eq : m.close w s = ((w.answers s m.out.last).refusal?, { m with out := { m.out with pending := #[] } },
      w.feed s m.out.last) := by
  have hempty : m.out.pending.toList.isEmpty = m.out.pending.isEmpty := by
    rw [Array.isEmpty_toList]
  unfold close Output.last
  dsimp only
  rw [hempty]
  split
  · rfl
  · simp only [Writer.answers, Record.refusal?, Writer.feed, List.findSome?_singleton, foldl_cons, foldl_nil]

/-- The outcome of a run whose last chunk had an answer. -/
def Outcome.closedBy : Outcome → Option Text → Outcome
  | .finished, some reason => .writeFailed reason
  | outcome, _ => outcome

theorem run_eq : m.run w looks s =
    let r := m.execution looks
    (r.1.closedBy ((w.answers (w.feed s r.2.out.chunks.toList) r.2.out.last).refusal?), r.2.silent,
      w.feed s r.2.out.handed) := by
  unfold run
  generalize m.execution looks = r
  obtain ⟨outcome, m'⟩ := r
  have hlast : Output.last { m'.out with chunks := #[] } = m'.out.last := rfl
  simp only [drain, close_eq, hlast, Output.handed, Writer.feed_append]
  generalize (w.answers (w.feed s m'.out.chunks.toList) m'.out.last).refusal? = reason
  cases outcome <;> cases reason <;> rfl

theorem run_recorded (r : Record) : m.run w.recorded looks (s, r) =
    ((m.run w looks s).1, (m.run w looks s).2.1, (m.run w looks s).2.2,
      r ++ w.answers s (m.execution looks).2.out.handed) := by
  rw [run_eq, run_eq]
  generalize m.execution looks = e
  have hlast (s : σ) (r : Record) (chunks : List Text) :
      (w.recorded.answers (s, r) chunks).refusal? = (w.answers s chunks).refusal? := by
    induction chunks generalizing s r with
    | nil => rfl
    | cons chunk rest ih =>
      simp only [Writer.answers, Record.refusal?, List.findSome?_cons] at ih ⊢
      rw [show w.recorded.write (s, r) chunk = ((w.write s chunk).1, (w.write s chunk).2, _) from rfl, ih]
  simp only [Writer.feed_recorded, hlast]

variable {w looks m s}

/-- A run with a good end comes to a step that halts, and its last chunk is taken. -/
theorem run_finished (h : (m.run w looks s).1 = .finished) :
    (∃ k, m.EndsAt k .finished ∧ m.execution looks = (.finished, m.after (k + 1))) ∧
      w.Accepts (w.feed s (m.execution looks).2.out.chunks.toList) (m.execution looks).2.out.last := by
  rw [run_eq] at h
  dsimp only at h
  have hend : (m.execution looks).1 = .finished ∧
      (w.answers (w.feed s (m.execution looks).2.out.chunks.toList) (m.execution looks).2.out.last).refusal? = none := by
    unfold Outcome.closedBy at h
    split at h
    · cases h
    · next hne =>
      refine ⟨h, Option.eq_none_iff_forall_ne_some.mpr fun reason hreason => hne reason h hreason⟩
  refine ⟨?_, List.findSome?_eq_none_iff.mp hend.2⟩
  obtain ⟨-, hexec⟩ | ⟨k, -, outcome, hends, hexec⟩ := execution_cases looks m
  · rw [hexec] at hend
    cases hend.1
  · have houtcome : outcome = .finished := by rw [← hend.1, hexec]
    subst houtcome
    exact ⟨k, hends, hexec⟩

/-- Unless a line is refused, a run with a good end has delivered what its steps printed, in order, and a run in
which something is refused has no good end. -/
theorem run_delivers (w : Writer σ) (looks : Nat) (m : Machine) (s : σ) (hout : m.out = {})
    (hlines : w.Accepts s (m.execution looks).2.out.chunks.toList) :
    let r := m.run w.recorded looks (s, [])
    (r.1, r.2.1, r.2.2.1) = m.run w looks s ∧
      (r.1 = .finished → r.2.2.2.taken = m.prints (r.2.1.steps - m.steps)) ∧
      ((∃ e ∈ r.2.2.2, e.2 ≠ none) → r.1 ≠ .finished) := by
  rw [run_recorded, nil_append]
  have hall (h : (m.run w looks s).1 = .finished) : w.Accepts s (m.execution looks).2.out.handed :=
    Writer.accepts_append.mpr ⟨hlines, (run_finished h).2⟩
  refine ⟨rfl, fun h => ?_, fun ⟨e, he, hrefused⟩ h => hrefused (hall h e he)⟩
  obtain ⟨⟨k, hends, hexec⟩, -⟩ := run_finished h
  have hsteps : (m.run w looks s).2.1.steps = m.steps + (k + 1) := by
    rw [run_eq, hexec]
    exact steps_after hends.good
  calc (w.answers s (m.execution looks).2.out.handed).taken
      = (m.execution looks).2.out.text := by rw [(hall h).taken, Output.flatten_handed]
    _ = m.prints (k + 1) := by rw [hexec, text_after hends.good, hout]; rfl
    _ = m.prints ((m.run w looks s).2.1.steps - m.steps) := by rw [hsteps, Nat.add_sub_cancel_left]

/-- A machine with a program that prints a value, the end of a line and another value. -/
def valueLines : Machine :=
  ofCode { stackSize := 16, heapSize := 1 }
    #[⟨.push, 0, .integer 7⟩, ⟨.write, 0, .integer 0⟩, ⟨.writeln, 0, .integer 0⟩, ⟨.push, 0, .integer 8⟩,
      ⟨.write, 0, .integer 0⟩, ⟨.halt, 0, .integer 0⟩]

/-- With room for both values all is delivered; with room for the line alone the run fails. -/
theorem run_delivers_value_lines :
    (valueLines.run (Writer.bounded (some 3)).recorded 1 (#[], [])).2.2.2.taken = Text.ofString "7\n8" ∧
      (valueLines.run (Writer.bounded (some 2)).recorded 1 (#[], [])).1 ≠ .finished := by
  have hroom := (run_delivers (Writer.bounded (some 3)) 1 valueLines #[] rfl (by decide +kernel)).2.1 (by decide +kernel)
  have hfull := (run_delivers (Writer.bounded (some 2)) 1 valueLines #[] rfl (by decide +kernel)).2.2 (by decide +kernel)
  exact ⟨hroom.trans (by decide +kernel), hfull⟩

/-- A line that is refused is lost, and the run has a good end all the same. -/
theorem run_loses_line : (valueLines.run (Writer.bounded (some 1)) 1 #[]).1 = .finished ∧
      (valueLines.run (Writer.bounded (some 1)) 1 #[]).2.2 = #[56] ∧ valueLines.prints 6 = Text.ofString "7\n8" := by
  decide +kernel

end Machine

end MiniPascal
