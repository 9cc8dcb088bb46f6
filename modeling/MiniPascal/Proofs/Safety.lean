import MiniPascal.Proofs.Run.Program

/-!
# Safety of compiled programs

A run of a compiled program never reaches outside of the memory, never leaves its code and always finds its
operands. The faults that are left depend on data: a division by zero, a value out of a range that is checked, a
variable that holds something else than it should, and a stack that is full.
-/

namespace MiniPascal

open Machine

/-- How a run of some code may end. A fault has to be one that the instruction at its address permits. -/
def Machine.Outcome.Safe (code : Array Instr) : Outcome → Prop
  | .finished | .cancelled | .writeFailed _ => True
  | .faulted pc _ cause => ∃ x, code[pc.toInt.toNat]? = some x ∧ x.op.permits cause = true
  | .crashed => False

namespace Activity

variable {t : ProgramTree} {types : TypeTable} {as : List Activity} {m : Machine}

variable (hr : t.Runnable types)

include hr

/-- Some steps of a run come to a safe end, or to a state of the run. -/
theorem Live.stretch_safe (h : Live t types as m) (n : Nat) : (∀ o ∈ (stretch n m).1, o.Safe m.code) ∧
      ((stretch n m).1 = none → (stretch n m).2.code = m.code ∧ ∃ as', Live t types as' (stretch n m).2) := by
  induction n generalizing as m with
  | zero => exact ⟨fun o ho => absurd ho (Option.not_mem_none o), fun _ => ⟨rfl, as, h⟩⟩
  | succ n ih =>
    obtain ⟨x, hfetch, hstep⟩ := h.step hr
    unfold stretch
    generalize m.step = effect at hstep
    obtain ⟨status, m'⟩ := effect
    rcases hstep with rfl | ⟨rfl, as', -, hlive, -⟩ | ⟨cause, rfl, hpermits⟩
    · refine ⟨fun o ho => ?_, fun hnone => by cases hnone⟩
      cases ho
      trivial
    · have hcode : m'.code = m.code := Array.toList_inj.mp (hlive.code_eq.trans h.code_eq.symm)
      have hrest := ih hlive
      rw [hcode] at hrest
      exact hrest
    · refine ⟨fun o ho => ?_, fun hnone => by cases hnone⟩
      cases ho
      refine ⟨x, ?_, hpermits⟩
      unfold fetch? at hfetch
      split at hfetch
      · exact hfetch
      · cases hfetch

theorem Live.proceed_safe (h : Live t types as m) (looks : Nat) : (proceed looks m).1.Safe m.code := by
  induction looks generalizing as m with
  | zero => trivial
  | succ looks ih =>
    obtain ⟨hsafe, hlive⟩ := h.stretch_safe hr interval
    unfold proceed
    generalize stretch interval m = effect at *
    obtain ⟨_ | o, m'⟩ := effect
    · obtain ⟨hcode, as', hlive⟩ := hlive rfl
      rw [← hcode]
      exact ih hlive
    · exact hsafe o rfl

theorem Live.execution_safe (h : Live t types as m) (looks : Nat) : (execution looks m).1.Safe m.code := by
  obtain ⟨hsafe, hlive⟩ := h.stretch_safe hr m.untilLook
  unfold execution
  generalize stretch m.untilLook m = effect at *
  obtain ⟨_ | o, m'⟩ := effect
  · obtain ⟨hcode, as', hlive⟩ := hlive rfl
    rw [← hcode]
    exact hlive.proceed_safe hr looks
  · exact hsafe o rfl

end Activity

theorem Machine.run_safe {σ : Type} (w : Writer σ) (looks : Nat) (m : Machine) (s : σ)
    (h : (execution looks m).1.Safe m.code) : (run w looks m s).1.Safe m.code := by
  unfold run
  generalize execution looks m = effect at h
  obtain ⟨outcome, m'⟩ := effect
  dsimp only
  split
  · trivial
  · exact h

/-- Whatever the extents of the machine are and however long it runs, the program of a moderate source never
crashes, and every fault is one that its instruction permits. -/
theorem compile_safe {source : Text} (h : Moderate source) {config : Config} (hc : config.Addressable) :
    ∃ p, (compile source).result = .ok p ∧ (∀ n, ∀ o ∈ (stretch n (ofCode config p.code)).1, o.Safe p.code) ∧
      ∀ (σ : Type) (w : Writer σ) (looks : Nat) (s : σ), (run w looks (ofCode config p.code) s).1.Safe p.code := by
  obtain ⟨p, hp, -⟩ := compile_instrs h.accepted
  have hlive := h.live hp hc
  refine ⟨p, hp, fun n => (hlive.stretch_safe h.runnable n).1, fun σ w looks s => ?_⟩
  exact run_safe w looks _ s (hlive.execution_safe h.runnable looks)

/-- A stack of 32 words, which the recursion fills up. -/
theorem compile_safe_nested : Moderate nestedSource ∧ Config.Addressable { stackSize := 32, heapSize := 1 } ∧
    ∃ p, (compile nestedSource).result = .ok p ∧
      (∀ n, ∀ o ∈ (stretch n (ofCode { stackSize := 32, heapSize := 1 } p.code)).1, o.Safe p.code) ∧
      ∀ (σ : Type) (w : Writer σ) (looks : Nat) (s : σ),
        (run w looks (ofCode { stackSize := 32, heapSize := 1 } p.code) s).1.Safe p.code :=
  ⟨moderate_nestedSource, by decide, compile_safe moderate_nestedSource (by decide)⟩

end MiniPascal
