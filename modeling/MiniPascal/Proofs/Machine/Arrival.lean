import MiniPascal.Proofs.Machine.Passage

/-!
# Runs of code that computes

A piece of code that works on operands above a height is passed up to its end, or it stops at a fault.
In both cases it leaves everything up to the height as it was.
-/

namespace MiniPascal.Machine

open List

variable {m₀ m m' : Machine} {height pc : Nat} {ds : List Datum} {d : Datum} {x : Instr}

theorem Passes.extents_eq {lo hi n : Nat} (h : Passes lo hi n m m') : m'.extents = m.extents := by
  induction n generalizing m with
  | zero => exact congrArg extents (Eq.symm h)
  | succ n ih => exact (ih h.2.2).trans (extents_step m)

namespace Carries

theorem within (h : Carries m₀ height pc ds m) : m.Within pc (pc + 1) := by
  have hpc := h.pc
  constructor <;> omega

theorem passes (h : Carries m₀ height pc ds m) {ds' : List Datum}
    (hstep : Computed (fun _ => True) m₀ height (pc + 1) m.step (.ok ds')) :
    ∃ m', Passes pc (pc + 1) 1 m m' ∧ Carries m₀ height (pc + 1) ds' m' :=
  ⟨_, ⟨h.within, hstep.1, rfl⟩, hstep.2.toCarries⟩

end Carries

/-! ## Runs through a piece of code -/

/-- A state that a machine comes to in a piece of code, with operands above a height. -/
structure Arrives (m₀ : Machine) (height lo hi pc : Nat) (ds : List Datum) (m : Machine) : Prop where
  carries : Carries m₀ height pc ds m
  passes : ∃ n, Passes lo hi n m₀ m

/-- A machine stops in a piece of code at a fault and leaves everything up to a height as it was. -/
def Refuses (m₀ : Machine) (height lo hi : Nat) (f : Fault) : Prop :=
  ∃ n m, Passes lo hi n m₀ m ∧ m.Within lo hi ∧ m.step.1 = .fault f ∧ Agrees height m₀ m.step.2

/-- In a piece of code a machine comes to operands with a property, or it stops at a fault that is expected. -/
def Settles (m₀ : Machine) (height lo hi : Nat) (F : Fault → Prop) (pc : Nat) (Q : List Datum → Prop) : Prop :=
  (∃ ds m, Arrives m₀ height lo hi pc ds m ∧ Q ds) ∨ ∃ f, F f ∧ Refuses m₀ height lo hi f

variable {lo hi pc' : Nat} {F : Fault → Prop} {P Q : List Datum → Prop}

theorem Settles.bind (h : Settles m₀ height lo hi F pc P)
    (hnext : ∀ ds m, Arrives m₀ height lo hi pc ds m → P ds → Settles m₀ height lo hi F pc' Q) :
    Settles m₀ height lo hi F pc' Q := by
  rcases h with ⟨ds, m, harrives, hP⟩ | hfault
  · exact hnext ds m harrives hP
  · exact .inr hfault

theorem Carries.arrives (h : Carries m height pc ds m) : Arrives m height lo hi pc ds m := ⟨h, 0, rfl⟩

namespace Arrives

variable (h : Arrives m₀ height lo hi pc ds m)
include h

theorem settles (hQ : Q ds) : Settles m₀ height lo hi F pc Q := .inl ⟨ds, m, h, hQ⟩

theorem extend {n : Nat} {ds' : List Datum} (hpass : Passes pc pc' n m m') (hcarries : Carries m₀ height pc' ds' m')
    (hlo : lo ≤ pc) (hhi : pc' ≤ hi) : Arrives m₀ height lo hi pc' ds' m' := by
  obtain ⟨k, hk⟩ := h.passes
  exact ⟨hcarries, k + n, hk.trans (hpass.mono ⟨hlo, hhi⟩)⟩

theorem computed {r : Except Fault (List Datum)}
    (hstep : Computed (fun _ => True) m₀ height (pc + 1) m.step r) (hlo : lo ≤ pc) (hhi : pc + 1 ≤ hi) (hr : Expects F Q r) : Settles m₀ height lo hi F (pc + 1) Q := by
  cases r with
  | ok ds' =>
    obtain ⟨m', hpass, hcarries⟩ := h.carries.passes hstep
    exact (h.extend hpass hcarries hlo hhi).settles hr
  | error f =>
    obtain ⟨k, hk⟩ := h.passes
    exact .inr ⟨f, hr, k, m, hk, h.carries.within.mono (by omega), hstep.1, hstep.2⟩

end Arrives

/-- Code that only computes is passed, or stops at a fault of its own. -/
theorem Arrives.compute (hm : m₀.Ready) {room : Nat}
    (hroom : height + room + 1 = m₀.stackSize.toInt) (hF : ¬F .unknownInstr) {xs : List Instr}
    (h : Arrives m₀ height lo hi pc ds m) (hstands : Stands m₀.code pc xs) (hlo : lo ≤ pc)
    (hhi : pc + xs.length ≤ hi) (hr : Expects F Q (Instr.computeAll room xs ds)) :
    Settles m₀ height lo hi F (pc + xs.length) Q := by
  induction xs generalizing pc ds m with
  | nil => exact h.settles hr
  | cons x rest ih =>
    rw [length_cons] at hhi ⊢
    unfold Instr.computeAll at hr
    have hx : Expects F (fun ds => Expects F Q (Instr.computeAll room rest ds))
        (x.compute room ds) := by
      cases hcompute : x.compute room ds <;> rw [hcompute] at hr <;> exact hr
    have hstep := h.carries.bears.step_compute hm.roomy hstands.head hroom
      (hx.mono (fun f hf hunknown => hF (hunknown ▸ hf)) fun _ _ _ _ => trivial)
    have hfirst := h.computed hstep hlo (by omega) hx
    rw [Nat.add_comm rest.length, ← Nat.add_assoc]
    exact hfirst.bind fun ds' m' harrives hr' =>
      ih harrives hstands.tail (by omega) (by omega) hr'

end MiniPascal.Machine
