import MiniPascal.Machine.Step

/-!
# Traces

The steps of a machine together with the calls that are open and with what is stored on the way. A trace
starts anywhere; a return that belongs to a call before its start is no part of it.
-/

namespace MiniPascal.Machine

def after (m : Machine) : Nat → Machine
  | 0 => m
  | n + 1 => (m.after n).step.2

theorem after_add (m : Machine) (n k : Nat) : m.after (n + k) = (m.after n).after k := by
  induction k with
  | zero => rfl
  | succ k ih => exact congrArg (fun m => m.step.2) ih

/-- A block of words that is copied to another place. -/
structure Transfer where
  target : Nat
  source : Nat
  count : Nat

/-- Whether an address lies in the block that is overwritten. -/
def Transfer.covers (b : Transfer) (a : Nat) : Bool := b.target ≤ a && a < b.target + b.count

variable {a : Nat}

theorem Transfer.covers_iff {b : Transfer} : b.covers a = true ↔ b.target ≤ a ∧ a < b.target + b.count := by
  simp [covers]

/-- The block that the next instruction copies to a variable, if it is an assignment or a copy. -/
def transfer? (m : Machine) : Option Transfer :=
  match m.fetch? with
  | some { op := .assign, arg := .integer n, .. } =>
    match m.read? (m.sp - n) with
    | some (.address t) => some ⟨t.toInt.toNat, (m.sp - n + 1).toInt.toNat, n.toInt.toNat⟩
    | _ => none
  | some { op := .copy, arg := .integer n, .. } =>
    match m.read? (m.sp - 1), m.read? m.sp with
    | some (.address t), some (.address s) => some ⟨t.toInt.toNat, s.toInt.toNat, n.toInt.toNat⟩
    | _, _ => none
  | _ => none

/-- The word that the next instruction stores at an address. -/
def stored? (m : Machine) (a : Nat) : Option Datum :=
  match m.transfer? with
  | some b => if b.covers a then m.mem[b.source + (a - b.target)]? else none
  | none => none

/-- The next instruction stores a single word at an address. -/
def Stores (m : Machine) (a : Nat) (d : Datum) : Prop :=
  ∃ source, m.transfer? = some ⟨a, source, 1⟩ ∧ m.mem[source]? = some d

/-- The word that was stored last at an address by the instructions at some states. -/
def lastStored? (a : Nat) (past : List Machine) : Option Datum :=
  past.foldl (fun last m => (m.stored? a).or last) none

/-- A call that is open: where its frame lies, and where its code starts. -/
structure Call where
  base : Int64
  entry : Int64
deriving DecidableEq, Repr

/-- A step that succeeds, with the calls that are open before and after it, the innermost one first. -/
inductive Moves : Machine → List Call → Machine → List Call → Prop
  | call {m m' : Machine} {x : Instr} {calls : List Call} (hx : m.fetch? = some x)
      (hop : x.op = .call ∨ x.op = .calli) (hstep : m.step = (.success, m')) :
      Moves m calls m' (⟨m'.fp, m'.pc⟩ :: calls)
  | ret {m m' : Machine} {x : Instr} {c : Call} {calls : List Call} (hx : m.fetch? = some x)
      (hop : x.op = .ret ∨ x.op = .retf) (hstep : m.step = (.success, m')) : Moves m (c :: calls) m' calls
  | other {m m' : Machine} {x : Instr} {calls : List Call} (hx : m.fetch? = some x)
      (hcall : x.op ≠ .call ∧ x.op ≠ .calli) (hret : x.op ≠ .ret ∧ x.op ≠ .retf)
      (hstep : m.step = (.success, m')) : Moves m calls m' calls

/-- A run from a state to another one: the states on the way, and the calls that were made since and are still
open. -/
inductive Runs (start : Machine) : List Machine → Machine → List Call → Prop
  | nil : Runs start [] start []
  | snoc {past : List Machine} {m m' : Machine} {calls calls' : List Call} (hpast : Runs start past m calls)
      (hmove : Moves m calls m' calls') : Runs start (past ++ [m]) m' calls'

variable {m m' : Machine} {calls calls' : List Call}

theorem Moves.step_eq (h : Moves m calls m' calls') : m.step = (.success, m') := by
  cases h <;> assumption

/-- The next step with the calls that are open after it, if it succeeds. -/
def move? (m : Machine) (calls : List Call) : Option (Machine × List Call) :=
  match m.fetch?, m.step with
  | some x, (.success, m') =>
    if x.op = .call ∨ x.op = .calli then some (m', ⟨m'.fp, m'.pc⟩ :: calls)
    else if x.op = .ret ∨ x.op = .retf then calls.tail?.map fun rest => (m', rest)
    else some (m', calls)
  | _, _ => none

/-- A number of steps: the states on the way, the state that they lead to, and the calls that are open there. -/
def trace? (start : Machine) : Nat → Option (List Machine × Machine × List Call)
  | 0 => some ([], start, [])
  | n + 1 => do
    let (past, m, calls) ← start.trace? n
    let (m', calls') ← m.move? calls
    return (past ++ [m], m', calls')

theorem moves_of_move? (h : m.move? calls = some (m', calls')) : Moves m calls m' calls' := by
  unfold move? at h
  split at h
  · next x m₁ hfetch hstep =>
    split at h
    · next hcall =>
      cases h
      exact .call hfetch hcall hstep
    · next hcall =>
      split at h
      · next hret =>
        cases calls with
        | nil => cases h
        | cons c rest =>
          cases h
          exact .ret hfetch hret hstep
      · next hret =>
        cases h
        exact .other hfetch (not_or.mp hcall) (not_or.mp hret) hstep
  · cases h

/-- Steps that are carried out make a run. -/
theorem runs_of_trace? {start : Machine} {n : Nat} {past : List Machine}
    (h : start.trace? n = some (past, m, calls)) : Runs start past m calls := by
  induction n generalizing past m calls with
  | zero =>
    cases h
    exact .nil
  | succ n ih =>
    simp only [trace?, bind, Option.bind_eq_some_iff] at h
    obtain ⟨⟨past', m', calls'⟩, hpast, ⟨m'', calls''⟩, hmove, heq⟩ := h
    cases heq
    exact .snoc (ih hpast) (moves_of_move? hmove)

theorem stored?_eq_none (h : ∀ b, m.transfer? = some b → b.covers a = false) : m.stored? a = none := by
  unfold stored?
  split
  · next b hb =>
    rw [h b hb]
    rfl
  · rfl

theorem Stores.unique {b : Nat} {d e : Datum} (h : m.Stores a d) (h' : m.Stores b e) : a = b ∧ d = e := by
  obtain ⟨source, htransfer, hd⟩ := h
  obtain ⟨source', htransfer', he⟩ := h'
  obtain ⟨rfl, rfl, -⟩ := Transfer.mk.inj (Option.some.inj (htransfer.symm.trans htransfer'))
  exact ⟨rfl, Option.some.inj (hd.symm.trans he)⟩

theorem Stores.stored?_eq {d : Datum} (h : m.Stores a d) (b : Nat) : m.stored? b = if b = a then some d else none := by
  obtain ⟨source, htransfer, hd⟩ := h
  unfold stored?
  rw [htransfer]
  dsimp only
  by_cases hb : b = a
  · rw [if_pos (Transfer.covers_iff.mpr (by dsimp only; omega)), if_pos hb, hb, Nat.sub_self]
    exact hd
  · rw [if_neg (fun h => by have := Transfer.covers_iff.mp h; dsimp only at this; omega), if_neg hb]

theorem lastStored?_snoc (a : Nat) (past : List Machine) (m : Machine) :
    lastStored? a (past ++ [m]) = (m.stored? a).or (lastStored? a past) := by
  simp [lastStored?, List.foldl_append]

theorem lastStored?_eq_none {past : List Machine} (h : ∀ m ∈ past, ∀ b, m.transfer? = some b → b.covers a = false) :
    lastStored? a past = none := by
  unfold lastStored?
  induction past with
  | nil => rfl
  | cons m rest ih =>
    rw [List.foldl_cons, stored?_eq_none (h m List.mem_cons_self)]
    exact ih fun m' hm' => h m' (List.mem_cons_of_mem m hm')

end MiniPascal.Machine
