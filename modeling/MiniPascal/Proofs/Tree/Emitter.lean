import Mathlib.Data.List.Nodup
import MiniPascal.Proofs.AddressSet
import MiniPascal.Proofs.Tree.Layout
import MiniPascal.Proofs.Tree.Routines
import MiniPascal.Tree.Emitter

/-!
# Emission in one pass never breaks down

Every part of a tree can be written after any code in the making in which the open targets are those of
open jumps and of waiting calls. What is written is the laid out code, with the targets of waiting calls
still open.
-/

namespace MiniPascal

open List Opcode

namespace Emitter

variable {α : Type}

theorem run_bind {β : Type} (p : Emit α) (f : α → Emit β) (e : Emitter) :
    (p >>= f) e = (p e).bind fun r => f r.1 r.2 := rfl

theorem get_bind_run (f : Emitter → Emit α) (e : Emitter) : (get >>= f) e = f e e := rfl

/-- An emission goes on where its first part ends. -/
theorem bind_run {β : Type} {p : Emit α} {f : α → Emit β} {e e' : Emitter} {a : α} {r : Option (β × Emitter)}
    (hp : p e = some (a, e')) (hf : f a e' = r) : (p >>= f) e = r := by
  rw [run_bind, hp]
  exact hf

theorem here_run {f : Nat → Emit α} {e : Emitter} {r : Option (α × Emitter)} (h : f e.code.size e = r) :
    (here >>= f) e = r := h

def waiting (e : Emitter) : List Nat := e.calls.map Prod.snd

/-- The open targets are those at some addresses, and no load is among them. -/
structure Opens (l : List Nat) (e : Emitter) : Prop where
  pending : ∀ a : Nat, e.pending.contains a = true ↔ a ∈ l
  nodup : l.Nodup
  placed : ∀ a ∈ l, ∃ x, e.code[a]? = some x ∧ x.instr.op ≠ .eval

/-- The open targets are those of some jumps and of the waiting calls. -/
structure Settled (jumps : List Nat) (e : Emitter) : Prop where
  opens : Opens (jumps ++ e.waiting) e
  unknown : ∀ c ∈ e.calls, e.entries.lookup c.1 = none

/-- An instruction of laid out code has a target. -/
def Aims (layout : List Emission) (a target : Nat) : Prop :=
  ∃ x, layout[a]? = some x ∧ x.instr.arg = .integer (Int64.ofNat target)

/-- The code in the making is laid out code with the open targets missing. -/
structure Agrees (entries : Entries) (e : Emitter) (layout : List Emission) : Prop where
  code : ∀ i : Nat, e.code[i]? = layout[i]?.map fun x =>
    if e.pending.contains i then x.retarget Instr.openTarget else x
  calls : ∀ c ∈ e.calls, Aims layout c.2 (entries c.1)
  entries : ∀ r n, e.entries.lookup r = some n → entries r = n

variable {jumps l : List Nat} {e e' : Emitter} {entries : Entries} {layout : List Emission} {a : Nat}

theorem Agrees.size (h : Agrees entries e layout) : e.code.size = layout.length := by
  refine Nat.le_antisymm ?_ ?_
  · have := h.code layout.length
    simp only [List.getElem?_eq_none (Nat.le_refl _), Option.map_none, Array.getElem?_eq_none_iff] at this
    exact this
  · have := h.code e.code.size
    rw [Array.getElem?_eq_none (Nat.le_refl _)] at this
    have := Option.map_eq_none_iff.mp this.symm
    exact List.getElem?_eq_none_iff.mp this

theorem Opens.lt_size (h : Opens l e) (ha : a ∈ l) : a < e.code.size := by
  obtain ⟨x, hx, _⟩ := h.placed a ha
  exact (Array.getElem?_eq_some_iff.mp hx).1

theorem Opens.perm {l' : List Nat} (h : Opens l e) (hl : l.Perm l') : Opens l' e where
  pending a := (h.pending a).trans hl.mem_iff
  nodup := hl.nodup_iff.mp h.nodup
  placed a ha := h.placed a (hl.mem_iff.mpr ha)

/-- One emission comes after another: some jumps are open then, only given subprograms are called, and
what happened to laid out code is known. -/
structure Written (jumps : List Nat) (callees : List RoutineId)
    (f : Entries → List Emission → List Emission) (e e' : Emitter) : Prop where
  settled : Settled jumps e'
  entries : e'.entries = e.entries
  calls : ∀ c ∈ e'.calls, c ∈ e.calls ∨ c.1 ∈ callees
  agrees : ∀ entries layout, Agrees entries e layout → Agrees entries e' (f entries layout)

variable {ids ids' : List RoutineId} {f g : Entries → List Emission → List Emission} {p q : Emit Unit}
  {code code' : Nat → Entries → List Emission}

theorem Written.trans {jumps' : List Nat} {e'' : Emitter} (h : Written jumps ids f e e')
    (h' : Written jumps' ids' g e' e'') :
    Written jumps' (ids ++ ids') (fun entries layout => g entries (f entries layout)) e e'' where
  settled := h'.settled
  entries := h'.entries.trans h.entries
  calls c hc := by
    rw [mem_append]
    rcases h'.calls c hc with hc | hc
    · exact (h.calls c hc).imp id .inl
    · exact .inr (.inr hc)
  agrees _ _ ha := h'.agrees _ _ (h.agrees _ _ ha)

theorem Written.congr (h : Written jumps ids f e e') (hids : ids ⊆ ids')
    (hlayout : ∀ entries layout, Agrees entries e layout → f entries layout = g entries layout) : Written jumps ids' g e e' where
  settled := h.settled
  entries := h.entries
  calls c hc := (h.calls c hc).imp id fun hmem => hids hmem
  agrees entries layout ha := hlayout entries layout ha ▸ h.agrees entries layout ha

/-- Two open jumps can be settled in either order. -/
theorem Written.swap {b : Nat} (h : Written (a :: b :: jumps) ids f e e') : Written (b :: a :: jumps) ids f e e' :=
  { h with settled := ⟨h.settled.opens.perm (.swap ..), h.settled.unknown⟩ }

/-- A part of the emission does not break down, calls only given subprograms, and what it does to laid
out code is known. -/
def Builds (f : Entries → List Emission → List Emission) (callees : List RoutineId) (p : Emit Unit) : Prop :=
  ∀ jumps e, Settled jumps e → ∃ e', p e = some ((), e') ∧ Written jumps callees f e e'

/-- A part of the emission adds code that does not depend on where it is placed. -/
abbrev Adds (code : Entries → List Emission) (callees : List RoutineId) (p : Emit Unit) : Prop :=
  Builds (fun entries layout => layout ++ code entries) callees p

/-- A part of the emission adds code that is placed at an address. -/
abbrev Lays (code : Nat → Entries → List Emission) (callees : List RoutineId) (p : Emit Unit) : Prop :=
  Builds (fun entries layout => layout ++ code layout.length entries) callees p

theorem Builds.pure : Builds (fun _ layout => layout) [] (pure ()) :=
  fun _ e h => ⟨e, rfl, h, rfl, fun _ => .inl, fun _ _ ha => ha⟩

theorem Builds.bind (hp : Builds f ids p) (hq : Builds g ids' q) :
    Builds (fun entries layout => g entries (f entries layout)) (ids ++ ids') (do p; q) := by
  intro jumps e h
  obtain ⟨e₁, hrun₁, h₁⟩ := hp jumps e h
  obtain ⟨e₂, hrun₂, h₂⟩ := hq jumps e₁ h₁.settled
  exact ⟨e₂, bind_run hrun₁ hrun₂, h₁.trans h₂⟩

theorem Adds.nil : Adds (fun _ => []) [] (pure ()) := by
  simp only [Adds, append_nil]
  exact .pure

theorem Adds.bind {code code' : Entries → List Emission} (hp : Adds code ids p) (hq : Adds code' ids' q) :
    Adds (fun entries => code entries ++ code' entries) (ids ++ ids') (do p; q) := by
  have := Builds.bind hp hq
  simpa only [Adds, append_assoc] using this

theorem Adds.lays {code : Entries → List Emission} (h : Adds code ids p) : Lays (fun _ entries => code entries) ids p := h

theorem Lays.bind (hp : Lays code ids p) (hq : Lays code' ids' q) :
    Lays (fun here entries => code here entries ++ code' (here + (code here entries).length) entries)
      (ids ++ ids') (do p; q) := by
  have := Builds.bind hp hq
  simpa only [Lays, append_assoc, length_append] using this

theorem Lays.congr (h : Lays code ids p) (hcode : ∀ here entries, code here entries = code' here entries)
    (hids : ids ⊆ ids') : Lays code' ids' p := by
  intro jumps e hs
  obtain ⟨e', hrun, h'⟩ := h jumps e hs
  exact ⟨e', hrun, h'.congr hids fun entries layout _ => congrArg (layout ++ ·) (hcode layout.length entries)⟩

/-- A part of the emission that uses the address where it starts. -/
theorem Lays.fromHere {code : Nat → Nat → Entries → List Emission} {p : Nat → Emit Unit}
    (hp : ∀ top, Lays (code top) ids (p top)) :
    Lays (fun here entries => code here here entries) ids (do p (← here)) := by
  intro jumps e h
  obtain ⟨e', hrun, h'⟩ := hp e.code.size jumps e h
  exact ⟨e', here_run hrun, h'.congr (by simp) fun entries layout ha => by rw [ha.size]⟩

/-! ## Instructions -/

/-- The emission after one more instruction. -/
def push (e : Emitter) (x : Emission) : Emitter := { e with code := e.code.push x }

theorem Opens.push (h : Opens l e) (x : Emission) : Opens l (e.push x) where
  pending := h.pending
  nodup := h.nodup
  placed a ha := by
    obtain ⟨y, hy, hop⟩ := h.placed a ha
    exact ⟨y, Array.getElem?_push_lt (h.lt_size ha) ▸ (Array.getElem?_eq_some_iff.mp hy).2 ▸ rfl, hop⟩

/-- One more instruction, whose target may be open. -/
theorem Agrees.extend (h : Agrees entries e layout) {x y : Emission} (pending : AddressSet)
    (hpending : ∀ i : Nat, i ≠ e.code.size → pending.contains i = e.pending.contains i)
    (hy : y = if pending.contains e.code.size then x.retarget Instr.openTarget else x) :
    Agrees entries { e.push y with pending } (layout ++ [x]) where
  code i := by
    show (e.code.push y)[i]? = _
    rw [Array.getElem?_push]
    split
    · next hi =>
      subst hi
      rw [h.size, List.getElem?_concat_length, Option.map_some, ← h.size]
      exact congrArg some hy
    · next hi =>
      rw [h.code i]
      simp only [hpending i hi]
      rw [h.size] at hi
      simp [List.getElem?_append, List.getElem?_singleton]
      grind
  calls c hc := by
    obtain ⟨y, hy, harg⟩ := h.calls c hc
    exact ⟨y, (List.getElem?_append_left (List.getElem?_eq_some_iff.mp hy).1).trans hy, harg⟩
  entries := h.entries

theorem Agrees.push (h : Agrees entries e layout) (hs : Opens l e) (x : Emission) :
    Agrees entries (e.push x) (layout ++ [x]) :=
  h.extend e.pending (fun _ _ => rfl) (if_neg fun hopen => Nat.lt_irrefl _ (hs.lt_size ((hs.pending _).mp hopen))).symm

theorem emit_adds (line : Nat) (x : Instr) : Adds (fun _ => [⟨line, x⟩]) [] (do let _ ← emit line x) :=
  fun _ _ h => ⟨_, rfl, ⟨h.opens.push _, h.unknown⟩, rfl, fun _ => .inl, fun _ _ ha => ha.push h.opens _⟩

theorem emitAll_adds (line : Nat) (xs : List Instr) : Adds (fun _ => emitAt line xs) [] (emitAll line xs) := by
  induction xs with
  | nil => exact .nil
  | cons x rest ih => exact Adds.bind (emit_adds line x) ih

theorem Adds.andThen {code : Entries → List Emission} (hp : Adds code ids p) (line : Nat) (xs : List Instr) :
    Adds (fun entries => code entries ++ emitAt line xs) ids (do p; emitAll line xs) := by
  have := hp.bind (emitAll_adds line xs)
  rwa [append_nil] at this

/-! ## Open targets -/

def pushOpen (e : Emitter) (x : Emission) (pending : AddressSet) : Emitter :=
  { e.push (x.retarget Instr.openTarget) with pending }

section

variable {pending : AddressSet} (hinsert : e.pending.insert? e.code.size = some pending) {x : Emission}
include hinsert

theorem Opens.pushOpen (h : Opens l e) (hop : x.instr.op ≠ .eval) : Opens (e.code.size :: l) (e.pushOpen x pending) where
  pending a := by
    show pending.contains a = true ↔ _
    rw [AddressSet.contains_insert hinsert, Bool.or_eq_true, h.pending a, decide_eq_true_eq, mem_cons, or_comm,
      Int.ofNat_inj, eq_comm]
  nodup := nodup_cons.mpr ⟨fun hmem => Nat.lt_irrefl _ (h.lt_size hmem), h.nodup⟩
  placed := forall_mem_cons.mpr ⟨⟨_, Array.getElem?_push_size, hop⟩, (h.push _).placed⟩

theorem Agrees.pushOpen (h : Agrees entries e layout) : Agrees entries (e.pushOpen x pending) (layout ++ [x]) := by
  refine h.extend _ (fun i hi => ?_) (if_pos ?_).symm
  · rw [AddressSet.contains_insert hinsert, decide_eq_false (by omega), Bool.or_false]
  · rw [AddressSet.contains_insert hinsert]
    simp

end

theorem jump_run (h : Settled jumps e) (line : Nat) {op : Opcode} (hop : op ≠ .eval) (target : Entries → Nat → Nat) :
    ∃ e', jump line op e = some (e.code.size, e') ∧ Written (e.code.size :: jumps) []
      (fun entries layout => layout ++ [⟨line, op.withTarget (target entries layout.length)⟩]) e e' := by
  obtain ⟨pending, hinsert⟩ : ∃ pending, e.pending.insert? e.code.size = some pending := ⟨_, rfl⟩
  exact ⟨e.pushOpen ⟨line, op.withTarget 0⟩ pending, by cases hinsert; rfl,
    ⟨h.opens.pushOpen hinsert hop, h.unknown⟩, rfl, fun _ => .inl, fun entries layout ha =>
      ha.pushOpen (x := ⟨line, op.withTarget (target entries layout.length)⟩) hinsert⟩

def settle (e : Emitter) (a target : Nat) : Emitter :=
  { e with
    pending := e.pending.erase a
    code := e.code.modify a (Emission.retarget (.integer (Int64.ofNat target))) }

theorem Opens.settle (h : Opens (a :: l) e) (target : Nat) :
    patch a target e = some ((), e.settle a target) ∧ Opens l (e.settle a target) := by
  obtain ⟨ha, hl⟩ := nodup_cons.mp h.nodup
  have hne {b : Nat} (hb : b ∈ l) : a ≠ b := fun heq => ha (heq ▸ hb)
  refine ⟨?_, fun b => ?_, hl, fun b hb => ?_⟩
  · have hremove : e.pending.remove a = (true, e.pending.erase a) := if_pos ((h.pending a).mpr mem_cons_self)
    show (if ((e.pending.remove a).1 && _) = true then set { e with pending := (e.pending.remove a).2, code := _ }
      else _ : Emit Unit) e = _
    rw [hremove, if_pos (by simp [h.lt_size])]
    rfl
  · show (e.pending.erase a).contains b = true ↔ _
    rw [AddressSet.contains_erase, Bool.and_eq_true, h.pending b, mem_cons, decide_eq_true_eq]
    grind
  · obtain ⟨x, hx, hop⟩ := h.placed b (mem_cons_of_mem a hb)
    exact ⟨x, (Array.getElem?_modify.trans (if_neg (hne hb))).trans hx, hop⟩

theorem Agrees.settle (h : Agrees entries e layout) {target : Nat} (ha : Aims layout a target) :
    Agrees entries (e.settle a target) layout where
  code i := by
    show (e.code.modify a _)[i]? = layout[i]?.map fun x => if (e.pending.erase a).contains i then _ else _
    rw [Array.getElem?_modify, h.code i, AddressSet.contains_erase]
    by_cases hi : a = i
    · subst hi
      obtain ⟨x, hx, harg⟩ := ha
      rw [hx]
      simp [← harg, apply_ite, Emission.retarget]
    · have hne : (a : Int) ≠ i := by omega
      simp [hi, hne]
  calls := h.calls
  entries := h.entries

/-- An open jump is settled. -/
theorem Written.patch (h : Written (a :: jumps) ids f e e') (target : Nat)
    (htarget : ∀ entries layout, Agrees entries e layout → Aims (f entries layout) a target) :
    patch a target e' = some ((), e'.settle a target) ∧ Written jumps ids f e (e'.settle a target) := by
  obtain ⟨hrun, hopens⟩ := h.settled.opens.settle target
  exact ⟨hrun, ⟨hopens, h.settled.unknown⟩, h.entries, h.calls,
    fun entries layout ha => (h.agrees entries layout ha).settle (htarget entries layout ha)⟩

theorem aims_jump (before after : List Emission) {line address target : Nat} {op : Opcode} (h : address = target) :
    Aims (before ++ [⟨line, op.withTarget address⟩] ++ after) before.length target :=
  ⟨⟨line, op.withTarget address⟩, by simp, h ▸ rfl⟩

/-- A jump over a part of the emission. -/
theorem Lays.skipped (hp : Lays code ids p) (line : Nat) {op : Opcode} (hop : op ≠ .eval) :
    Lays (fun here entries => emitAt line [op.withTarget (here + 1 + (code (here + 1) entries).length)] ++
        code (here + 1) entries) ids
      (do
        let skip ← jump line op
        p
        patch skip (← here)) := by
  intro jumps e h
  obtain ⟨e₁, hrun₁, h₁⟩ := jump_run h line hop fun entries here => here + 1 + (code (here + 1) entries).length
  obtain ⟨e₂, hrun₂, h₂⟩ := hp _ e₁ h₁.settled
  obtain ⟨hrun₃, h₃⟩ := (h₁.trans h₂).patch e₂.code.size fun entries layout ha => by
    rw [ha.size]
    exact aims_jump layout _ (by rw [(h₂.agrees _ _ (h₁.agrees _ _ ha)).size]; simp +arith)
  refine ⟨_, bind_run hrun₁ (bind_run hrun₂ (here_run hrun₃)), h₃.congr (by simp) fun entries layout _ => ?_⟩
  simp [emitAt]

/-- A choice between two parts: the first jump is settled between them, the second one after both. -/
theorem Lays.chosen (hp : Lays code ids p) (hq : Lays code' ids' q) (line line' : Nat) : Lays (fun here entries =>
        let inside := code (here + 1) entries
        let otherwise := here + 1 + inside.length + 1
        let outside := code' otherwise entries
        emitAt line [jneq.withTarget otherwise] ++ inside ++
          emitAt line' [Opcode.jump.withTarget (otherwise + outside.length)] ++ outside) (ids ++ ids')
      (do
        let skip ← jump line .jneq
        p
        let leave ← jump line' .jump
        patch skip (← here)
        q
        patch leave (← here)) := by
  intro jumps e h
  obtain ⟨e₁, hrun₁, h₁⟩ := jump_run h line (by decide : jneq ≠ .eval) fun entries here =>
    here + 1 + (code (here + 1) entries).length + 1
  obtain ⟨e₂, hrun₂, h₂⟩ := hp _ e₁ h₁.settled
  obtain ⟨e₃, hrun₃, h₃⟩ := jump_run h₂.settled line' (by decide : Opcode.jump ≠ .eval) fun entries here =>
    here + 1 + (code' (here + 1) entries).length
  have h₁₂ := h₁.trans h₂
  have h₁₃ := h₁₂.trans h₃
  obtain ⟨hrun₄, h₄⟩ := h₁₃.swap.patch e₃.code.size fun entries layout ha => by
    rw [ha.size, append_assoc]
    exact aims_jump layout _ (by rw [(h₁₃.agrees _ _ ha).size]; simp +arith)
  obtain ⟨e₅, hrun₅, h₅⟩ := hq _ _ h₄.settled
  have h₁₅ := h₄.trans h₅
  obtain ⟨hrun₆, h₆⟩ := h₁₅.patch e₅.code.size fun entries layout ha => by
    rw [(h₁₂.agrees _ _ ha).size]
    exact aims_jump _ _ (by rw [(h₁₅.agrees _ _ ha).size]; simp +arith)
  refine ⟨_, bind_run hrun₁ (bind_run hrun₂ (bind_run hrun₃ (here_run (bind_run hrun₄ (bind_run hrun₅
    (here_run hrun₆)))))), h₆.congr (by simp) fun entries layout _ => ?_⟩
  simp +arith [emitAt]

/-- Two parts with a jump over both in front of the first and one in front of the second. -/
theorem Lays.left (hp : Lays code ids p) (hq : Lays code' ids' q) (line line' : Nat) : Lays (fun here entries =>
        let inside := code (here + 1) entries
        let rest := code' (here + 1 + inside.length + 1) entries
        let exit := here + 1 + inside.length + 1 + rest.length
        emitAt line [jneq.withTarget exit] ++ inside ++ emitAt line' [jneq.withTarget exit] ++ rest)
      (ids ++ ids')
      (do
        let exit ← jump line .jneq
        p
        let last ← jump line' .jneq
        q
        patch exit (← here)
        patch last (← here)) := by
  intro jumps e h
  obtain ⟨e₁, hrun₁, h₁⟩ := jump_run h line (by decide : jneq ≠ .eval) fun entries here =>
    here + 1 + (code (here + 1) entries).length + 1 +
      (code' (here + 1 + (code (here + 1) entries).length + 1) entries).length
  obtain ⟨e₂, hrun₂, h₂⟩ := hp _ e₁ h₁.settled
  obtain ⟨e₃, hrun₃, h₃⟩ := jump_run h₂.settled line' (by decide : jneq ≠ .eval) fun entries here =>
    here + 1 + (code' (here + 1) entries).length
  obtain ⟨e₄, hrun₄, h₄⟩ := hq _ e₃ h₃.settled
  have h₁₂ := h₁.trans h₂
  have h₁₄ := (h₁₂.trans h₃).trans h₄
  obtain ⟨hrun₅, h₅⟩ := h₁₄.swap.patch e₄.code.size fun entries layout ha => by
    rw [ha.size, append_assoc, append_assoc]
    exact aims_jump layout _ (by rw [(h₁₄.agrees _ _ ha).size]; simp +arith)
  obtain ⟨hrun₆, h₆⟩ := h₅.patch (e₄.settle e.code.size e₄.code.size).code.size fun entries layout ha => by
    rw [(h₁₂.agrees _ _ ha).size]
    exact aims_jump _ _ (by rw [(h₅.agrees _ _ ha).size]; simp +arith)
  refine ⟨_, bind_run hrun₁ (bind_run hrun₂ (bind_run hrun₃ (bind_run hrun₄ (here_run (bind_run hrun₅
    (here_run hrun₆)))))), h₆.congr (by simp) fun entries layout _ => ?_⟩
  simp +arith [emitAt]

/-! ## Calls -/

theorem call_adds (line : Nat) (callee : Callee) :
    Adds (fun entries => emitAt line [callee.code entries]) [callee.routine] (call line callee) := by
  intro jumps e h
  cases hlookup : e.entries.lookup callee.routine with
  | some entry =>
    refine ⟨e.push ⟨line, callee.code fun _ => entry⟩, ?_, ⟨h.opens.push _, h.unknown⟩, rfl, fun _ => .inl,
      fun entries layout ha => ?_⟩
    · rw [call, get_bind_run, hlookup]
      rfl
    · have hcode : callee.code (fun _ => entry) = callee.code entries := by
        rw [Callee.code, Callee.code, ha.entries _ _ hlookup]
      rw [hcode]
      exact ha.push h.opens ⟨line, callee.code entries⟩
  | none =>
    obtain ⟨pending, hinsert⟩ : ∃ pending, e.pending.insert? e.code.size = some pending := ⟨_, rfl⟩
    have hopens := h.opens.pushOpen (x := ⟨line, callee.code fun _ => 0⟩) hinsert (by simp [Callee.code])
    refine ⟨{ e.pushOpen ⟨line, callee.code fun _ => 0⟩ pending with
      calls := e.calls ++ [(callee.routine, e.code.size)] }, ?_, ⟨?_, ?_⟩, rfl, ?_, fun entries layout ha => ?_⟩
    · rw [call, get_bind_run, hlookup]
      cases hinsert
      rfl
    · have hperm : (e.code.size :: (jumps ++ e.waiting)).Perm (jumps ++ (e.waiting ++ [e.code.size])) := by
        rw [← append_assoc]
        exact (perm_append_singleton ..).symm
      rw [show waiting _ = e.waiting ++ [e.code.size] by simp [waiting]]
      have := hopens.perm hperm
      exact ⟨this.pending, this.nodup, this.placed⟩
    · exact forall_mem_append.mpr ⟨h.unknown, forall_mem_singleton.mpr hlookup⟩
    · exact forall_mem_append.mpr ⟨fun _ => .inl, forall_mem_singleton.mpr (.inr (by simp))⟩
    · have := ha.pushOpen hinsert (x := ⟨line, callee.code entries⟩)
      refine ⟨this.code, forall_mem_append.mpr ⟨this.calls, forall_mem_singleton.mpr ?_⟩, this.entries⟩
      exact ⟨⟨line, callee.code entries⟩, by simp [ha.size, emitAt], rfl⟩

theorem patchCalls_run (target : Nat) {calls : List (RoutineId × Nat)} (h : Opens (calls.map Prod.snd ++ l) e) :
    ∃ e', patchCalls target calls e = some ((), e') ∧ Opens l e' ∧ e'.calls = e.calls ∧ e'.entries = e.entries ∧
      e'.code.size = e.code.size ∧ ∀ entries layout, Agrees entries e layout →
        (∀ c ∈ calls, Aims layout c.2 target) → Agrees entries e' layout := by
  induction calls generalizing e with
  | nil => exact ⟨e, rfl, h, rfl, rfl, rfl, fun _ _ ha _ => ha⟩
  | cons c rest ih =>
    obtain ⟨hrun, hopens⟩ := Opens.settle h target
    obtain ⟨e', hrun', hopens', hcalls, hentries, hsize, hagrees⟩ := ih hopens
    refine ⟨e', bind_run hrun hrun', hopens', hcalls, hentries, hsize.trans Array.size_modify,
      fun entries layout ha haims => ?_⟩
    obtain ⟨hc, hrest⟩ := forall_mem_cons.mp haims
    exact hagrees entries layout (ha.settle hc) hrest

/-- The body of a subprogram starts: the calls that wait for it get the target that they have in the layout. -/
theorem define_run (h : Settled jumps e) (r : RoutineId) : ∃ e', define r e = some ((), e') ∧ Settled jumps e' ∧
    e'.entries = (r, e.code.size) :: e.entries ∧ (∀ c ∈ e'.calls, c ∈ e.calls) ∧
    ∀ entries layout, Agrees entries e layout → entries r = layout.length → Agrees entries e' layout := by
  have hperm : (jumps ++ e.waiting).Perm ((e.calls.filter fun c => c.1 = r).map Prod.snd ++
      (jumps ++ (e.calls.filter fun c => c.1 ≠ r).map Prod.snd)) := by
    refine List.Perm.trans (.append_left jumps ?_) (perm_append_comm_assoc ..)
    have := (filter_append_perm (fun c : RoutineId × Nat => decide (c.1 = r)) e.calls).symm.map Prod.snd
    simpa [waiting] using this
  obtain ⟨e', hrun, hopens, hcalls, hentries, hsize, hagrees⟩ :=
    patchCalls_run e.code.size (h.opens.perm hperm)
  refine ⟨{ e' with calls := e'.calls.filter fun c => c.1 ≠ r, entries := (r, e'.code.size) :: e'.entries },
    (get_bind_run _ _).trans (bind_run hrun rfl), ⟨?_, fun c hc => ?_⟩, by rw [hentries, hsize], fun c hc => ?_, fun entries layout ha hr => ?_⟩
  · rw [show waiting _ = (e.calls.filter fun c => c.1 ≠ r).map Prod.snd by rw [waiting, hcalls]]
    exact ⟨hopens.pending, hopens.nodup, hopens.placed⟩
  · rw [hcalls] at hc
    obtain ⟨hc, hcr⟩ := mem_filter.mp hc
    have hne : (c.1 == r) = false := by simpa using hcr
    rw [hentries, lookup_cons, hne]
    exact h.unknown c hc
  · exact hcalls ▸ (mem_filter.mp hc).1
  · have := hagrees entries layout ha fun c hc => by
      obtain ⟨hc, hcr⟩ := mem_filter.mp hc
      have := ha.calls c hc
      rwa [of_decide_eq_true hcr, hr, ← ha.size] at this
    refine ⟨this.code, fun c hc => this.calls c (mem_filter.mp hc).1, fun r' n hn => ?_⟩
    rw [lookup_cons] at hn
    split at hn
    · next heq => simp_all [ha.size]
    · exact this.entries r' n hn

/-! ## Aggregates -/

theorem Agrees.back (h : Agrees entries e layout) {x : Emission} (hx : e.code.back? = some x) :
    ∃ y, layout.getLast? = some y ∧ y.instr.op = x.instr.op := by
  rw [Array.back?_eq_getElem?, h.code, h.size] at hx
  obtain ⟨y, hy, rfl⟩ := Option.map_eq_some_iff.mp hx
  refine ⟨y, List.getLast?_eq_getElem? ▸ hy, ?_⟩
  split <;> rfl

theorem Settled.pop (h : Settled jumps e) {x : Emission} (hx : e.code.back? = some x)
    (hop : x.instr.op = .eval) : Settled jumps { e with code := e.code.pop } := by
  refine ⟨{ h.opens with placed := fun a ha => ?_ }, h.unknown⟩
  obtain ⟨y, hy, hne⟩ := h.opens.placed a ha
  refine ⟨y, ?_, hne⟩
  rw [Array.back?_eq_getElem?] at hx
  have hlast : a ≠ e.code.size - 1 := by
    rintro rfl
    rw [hx, Option.some.injEq] at hy
    exact hne (hy ▸ hop)
  have hlt := h.opens.lt_size ha
  show e.code.pop[a]? = _
  rw [Array.getElem?_pop, if_pos (by omega)]
  exact hy

theorem Agrees.pop (h : Agrees entries e layout) (hs : Settled jumps { e with code := e.code.pop }) :
    Agrees entries { e with code := e.code.pop } layout.dropLast := by
  refine ⟨fun i => ?_, fun c hc => ?_, h.entries⟩
  · show e.code.pop[i]? = _
    rw [Array.getElem?_pop, List.getElem?_dropLast, h.code i, h.size]
    split <;> rfl
  · obtain ⟨y, hy, harg⟩ := h.calls c hc
    refine ⟨y, ?_, harg⟩
    have hlt := hs.opens.lt_size (mem_append_right _ (mem_map_of_mem hc))
    rw [show Array.size _ = e.code.pop.size from rfl, Array.size_pop, h.size] at hlt
    rw [List.getElem?_dropLast, if_pos hlt]
    exact hy

theorem drop_run {x : Emission} (hback : e.code.back? = some x) : drop e = some ((), { e with code := e.code.pop }) := by
  have hne : e.code.isEmpty = false := by
    rw [Array.isEmpty_eq_false_iff]
    rintro heq
    simp [heq] at hback
  show (if e.code.isEmpty then _ else _ : Emit Unit) e = _
  rw [hne]
  rfl

theorem storeWhole_builds (size : Int64) (line : Nat) :
    Builds (fun _ layout => Stmt.storeWhole layout size line) [] (storeWhole size line) := by
  intro jumps e h
  unfold storeWhole
  rw [get_bind_run]
  cases hback : e.code.back? with
  | none =>
    obtain ⟨e', hrun, h'⟩ := emitAll_adds line [assign.withInt size] jumps e h
    refine ⟨e', hrun, h'.congr (by simp) fun entries layout ha => ?_⟩
    have hsize := ha.size
    rw [Array.back?_eq_none_iff.mp hback] at hsize
    rw [length_eq_zero_iff.mp hsize.symm]
    rfl
  | some x =>
    dsimp only
    split
    · next hop =>
      have hpop := h.pop hback hop
      obtain ⟨e', hrun, h'⟩ := emitAll_adds line [copy.withInt size] jumps _ hpop
      refine ⟨e', bind_run (drop_run hback) hrun, h'.settled, h'.entries, h'.calls, fun entries layout ha => ?_⟩
      obtain ⟨y, hy, hyop⟩ := ha.back hback
      show Agrees entries e' (Stmt.storeWhole layout size line)
      simp only [Stmt.storeWhole, hy, hyop, hop, if_true]
      exact h'.agrees entries _ (ha.pop hpop)
    · next hop =>
      obtain ⟨e', hrun, h'⟩ := emitAll_adds line [assign.withInt size] jumps e h
      refine ⟨e', hrun, h'.congr (by simp) fun entries layout ha => ?_⟩
      obtain ⟨y, hy, hyop⟩ := ha.back hback
      rw [Stmt.storeWhole, hy]
      exact (if_neg fun h => hop (hyop.symm.trans h)).symm

end Emitter

open Emitter

mutual

theorem Expr.emit_adds : (e : Expr) → Adds (fun entries => e.code entries) e.callees e.emit
  | .absent => .nil
  | .literal value _ line => emitAll_adds line _
  | .load source size line => source.emit_adds.andThen line _
  | .call callee args line => args.emit_adds.bind (call_adds line callee)
  | .sign true operand line => operand.emit_adds.andThen line _
  | .sign false operand line => operand.emit_adds.andThen line []
  | .complement operand line => operand.emit_adds.andThen line _
  | .binary op left right kinds line => by
    have := left.emit_adds.bind (right.emit_adds.andThen line ((op.select kinds).getD []))
    simpa only [Expr.code, Expr.emit, Expr.callees, append_assoc] using this
  | .compare relation left right kinds line => by
    have := left.emit_adds.bind (right.emit_adds.andThen line (relation.select kinds))
    simpa only [Expr.code, Expr.emit, Expr.callees, append_assoc] using this
  | .apply function arg kind none line => by
    have := arg.emit_adds.bind (Adds.andThen (emitAll_adds line (function.select kind)) line [])
    simpa only [Expr.code, Expr.emit, Expr.callees, append_assoc, append_nil] using this
  | .apply function arg kind (some b) line => by
    have := arg.emit_adds.bind (Adds.andThen (emitAll_adds line (function.select kind)) line b.code)
    simpa only [Expr.code, Expr.emit, Expr.callees, append_assoc, append_nil] using this

theorem Designator.emit_adds : (d : Designator) → Adds (fun entries => d.code entries) d.callees d.emit
  | .variable v line => emitAll_adds line _
  | .result hops line => emitAll_adds line _
  | .element array index dimension line => by
    have := array.emit_adds.bind (index.emit_adds.andThen line dimension.code)
    simpa only [Designator.code, Designator.emit, Designator.callees, append_assoc] using this
  | .field record offset line => by
    have := record.emit_adds.andThen line
      (if offset = 0 then [] else [push.withInt offset, { op := .binary .add }])
    rw [apply_ite (emitAt line)] at this
    exact this
  | .pointee pointer line => pointer.emit_adds.andThen line _
  | .surplus place index => place.emit_adds.bind index.emit_adds

theorem Args.emit_adds : (a : Args) → Adds (fun entries => a.code entries) a.callees a.emit
  | .nil => .nil
  | .cons arg conversion line rest => by
    have := arg.emit_adds.bind (Adds.bind (emitAll_adds line conversion.code) rest.emit_adds)
    simpa only [Args.code, Args.emit, Args.callees, append_assoc, nil_append] using this

end

theorem Expr.emitAll_adds : (es : List Expr) →
    Adds (fun entries => es.flatMap fun e => e.code entries) (es.flatMap Expr.callees) (Expr.emitAll es)
  | [] => .nil
  | e :: rest => e.emit_adds.bind (Expr.emitAll_adds rest)

namespace Stmt

theorem code_ne_nil (entries : Entries) : (d : Designator) → d.code entries ≠ []
  | .variable .. | .result .. => by simp [Designator.code, emitAt]
  | .element array _ _ _ => by simp [Designator.code, code_ne_nil entries array]
  | .field record _ _ => by simp [Designator.code, code_ne_nil entries record]
  | .pointee pointer _ => by simp [Designator.code, code_ne_nil entries pointer]
  | .surplus place _ => by simp [Designator.code, code_ne_nil entries place]

theorem storeWhole_append (before code : List Emission) (hcode : code ≠ []) (size : Int64) (line : Nat) :
    storeWhole (before ++ code) size line = before ++ storeWhole code size line := by
  obtain ⟨x, hx⟩ := Option.isSome_iff_exists.mp (by simpa using hcode : code.getLast?.isSome)
  simp only [storeWhole, List.getLast?_append, hx, Option.some_or]
  split
  · rw [dropLast_append_of_ne_nil hcode, append_assoc]
  · rw [append_assoc]

theorem assignWhole_lays (target : Designator) (value : Expr) (size : Int64) (line : Nat) :
    Lays (fun here entries => code entries here (.assignWhole target value size line))
      (target.callees ++ value.callees) (Stmt.assignWhole target value size line).emit := by
  have := Builds.bind target.emit_adds (Builds.bind value.emit_adds (storeWhole_builds size line))
  rw [append_nil] at this
  intro jumps e h
  obtain ⟨e', hrun, h'⟩ := this jumps e h
  refine ⟨e', hrun, h'.congr (by simp) fun entries layout _ => ?_⟩
  dsimp only
  rw [append_assoc, storeWhole_append _ _ (by simp [code_ne_nil])]
  rfl

theorem emitStart_adds (control : Variable) (controlLine : Nat) (start : Expr) (conversion : Conversion)
    (startLine : Nat) (limit : Expr) :
    Adds (fun entries => emitAt controlLine [control.address] ++ start.code entries ++
        emitAt startLine conversion.code ++ emitAt startLine [Opcode.assign.withInt 1] ++ limit.code entries)
      (start.callees ++ limit.callees) (emitStart control controlLine start conversion startLine limit) := by
  have hstore := Adds.bind (emitAll_adds startLine conversion.code)
    (Adds.bind (emitAll_adds startLine [Opcode.assign.withInt 1]) limit.emit_adds)
  have := Adds.bind (emitAll_adds controlLine [control.address]) (start.emit_adds.bind hstore)
  simpa only [append_assoc, nil_append, emitStart] using this

theorem emit_lays : (s : Stmt) → Lays (fun here entries => s.code entries here) s.callees s.emit
  | .skip => Adds.nil
  | .seq first second => Lays.bind first.emit_lays second.emit_lays
  | .assign target value conversion line => by
    have := target.emit_adds.bind (value.emit_adds.bind (Adds.andThen
      (emitAll_adds line conversion.code) line [Opcode.assign.withInt 1]))
    simpa only [code, emit, callees, append_assoc, append_nil] using this
  | .assignWhole target value size line => assignWhole_lays target value size line
  | .abandoned target value => target.emit_adds.bind value.emit_adds
  | .call callee args line => args.emit_adds.bind (call_adds line callee)
  | .ifThen condition testLine body => by
    have := Lays.bind condition.emit_adds.lays (body.emit_lays.skipped testLine (by decide : jneq ≠ .eval))
    simpa only [code, emit, callees, append_assoc] using this
  | .ifElse condition testLine body elseLine alternative => by
    have := Lays.bind condition.emit_adds.lays (body.emit_lays.chosen alternative.emit_lays testLine elseLine)
    simpa only [code, emit, callees, append_assoc] using this
  | .whileDo condition testLine body endLine => by
    have := Lays.fromHere fun top => Lays.bind condition.emit_adds.lays
      ((Lays.bind body.emit_lays (Adds.lays (emitAll_adds endLine [jump.withTarget top]))).skipped testLine
        (by decide : jneq ≠ .eval))
    simp only [bind_assoc] at this
    refine Lays.congr this (fun here entries => ?_) (by simp [callees])
    simp +arith [code, emitAt]
  | .repeatUntil body condition line => by
    have := Lays.fromHere fun top => Lays.bind body.emit_lays
      (Adds.lays (condition.emit_adds.andThen line [jneq.withTarget top]))
    simpa only [code, emit, callees, append_assoc] using this
  | .forLoop control controlLine start conversion startLine downward limit limitLine body endLine => by
    have hinside := Lays.bind body.emit_lays (Adds.lays (emitAll_adds endLine (compareControl control .notEqual)))
    have hrest (top : Nat) := Adds.lays (Adds.bind (emitAll_adds endLine (stepControl control downward))
      (emitAll_adds endLine [jump.withTarget top]))
    have := Lays.bind (emitStart_adds control controlLine start conversion startLine limit).lays
      (Lays.fromHere fun top => Lays.bind (Adds.lays (emitAll_adds limitLine
        (compareControl control (if downward then .lessEqual else .greaterEqual))))
        (Lays.bind (hinside.left (hrest top) limitLine endLine)
          (Adds.lays (emitAll_adds endLine [pop.withInt 1]))))
    simp only [bind_assoc] at this
    refine Lays.congr this (fun here entries => ?_) (by simp [callees])
    simp +arith [code, emitAt, compareControl, stepControl]
  | .write value format line => by
    have := value.emit_adds.bind ((Expr.emitAll_adds format).andThen line
      [{ op := .write, level := Int8.ofNat format.length }])
    simpa only [code, emit, callees, append_assoc] using this
  | .writeText text line => by
    have := emitAll_adds line (text.flatMap fun c => [{ op := .push, arg := .character c }, { op := .write }])
    simpa only [code, emit, callees, emitAt, map_flatMap] using this
  | .writeln line => emitAll_adds line _
  | .new target size line => target.emit_adds.andThen line _
  | .dispose target line => target.emit_adds.andThen line _

end Stmt

theorem BlockInfo.emit_lays (info : BlockInfo) (body : Stmt) :
    Lays (fun here entries => info.code entries here body) body.callees (info.emit body) := by
  have hentry : emitAt info.enterLine (if info.locals = 0 then [] else [enter.withInt info.locals]) =
      info.entry := by
    unfold BlockInfo.entry
    split <;> rfl
  have hbody := Lays.bind body.emit_lays (Adds.lays (emitAll_adds info.exitLine
    [(if info.routine.result.isSome then retf else ret).withInt info.routine.paramSize]))
  have := Lays.bind (Adds.lays (emitAll_adds info.enterLine
    (if info.locals = 0 then [] else [enter.withInt info.locals]))) hbody
  simp only [hentry, ← append_assoc, append_nil, nil_append] at this
  exact this

namespace Blocks

/-- Blocks can be written after any code. If their bodies start where they are said to start, what is
written is the laid out code. -/
theorem emit_written (b : Blocks) (jumps : List Nat) (e : Emitter) (h : Settled jumps e) :
    ∃ e', b.emit e = some ((), e') ∧ Settled jumps e' ∧
      (∀ r, e'.entries.lookup r = none ↔ e.entries.lookup r = none ∧ r ∉ b.ids) ∧
      (∀ c ∈ e'.calls, c ∈ e.calls ∨ c.1 ∈ b.callees) ∧
      ∀ entries layout, Agrees entries e layout → (∀ x ∈ b.starts layout.length, entries x.1 = x.2) →
        Agrees entries e' (layout ++ b.code entries layout.length) := by
  induction b generalizing e with
  | nil =>
    refine ⟨e, rfl, h, fun _ => by simp [ids], fun _ => .inl, fun _ _ ha _ => ?_⟩
    simpa [code] using ha
  | cons info inner body rest ih₁ ih₂ =>
    obtain ⟨e₁, hrun₁, h₁, hentries₁, hcalls₁, hagrees₁⟩ := ih₁ e h
    obtain ⟨e₂, hrun₂, h₂, hentries₂, hcalls₂, hagrees₂⟩ := define_run h₁ info.routine.id
    obtain ⟨e₃, hrun₃, h₃⟩ := info.emit_lays body jumps e₂ h₂
    obtain ⟨e₄, hrun₄, h₄, hentries₄, hcalls₄, hagrees₄⟩ := ih₂ e₃ h₃.settled
    refine ⟨e₄, ?_, h₄, fun r => ?_, fun c hc => ?_, fun entries layout ha hstarts => ?_⟩
    · exact bind_run hrun₁ (bind_run hrun₂ (bind_run hrun₃ hrun₄))
    · rw [hentries₄, h₃.entries, hentries₂, lookup_cons]
      by_cases hr : r = info.routine.id
      · simp [hr, ids]
      · have hne : (r == info.routine.id) = false := by simpa using hr
        simp only [hne, hentries₁, ids, mem_append, mem_cons, hr, false_or, not_or]
        tauto
    · simp only [callees, mem_append]
      rcases hcalls₄ c hc with hc | hc
      · rcases h₃.calls c hc with hc | hc
        · exact (hcalls₁ c (hcalls₂ c hc)).imp id fun hc => .inl (.inl hc)
        · exact .inr (.inl (.inr hc))
      · exact .inr (.inr hc)
    · simp only [starts, mem_append, mem_cons] at hstarts
      have ha₁ := hagrees₁ entries layout ha fun x hx => hstarts x (.inl hx)
      have hlength : (layout ++ inner.code entries layout.length).length = layout.length + inner.size := by
        rw [length_append, length_code_eq_size]
      have ha₂ := hagrees₂ entries _ ha₁ ((hstarts _ (.inr (.inl rfl))).trans hlength.symm)
      have ha₃ := h₃.agrees entries _ ha₂
      have hbody := info.length_code entries (fun _ => 0) (layout.length + inner.size) 0 body
      have ha₄ := hagrees₄ entries _ ha₃ fun x hx => hstarts x (.inr (.inr ?_))
      · simpa [code, hlength, length_code_eq_size, Nat.add_assoc] using ha₄
      · simpa [hlength, hbody, length_code_eq_size, Nat.add_assoc] using hx

theorem map_fst_starts (b : Blocks) (here : Nat) : (b.starts here).map Prod.fst = b.ids := by
  induction b generalizing here with
  | nil => rfl
  | cons _ _ _ _ ih₁ ih₂ => simp [starts, ids, ih₁, ih₂]

end Blocks

theorem AddressSet.size_eq_zero {s : AddressSet} (h : ∀ a : Nat, s.contains a = false) : s.size = 0 := by
  rw [size_eq_length, length_eq_zero_iff, eq_nil_iff_forall_not_mem]
  exact fun a ha => nomatch ((mem_toList s a).mp ha).symm.trans (h a)

/-- An address that belongs to a subprogram once is found. -/
theorem Entries.ofStarts_of_mem {starts : List (RoutineId × Nat)} (h : (starts.map Prod.fst).Nodup)
    {x : RoutineId × Nat} (hx : x ∈ starts) : Entries.ofStarts starts x.1 = x.2 := by
  induction starts with
  | nil => simp at hx
  | cons y rest ih =>
    obtain ⟨r, n⟩ := y
    obtain ⟨hy, hrest⟩ := nodup_cons.mp h
    unfold Entries.ofStarts at ih ⊢
    rcases mem_cons.mp hx with rfl | hx
    · simp
    · have hne : (x.1 == r) = false := by
        rw [beq_eq_false_iff_ne]
        intro heq
        exact hy (mem_map.mpr ⟨x, hx, heq⟩)
      rw [lookup_cons, hne]
      exact ih hrest hx

namespace ProgramTree

theorem emitHeading_adds (t : ProgramTree) :
    Adds (fun entries => emitAt t.headingLine [call.withTarget (entries t.main), { op := .halt }])
      [t.main] t.emitHeading :=
  Adds.andThen (call_adds t.headingLine { routine := t.main, hops := 0, result := none }) t.headingLine
    [{ op := .halt }]

/-- Nothing is open before the emission starts. -/
theorem settled_empty : Settled [] {} where
  opens := ⟨fun a => by simp [AddressSet.contains_empty, waiting], nodup_nil, nofun⟩
  unknown := nofun

theorem agrees_empty (entries : Entries) : Agrees entries {} [] where
  code i := by simp
  calls c hc := by simp at hc
  entries r n hn := by simp at hn

/-- The emission of a program does not break down, whatever its tree. If every subprogram that is called
has one body, no target is left open, and the code is the laid out code. -/
theorem emit?_eq_some (t : ProgramTree) : ∃ e, t.emit? = some e ∧
    (t.blocks.ids.Nodup → t.main ∈ t.blocks.ids → t.blocks.callees ⊆ t.blocks.ids →
      e.pending.size = 0 ∧ e.code.toList = t.code) := by
  obtain ⟨e₁, hrun₁, h₁⟩ := t.emitHeading_adds _ _ settled_empty
  obtain ⟨e₂, hrun₂, h₂, hentries, hcalls, hagrees⟩ := t.blocks.emit_written _ e₁ h₁.settled
  refine ⟨e₂, ?_, fun hnodup hmain hcallees => ?_⟩
  · have hrun : t.emit.run {} = some ((), e₂) := bind_run hrun₁ hrun₂
    rw [emit?, hrun]
    rfl
  · have hnone : e₂.calls = [] := by
      refine eq_nil_iff_forall_not_mem.mpr fun c hc => ?_
      refine ((hentries c.1).mp (h₂.unknown c hc)).2 ?_
      rcases hcalls c hc with hc | hc
      · rcases h₁.calls c hc with hc | hc
        · simp at hc
        · exact mem_singleton.mp hc ▸ hmain
      · exact hcallees hc
    have hpending (a : Nat) : e₂.pending.contains a = false := by
      rw [Bool.eq_false_iff, ne_eq, h₂.opens.pending a]
      simp [waiting, hnone]
    refine ⟨AddressSet.size_eq_zero hpending, ?_⟩
    · have hstarts : ∀ x ∈ t.blocks.starts origin, t.entries x.1 = x.2 :=
        fun x hx => Entries.ofStarts_of_mem ((t.blocks.map_fst_starts origin).symm ▸ hnodup) hx
      have := hagrees t.entries _ (h₁.agrees t.entries [] (agrees_empty t.entries)) hstarts
      refine ext_getElem? fun i => ?_
      rw [Array.getElem?_toList, this.code i]
      simp only [hpending, Bool.false_eq_true, if_false, Option.map_id']
      rfl

end ProgramTree

end MiniPascal
