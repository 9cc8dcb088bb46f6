import MiniPascal.Machine.Run
import MiniPascal.Proofs.Run.Activity

/-!
# States of a run

A run starts without activities, and a step leads from activities to activities. No step fails in a way that
typed programs exclude, and a step stores nothing into the words of the activities that stay, apart from the
block of an assignment or a copy.
-/

namespace MiniPascal.Activity

open List

open Machine

variable (t : ProgramTree) (types : TypeTable)

/-- Activities one above the other, the innermost one first. The outermost one is that of the program. -/
def Chain : List Activity → Prop
  | [] => True
  | [a] => Begins a.act ∧ a.segment.around = [] ∧ a.segment.info.routine = { id := t.main }
  | a :: c :: rest => (∃ ds back hops, c.Awaits t types ds back hops a) ∧ Chain (c :: rest)

/-- A state of a run with the activities in it. Without any, the program has not started, or it has ended. -/
def Live : List Activity → Machine → Prop
  | [], m => m.code.toList = instrs t.code ∧
    (Fresh m ∧ (∀ (a : Nat) (d : Datum), m.mem[a]? = some d → d.Narrow) ∨ m.pc = 1 ∧ m.sp = 0)
  | a :: rest, m => (∀ b ∈ a :: rest, b.Sound t types) ∧ Chain t types (a :: rest) ∧ a.RunsAt t types m

/-- How the activities before and after a step with an instruction belong together. -/
inductive Follows (x : Instr) (m : Machine) : List Activity → List Activity → Prop
  | stay {a : Activity} {rest : List Activity} (hcall : x.op ≠ .call ∧ x.op ≠ .calli)
      (hret : x.op ≠ .ret ∧ x.op ≠ .retf) : Follows x m (a :: rest) (a :: rest)
  | call {b : Activity} {rest : List Activity} (hop : x.op = .call) (hb : b.call = ⟨m.fp, m.pc⟩) :
      Follows x m rest (b :: rest)
  | ret {a : Activity} {rest : List Activity} (hop : x.op = .ret ∨ x.op = .retf) : Follows x m (a :: rest) rest

/-- What is asked of a state after a step at another one. The words of the activities that stay are as they were,
apart from a block that was stored. -/
def After (x : Instr) (as : List Activity) (m m' : Machine) : Prop :=
  ∃ as', Follows x m' as as' ∧ Live t types as' m' ∧
    ∀ b ∈ as', b ∈ as → ∀ w ≤ b.act.top, m'.mem[w]? = (m.stored? w).or m.mem[w]?

variable {t types} {a : Activity} {m : Machine} {rest as : List Activity} {x : Instr}

/-- The words of the outer activities lie below those of the innermost one. -/
theorem Chain.top_le (h : Chain t types (a :: rest)) {b : Activity} (hb : b ∈ a :: rest) : b.act.top ≤ a.act.top := by
  induction rest generalizing a with
  | nil =>
    obtain rfl := mem_singleton.mp hb
    exact Nat.le_refl _
  | cons c rest ih =>
    rcases mem_cons.mp hb with rfl | hb
    · exact Nat.le_refl _
    · obtain ⟨⟨ds, back, hops, hawaits⟩, hchain⟩ := h
      have hle := ih hchain hb
      have hfp := hawaits.opens.fp
      have htop := hawaits.opens.top
      omega

/-- The frames around an activity are those of activities of the blocks around its own. -/
theorem Chain.exists_enclosing (h : Chain t types (a :: rest)) {k : Nat} (hk : k < a.segment.levels.length) :
    ∃ b ∈ a :: rest, b.segment.levels = a.segment.levels.drop k ∧ (a.act.fp :: a.act.outer)[k]? = some b.act.fp := by
  induction rest generalizing a k with
  | nil =>
    have hlength : a.segment.levels.length = 1 := by
      show a.segment.around.length + 1 = 1
      rw [h.2.1]
      rfl
    obtain rfl : k = 0 := by omega
    exact ⟨a, mem_cons_self, rfl, rfl⟩
  | cons c rest ih =>
    cases k with
    | zero => exact ⟨a, mem_cons_self, rfl, rfl⟩
    | succ k =>
      obtain ⟨⟨ds, back, hops, hawaits⟩, hchain⟩ := h
      have hlength : a.segment.levels.length = (c.segment.levels.drop hops).length + 1 := by
        show a.segment.around.length + 1 = _
        rw [hawaits.around]
      rw [length_drop] at hlength
      -- the call went a number of blocks out, from where the links of the caller go on
      obtain ⟨b, hb, hblock, hframe⟩ := ih hchain (k := hops + k) (by omega)
      refine ⟨b, mem_cons_of_mem a hb, ?_, ?_⟩
      · show _ = a.segment.around.drop k
        rw [hblock, hawaits.around, drop_drop]
      · rw [List.getElem?_cons_succ, hawaits.opens.outer, List.getElem?_drop]
        exact hframe

/-- The frame of the innermost activity is the current one, and what the activity relies on is there. -/
theorem RunsAt.exists_at (h : a.RunsAt t types m) : ∃ A pc ds, At A pc ds m ∧ A.code = a.act.code ∧
    A.fp = a.act.fp ∧ A.outer = a.act.outer ∧ a.act.Fixed m.mem := by
  rcases h with ⟨A, hA, hat, -⟩ | ⟨pc, -, -, ds, hat, -⟩
  · rw [hA]
    exact ⟨A, _, _, hat, rfl, rfl, rfl, Activation.fixed_extend.mpr hat.frozen⟩
  · exact ⟨a.act, pc, ds, hat, rfl, rfl, rfl, hat.frozen⟩

theorem Live.code_eq (h : Live t types as m) : m.code.toList = instrs t.code := by
  cases as with
  | nil => exact h.1
  | cons a rest =>
    obtain ⟨hsound, -, hruns⟩ := h
    obtain ⟨A, pc, ds, hat, hcode, -⟩ := hruns.exists_at
    rw [hat.code, hcode]
    exact (hsound a mem_cons_self).code

/-- A call puts its activity on top of the others. -/
theorem Live.cons {ds : List Datum} {back hops : Nat} {b : Activity} {m' : Machine} (h : Live t types (a :: rest) m)
    (hb : a.Starts t types x m ds back hops b m') : Live t types (b :: a :: rest) m' :=
  ⟨forall_mem_cons.mpr ⟨hb.sound, h.1⟩, ⟨⟨ds, back, hops, hb.awaits⟩, h.2.1⟩, hb.runsAt⟩

/-- Where the innermost activity is: before its variables are reserved, at a statement, or at its end. -/
theorem Sound.runsAt_cases (hr : t.Runnable types) (h : a.Sound t types) (hm : a.RunsAt t types m) :
    (∃ A : Activation, a.act = A.extend (types.total a.segment.info.vars) ∧ At A a.segment.start [] m ∧
      a.segment.bodyStart = a.segment.start + 1) ∨
    (∃ i x, (a.segment.statements t.entries)[i]? = some x ∧ m.fetch? = some x ∧ a.ShowsAt t types i m) ∨
    At a.act (a.segment.bodyStart + (a.segment.statements t.entries).length) [] m ∧
      m.fetch? = some a.segment.leave := by
  rcases hm with hentry | ⟨pc, hstart, hstop, hshows⟩
  · exact .inl hentry
  have hend := a.segment.stop_eq t.entries
  obtain ⟨i, rfl⟩ := Nat.exists_eq_add_of_le hstart
  by_cases hi : i < (a.segment.statements t.entries).length
  · have hx := List.getElem?_eq_getElem hi
    refine .inr (.inl ⟨i, _, hx, hshows.fetch?_eq ?_, hshows⟩)
    rw [h.getElem?_code, ProgramTree.getElem?_statements h.mem hi]
    exact hx
  · obtain rfl : i = (a.segment.statements t.entries).length := by omega
    rw [hr.typed.stackAt_end h.mem (hr.laid _ h.mem)] at hshows
    refine .inr (.inr ⟨?_, hshows.fetch?_eq ?_⟩)
    · obtain ⟨ds, hat, hslots⟩ := hshows
      cases hslots
      exact hat
    · rw [h.getElem?_code]
      exact ProgramTree.getElem?_leave h.mem

/-- The end of the program stands behind its call. -/
theorem fetch?_halt (hcode : m.code.toList = instrs t.code) (hpc : m.pc = 1) : m.fetch? = some { op := .halt } := by
  have hone : m.pc.toInt = (1 : Nat) := by
    rw [hpc]
    rfl
  rw [fetch?_eq hone, ← Array.getElem?_toList, hcode, t.instrs_code]
  rfl

theorem leave_op (g : Segment) : g.leave.op = .ret ∨ g.leave.op = .retf := by
  unfold Segment.leave
  split
  · exact .inr rfl
  · exact .inl rfl

section

variable (hr : t.Runnable types)

include hr

/-- An instruction that neither starts nor ends a body is one of its statements. -/
theorem Live.exists_statement (h : Live t types (a :: rest) m) (hfetch : m.fetch? = some x)
    (hinner : x.op ≠ .enter ∧ x.op ≠ .ret ∧ x.op ≠ .retf) :
    ∃ i, (a.segment.statements t.entries)[i]? = some x ∧ a.ShowsAt t types i m := by
  have ha := h.1 a mem_cons_self
  rcases ha.runsAt_cases hr h.2.2 with ⟨A, hA, hat, hstart⟩ | ⟨i, y, hy, hfetch', hshows⟩ | ⟨-, hfetch'⟩
  · obtain ⟨y, hfetch', hop, -⟩ := ha.step_enter hr hA hat hstart
    obtain rfl := Option.some.inj (hfetch'.symm.trans hfetch)
    exact absurd hop hinner.1
  · obtain rfl := Option.some.inj (hfetch'.symm.trans hfetch)
    exact ⟨i, hy, hshows⟩
  · obtain rfl := Option.some.inj (hfetch'.symm.trans hfetch)
    exact absurd (leave_op a.segment) (not_or.mpr hinner.2)

theorem Live.at_leave (h : Live t types (a :: rest) m) (hfetch : m.fetch? = some x) (hop : x.op = .ret ∨ x.op = .retf) :
    At a.act (a.segment.bodyStart + (a.segment.statements t.entries).length) [] m := by
  have ha := h.1 a mem_cons_self
  rcases ha.runsAt_cases hr h.2.2 with ⟨A, hA, hat, hstart⟩ | ⟨i, y, hy, hfetch', -⟩ | ⟨hat, -⟩
  · obtain ⟨y, hfetch', henter, -⟩ := ha.step_enter hr hA hat hstart
    obtain rfl := Option.some.inj (hfetch'.symm.trans hfetch)
    rw [henter] at hop
    rcases hop with hop | hop <;> cases hop
  · obtain rfl := Option.some.inj (hfetch'.symm.trans hfetch)
    have hsafe := (hr.typed.meets_statements ha.mem (hr.laid _ ha.mem) hy).1.safe trivial
    rcases hop with hop | hop <;> simp only [Instr.Safe, hop] at hsafe
  · exact hat

/-- A statement that is no call stays in the activity. -/
theorem Follows.statement {g : Segment} (hg : g ∈ t.segments) {i : Nat} (hx : (g.statements t.entries)[i]? = some x)
    (hcall : x.op ≠ .call) : Follows x m (a :: rest) (a :: rest) := by
  have hsafe := (hr.typed.meets_statements hg (hr.laid _ hg) hx).1.safe trivial
  refine .stay ⟨hcall, ?_⟩ ⟨?_, ?_⟩
  all_goals
    intro hop
    simp only [Instr.Safe, hop] at hsafe

theorem Live.step_cons (h : Live t types (a :: rest) m) :
    ∃ x, m.fetch? = some x ∧ Goes x.op (After t types x (a :: rest) m) m.step := by
  obtain ⟨hsound, hchain, hruns⟩ := h
  have ha := hsound a mem_cons_self
  have hstay {m' : Machine} (hm' : a.RunsAt t types m') : Live t types (a :: rest) m' := ⟨hsound, hchain, hm'⟩
  rcases ha.runsAt_cases hr hruns with ⟨A, hA, hat, hstart⟩ | ⟨i, x, hx, hfetch, hshows⟩ | ⟨hat, hfetch⟩
  · -- the local variables are reserved
    obtain ⟨x, hfetch, hop, hgoes⟩ := ha.step_enter hr hA hat hstart
    refine ⟨x, hfetch, ?_⟩
    rw [← hop] at hgoes
    refine hgoes.mono fun m' ⟨hm', hmem⟩ => ⟨_, ?_, hstay (.of_at hm'), fun b _ _ w _ => ?_⟩
    · exact .stay (by rw [hop]; exact ⟨Opcode.noConfusion, Opcode.noConfusion⟩)
        (by rw [hop]; exact ⟨Opcode.noConfusion, Opcode.noConfusion⟩)
    · rw [stored?_of_ne hfetch (by rw [hop]; exact Opcode.noConfusion) (by rw [hop]; exact Opcode.noConfusion), hmem]
      rfl
  · refine ⟨x, hfetch, ?_⟩
    by_cases hcall : x.op = .call
    · -- a call
      have hgoes := ha.step_call hr hshows hx hcall
      rw [← hcall] at hgoes
      refine hgoes.mono fun m' ⟨b, ds, hops, hstarts⟩ => ?_
      refine ⟨b :: a :: rest, .call hcall hstarts.call_eq, .cons ⟨hsound, hchain, hruns⟩ hstarts, fun c _ hc w hw => ?_⟩
      rw [stored?_of_ne hfetch (by rw [hcall]; exact Opcode.noConfusion) (by rw [hcall]; exact Opcode.noConfusion),
        Option.none_or]
      have hle := hchain.top_le hc
      have hfp := hstarts.awaits.opens.fp
      exact hstarts.below w (by omega)
    · -- another statement
      have hstop := a.segment.stop_eq t.entries
      refine (ha.step_statement hr hshows hx hcall).mono fun m' ⟨j, hj, _, hshows', hmem⟩ => ?_
      refine ⟨_, .statement hr ha.mem hx hcall, hstay (.inr ⟨_, by omega, by omega, hshows'⟩), fun b _ hb w hw => ?_⟩
      exact hmem w (Nat.le_trans hw (hchain.top_le hb))
  · -- the end of the body
    refine ⟨_, hfetch, ?_⟩
    have hnone (w : Nat) : m.stored? w = none := by
      refine stored?_of_ne hfetch ?_ ?_ w <;>
      · intro hop
        rcases leave_op a.segment with h | h <;>
        · rw [h] at hop
          cases hop
    cases rest with
    | nil =>
      obtain ⟨hbegins, -, hroutine⟩ := hchain
      obtain ⟨m', hstep, hcode, -, hpc, -, hsp⟩ := ha.step_leave_main hbegins hroutine hat
      rw [hstep]
      exact .inl ⟨rfl, [], .ret (leave_op _), ⟨hcode, .inr ⟨hpc, hsp⟩⟩, fun b hb => absurd hb not_mem_nil⟩
    | cons c rest =>
      obtain ⟨⟨ds, back, hops, hawaits⟩, hchain⟩ := hchain
      have hc := hsound c (mem_cons_of_mem a mem_cons_self)
      obtain ⟨r, m', hstep, -, hafter, hkept⟩ := ha.step_leave hr hc hawaits hat
      rw [hstep]
      refine .inl ⟨rfl, c :: rest, .ret (leave_op _), ⟨fun b hb => hsound b (mem_cons_of_mem a hb), hchain,
        hawaits.resume hafter⟩, fun b hb _ w hw => ?_⟩
      rw [hnone, Option.none_or]
      have hle := hchain.top_le hb
      exact hkept w (by omega)

omit hr in
/-- The activity of the program lies at the start of the stack. -/
theorem Sound.first {g : Segment} (hg : g ∈ t.segments) (hroutine : g.info.routine = { id := t.main })
    (haround : g.around = []) {A : Activation} (hcode : A.code.toList = instrs t.code)
    (hadmits : A.admits = Datum.Narrow) (hbegins : Begins A) (htop : A.top = 4) :
    Sound t types ⟨g, A.extend (types.total g.info.vars)⟩ where
  mem := hg
  code := hcode
  admits := hadmits
  top := by
    show A.top + _ = A.fp + 3 + _
    rw [htop, hbegins.fp]
  frames := by
    show List.Forall₂ _ (A.fp :: A.outer) (g.level :: g.around)
    have hparams : types.total g.info.routine.params = 0 := by
      rw [hroutine]
      rfl
    rw [hbegins.outer, haround, hbegins.fp]
    refine .cons ⟨?_, fun w hupper hlower => ?_, fun w hlower hupper => ?_⟩ .nil
    · show types.total g.info.routine.params < 1
      omega
    · have hle : 1 ≤ w + types.total g.info.routine.params := hlower
      omega
    · refine (hbegins.extend htop _).locals w hlower ?_
      show w ≤ A.top + _
      rw [htop]
      exact hupper

theorem step_fresh (hcode : m.code.toList = instrs t.code) (hfresh : Fresh m)
    (hdata : ∀ (a : Nat) (d : Datum), m.mem[a]? = some d → d.Narrow) :
    ∃ b m', m.fetch? = some (Opcode.call.withTarget b.segment.start) ∧ m.step = (.success, m') ∧
      Live t types [b] m' ∧ b.call = ⟨m'.fp, m'.pc⟩ ∧ m'.mem[0]? = m.mem[0]? ∧
      m'.mem[b.act.fp + 3]? = some (.integer 0) := by
  obtain ⟨g, hg, hroutine, haround, hentry⟩ := hr.typed.exists_main
  have hstop := (t.contiguous_segments.stop_le hg).2
  have hshort := hr.short
  unfold Segment.stop at hstop
  have hstart : (Int64.ofNat g.start).toInt = g.start := Word.toInt_ofNat (by omega)
  have hfetch : m.fetch? = some (Opcode.call.withTarget g.start) := by
    have hzero : m.pc.toInt = (0 : Nat) := by
      rw [hfresh.pc]
      rfl
    rw [fetch?_eq hzero, ← Array.getElem?_toList, hcode, t.instrs_code, hentry]
    rfl
  have hsize : m.code.size ≤ 2 ^ 48 := by
    rw [← Array.length_toList, hcode, length_instrs]
    exact hshort
  obtain ⟨A, m', hcall, hat, hbegins, htop, hA, hadmits, hzero, hresult⟩ :=
    hfresh.call hsize hdata trivial ⟨by decide, by decide⟩ ⟨by decide, by decide⟩ hstart
  have hstep : m.step = m.advance.execute (Opcode.call.withTarget g.start) :=
    step_eq_execute (n := 0) hfetch rfl (by rw [hfresh.sp]; decide)
  have hfp := hbegins.fp
  refine ⟨⟨g, A.extend (types.total g.info.vars)⟩, m', hfetch, hstep.trans hcall, ⟨?_, ?_, .start hr hg hat⟩,
    ?_, hzero, ?_⟩
  · intro b hb
    obtain rfl := mem_singleton.mp hb
    exact .first hg hroutine haround (by rw [hA]; exact hcode) hadmits hbegins htop
  · exact ⟨hbegins.extend htop _, haround, hroutine⟩
  · rw [hat.fp_eq, hat.pc_eq]
    rfl
  · show m'.mem[A.fp + 3]? = _
    rw [hfp]
    exact hresult

/-- Every step of a run ends the program, is refused with a fault that the operation permits, or goes on. -/
theorem Live.step (h : Live t types as m) :
    ∃ x, m.fetch? = some x ∧ (m.step.1 = .halted ∨ Goes x.op (After t types x as m) m.step) := by
  cases as with
  | cons a rest =>
    obtain ⟨x, hfetch, hgoes⟩ := h.step_cons hr
    exact ⟨x, hfetch, .inr hgoes⟩
  | nil =>
    obtain ⟨hcode, ⟨hfresh, hdata⟩ | ⟨hpc, hsp⟩⟩ := h
    · obtain ⟨b, m', hfetch, hstep, hlive, hbase, -⟩ := step_fresh hr hcode hfresh hdata
      refine ⟨_, hfetch, .inr ?_⟩
      rw [hstep]
      exact .inl ⟨rfl, [b], .call rfl hbase, hlive, fun c _ hc => absurd hc not_mem_nil⟩
    · have hfetch := fetch?_halt hcode hpc
      refine ⟨_, hfetch, .inl ?_⟩
      rw [step_eq_execute (n := 0) hfetch rfl (by rw [hsp]; decide)]
      rfl

omit hr in
theorem Follows.exists_inner {inner as' : List Activity} {m' : Machine} {calls' : List Call}
    (h : Follows x m' (inner ++ as) as') (hfetch : m.fetch? = some x)
    (hmove : Moves m (inner.map Activity.call) m' calls') :
    ∃ inner', as' = inner' ++ as ∧ calls' = inner'.map Activity.call := by
  generalize hcalls : inner.map Activity.call = calls at hmove
  cases hmove with
  | @call _ y _ hy hop _ =>
    obtain rfl : x = y := Option.some.inj (hfetch.symm.trans hy)
    generalize hbefore : inner ++ as = before at h
    cases h with
    | stay hcall _ => exact absurd hop (not_or.mpr hcall)
    | @call b _ _ hb => exact ⟨b :: inner, by rw [← hbefore]; rfl, by rw [map_cons, hb, hcalls]⟩
    | ret hret => rcases hop with hop | hop <;> rw [hop] at hret <;> simp at hret
  | @ret _ y c rest hy hop _ =>
    obtain rfl : x = y := Option.some.inj (hfetch.symm.trans hy)
    obtain ⟨a, inner', rfl, -, rfl⟩ := map_eq_cons_iff.mp hcalls
    rw [cons_append] at h
    cases h with
    | stay _ hret => exact absurd hop (not_or.mpr hret)
    | call hcall _ => rw [hcall] at hop; simp at hop
    | ret _ => exact ⟨inner', rfl, rfl⟩
  | @other _ y _ hy hcall hret _ =>
    obtain rfl : x = y := Option.some.inj (hfetch.symm.trans hy)
    generalize hbefore : inner ++ as = before at h
    cases h with
    | stay _ _ => exact ⟨inner, hbefore.symm, hcalls.symm⟩
    | call hop _ => exact absurd hop hcall.1
    | ret hop => exact absurd hop (not_or.mpr hret)

/-- What a run does to the activities at its start: others may have come on top of them, one for each call that is
open, and their words are as they were, apart from what was stored last. -/
theorem Live.runs (h : Live t types as m) {past : List Machine} {m' : Machine} {calls : List Call}
    (hruns : Runs m past m' calls) : ∃ inner, Live t types (inner ++ as) m' ∧ calls = inner.map Activity.call ∧
      ∀ b ∈ as, ∀ w ≤ b.act.top, m'.mem[w]? = (lastStored? w past).or m.mem[w]? := by
  induction hruns with
  | nil => exact ⟨[], h, rfl, fun _ _ _ _ => rfl⟩
  | @snoc _ m₁ m₂ _ _ _ hmove ih =>
    obtain ⟨inner, hlive, rfl, hmem⟩ := ih
    obtain ⟨x, hfetch, hstep⟩ := hlive.step hr
    have hsuccess := hmove.step_eq
    rw [hsuccess] at hstep
    obtain ⟨as', hfollows, hafter, hsame⟩ : After t types x (inner ++ as) m₁ m₂ := by
      rcases hstep with hhalted | ⟨-, hafter⟩ | ⟨cause, hfault, -⟩
      · cases hhalted
      · exact hafter
      · cases hfault
    obtain ⟨inner', rfl, rfl⟩ := hfollows.exists_inner hfetch hmove
    refine ⟨inner', hafter, rfl, fun b hb w hw => ?_⟩
    rw [hsame b (mem_append_right _ hb) (mem_append_right _ hb) w hw, hmem b hb w hw, lastStored?_snoc, Option.or_assoc]

/-- A call of an activity starts another one. Where all calls made since have returned and a return comes next, that
one is at its end. -/
theorem Live.called (h : Live t types (a :: rest) m) (hfetch : m.fetch? = some x) (hop : x.op = .call)
    {m₁ m₂ : Machine} (hstep : m.step = (.success, m₁)) {during : List Machine} (hruns : Runs m₁ during m₂ [])
    {y : Instr} (hfetch' : m₂.fetch? = some y) (hret : y.op = .ret ∨ y.op = .retf) : ∃ pc ds₀ b ds hops,
      At a.act pc ds₀ m ∧ a.Starts t types x m ds (pc + 1) hops b m₁ ∧
      (∀ w ≤ b.act.top, m₂.mem[w]? = (lastStored? w during).or m₁.mem[w]?) ∧
      At b.act (b.segment.bodyStart + (b.segment.statements t.entries).length) [] m₂ := by
  obtain ⟨i, hx, hshows⟩ := h.exists_statement hr hfetch (by simp [hop])
  have hcall := (h.1 a mem_cons_self).step_call hr hshows hx hop
  rw [hstep] at hcall
  obtain ⟨b, ds, hops, hstarts⟩ := hcall.success
  obtain ⟨inner, hlive, hinner, hkept⟩ := (h.cons hstarts).runs hr hruns
  obtain rfl : inner = [] := map_eq_nil_iff.mp hinner.symm
  obtain ⟨ds₀, hat, -⟩ := hshows
  exact ⟨_, ds₀, b, ds, hops, hat, hstarts, hkept b mem_cons_self, hlive.at_leave hr hfetch' hret⟩

end

end MiniPascal.Activity
