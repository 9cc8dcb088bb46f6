import MiniPascal.Proofs.Machine.Execution
import MiniPascal.Proofs.Tree.Contexts

/-!
# Activities

While a program runs, its blocks are active one above the other. Each activity knows its segment of the code
and what it can rely on; all but the innermost one wait for the end of the activity that they called. A step
of the innermost one stays in it, starts another one, or leads back to the one that waits for it.
-/

namespace MiniPascal

open List

open Machine

/-- What the run of a program relies on. -/
structure ProgramTree.Runnable (t : ProgramTree) (types : TypeTable) : Prop where
  typed : t.WellTyped types True
  laid : ∀ g ∈ t.segments, (t.contextAt types True g).Laid t.signatures t.entries
  short : t.code.length ≤ 2 ^ 48

theorem ProgramTree.WellTyped.runnable {t : ProgramTree} {types : TypeTable} (h : t.WellTyped types True)
    (hframes : ∀ g ∈ t.segments, types.total g.info.routine.params < 2 ^ 31 ∧ types.total g.info.vars < 2 ^ 31)
    (hnesting : ∀ g ∈ t.segments, g.levels.length ≤ 127) (hshort : t.code.length ≤ 2 ^ 48) : t.Runnable types where
  typed := h
  laid g hg := by
    refine h.laid (by omega) (fun ty hty => (h.formed.formed.size hty trivial).1) (fun f hf => ?_) (fun _ f hf => ?_) hg
    · have := (hframes f hf).1
      omega
    · exact ⟨(hframes f hf).1, (hframes f hf).2, hnesting f hf⟩
  short := hshort

/-- An active block: the segment of its code, and what it can rely on. -/
structure Activity where
  segment : Segment
  act : Activation

namespace Activity

def call (a : Activity) : Call := ⟨Int64.ofNat a.act.fp, Int64.ofNat a.segment.start⟩

variable (t : ProgramTree) (types : TypeTable)

/-- An activity of a program, whose frame has room for its variables and is linked to the frames of the blocks
around. -/
structure Sound (a : Activity) : Prop where
  mem : a.segment ∈ t.segments
  code : a.act.code.toList = instrs t.code
  admits : a.act.admits = Datum.Narrow
  top : a.act.top = a.act.fp + 3 + types.total a.segment.info.vars
  frames : List.Forall₂ (Covered types a.act.writable) (a.act.fp :: a.act.outer) a.segment.levels

/-- An activity goes on at an address with given temporary words after the end of one that it called. -/
structure Awaits (c : Activity) (ds : List Datum) (back hops : Nat) (a : Activity) : Prop where
  opens : Opens c.act ds back (types.total a.segment.info.routine.params) hops a.act
  around : a.segment.around = c.segment.levels.drop hops
  start : c.segment.bodyStart ≤ back
  stop : back < c.segment.stop
  stack : ∃ S, List.Forall₂ (Slot.Holds c.act.writable (c.act.fp :: c.act.outer)) S ds ∧
    t.stackAt types True c.segment back = if a.segment.info.routine.result.isSome then .any :: S else S

/-- A state in which the activity runs: its local variables are not yet reserved, or it is among its
statements. -/
def RunsAt (a : Activity) (m : Machine) : Prop :=
  (∃ A : Activation, a.act = A.extend (types.total a.segment.info.vars) ∧ At A a.segment.start [] m ∧
    a.segment.bodyStart = a.segment.start + 1) ∨
  ∃ pc, a.segment.bodyStart ≤ pc ∧ pc < a.segment.stop ∧
    Shows a.act a.act.writable pc (t.stackAt types True a.segment pc) m

/-- At a place among the statements of an activity, the words on the stack are as the code expects them. -/
abbrev ShowsAt (a : Activity) (i : Nat) (m : Machine) : Prop :=
  Shows a.act a.act.writable (a.segment.bodyStart + i)
    (t.stackAt types True a.segment (a.segment.bodyStart + i)) m

/-- An activity starts another one with a call, and will go on at an address with given temporary words. The
arguments lie right below the frame, nothing below the frame changes, and the result is cleared. -/
structure Starts (c : Activity) (x : Instr) (m : Machine) (ds : List Datum) (back hops : Nat) (a : Activity)
    (m' : Machine) : Prop where
  sound : a.Sound t types
  awaits : c.Awaits t types ds back hops a
  runsAt : a.RunsAt t types m'
  call_eq : a.call = ⟨m'.fp, m'.pc⟩
  arg : x.arg = .integer (Int64.ofNat a.segment.start)
  sp : m.sp.toInt + 1 = a.act.fp
  below : ∀ w < a.act.fp, m'.mem[w]? = m.mem[w]?
  result : m'.mem[a.act.fp + 3]? = some (.integer 0)

variable {t types} {a : Activity} {m : Machine}

theorem Sound.getElem?_code (h : a.Sound t types) (pc : Nat) : a.act.code[pc]? = (instrs t.code)[pc]? := by
  rw [← h.code, Array.getElem?_toList]

theorem Sound.getElem?_statement (h : a.Sound t types) {i : Nat} {x : Instr}
    (hx : (a.segment.statements t.entries)[i]? = some x) : a.act.code[a.segment.bodyStart + i]? = some x := by
  rw [h.getElem?_code, ProgramTree.getElem?_statements h.mem (List.getElem?_eq_some_iff.mp hx).1, hx]

section

variable (hr : t.Runnable types) (h : a.Sound t types) {ds : List Datum} {A : Activation}

include hr h

theorem Sound.total_lt : types.total a.segment.info.routine.params < 2 ^ 31 ∧
    types.total a.segment.info.vars < 2 ^ 31 :=
  ((hr.laid _ h.mem).levels a.segment.level mem_cons_self).small trivial

theorem Sound.toInt_paramSize : a.segment.info.routine.paramSize.toInt = types.total a.segment.info.routine.params := by
  have hlaid := hr.laid _ h.mem
  have hplaced := (hlaid.levels a.segment.level mem_cons_self).routine
  show a.segment.level.routine.paramSize.toInt = _
  rw [hplaced.size]
  refine TypeTable.toInt_width (fun f hf => ?_) (Nat.lt_trans (h.total_lt hr).1 (by decide))
  exact Int.le_trans (by decide) (hlaid.sized f.type (hplaced.types f hf))

omit hr h in
theorem RunsAt.of_at (hat : At a.act a.segment.bodyStart [] m) : a.RunsAt t types m := by
  have hstop := a.segment.stop_eq t.entries
  refine .inr ⟨a.segment.bodyStart, Nat.le_refl _, by omega, [], hat, ?_⟩
  rw [ProgramTree.stackAt_start]
  exact .nil

/-- The local variables are reserved. -/
theorem Sound.step_enter (hA : a.act = A.extend (types.total a.segment.info.vars)) (hat : At A a.segment.start [] m)
    (hstart : a.segment.bodyStart = a.segment.start + 1) : ∃ x, m.fetch? = some x ∧ x.op = .enter ∧
      Goes .enter (fun m' => At a.act a.segment.bodyStart [] m' ∧ m'.mem = m.mem) m.step := by
  have hcode : A.code = a.act.code := by rw [hA]; rfl
  have hstop := a.segment.stop_eq t.entries
  have hx : A.code[a.segment.start]? = some (Opcode.enter.withInt a.segment.info.locals) := by
    rw [hcode, h.getElem?_code]
    rcases ProgramTree.address_cases h.mem (Nat.le_refl _) (by omega) with ⟨-, -, hx⟩ | ⟨i, -, heq, -⟩ | ⟨heq, -⟩
    · exact hx
    · omega
    · omega
  have hlocals := hr.typed.toInt_locals h.mem (hr.laid _ h.mem) (Nat.lt_trans (h.total_lt hr).2 (by decide))
  obtain ⟨hat', hstep⟩ := hat.step_eq hx (n := 0) rfl (Nat.zero_le _)
  refine ⟨Opcode.enter.withInt a.segment.info.locals, ?_, rfl, ?_⟩
  · rw [fetch?_eq hat.pc, hat.code]
    exact hx
  rw [hstep]
  have henter := hat'.enter hlocals (Nat.lt_trans (h.total_lt hr).2 (by decide))
  split at henter
  · refine .inl ⟨henter.1, ?_, mem_enter m.advance _⟩
    rw [hA, hstart]
    exact henter.2
  · exact .refused henter rfl

/-- A statement that does not call a subprogram leads to the next one, or to the target of a jump. -/
theorem Sound.step_statement {i : Nat} {x : Instr} (hshows : a.ShowsAt t types i m)
    (hx : (a.segment.statements t.entries)[i]? = some x) (hcall : x.op ≠ .call) :
    Goes x.op (fun m' => ∃ j ≤ (a.segment.statements t.entries).length,
      (j = i + 1 ∨ x.op.isJump = true ∧ x.arg = .integer (Int64.ofNat (a.segment.bodyStart + j))) ∧
      Shows.Leads a.act m (a.segment.bodyStart + j) (t.stackAt types True a.segment (a.segment.bodyStart + j)) m')
      m.step := by
  obtain ⟨hi, -⟩ := List.getElem?_eq_some_iff.mp hx
  have hlaid := hr.laid _ h.mem
  obtain ⟨hmeets, heffect⟩ := hr.typed.meets_statements h.mem hlaid hx
  have hcode := h.getElem?_statement hx
  have hnext {m' : Machine} (hm' : Shows.Leads a.act m (a.segment.bodyStart + i + 1)
      (x.effect (t.contextAt types True a.segment) t.signatures
        (t.stackAt types True a.segment (a.segment.bodyStart + i))) m') :
      ∃ j ≤ (a.segment.statements t.entries).length,
        (j = i + 1 ∨ x.op.isJump = true ∧ x.arg = .integer (Int64.ofNat (a.segment.bodyStart + j))) ∧
        Shows.Leads a.act m (a.segment.bodyStart + j)
          (t.stackAt types True a.segment (a.segment.bodyStart + j)) m' := by
    rw [← heffect] at hm'
    exact ⟨i + 1, hi, .inl rfl, hm'⟩
  by_cases hquiet : x.op.isQuiet = true
  · exact (hshows.step_quiet hcode hmeets trivial h.admits hlaid h.frames hquiet).mono fun m' hm' => hnext hm'
  by_cases hjump : x.op.isJump = true
  · obtain ⟨j, hj, harg, hsame⟩ := hr.typed.joins_statements h.mem hlaid hx hjump
    have hlength := (t.contiguous_segments.stop_le h.mem).2
    have hshort := hr.short
    have hstop := a.segment.stop_eq t.entries
    refine (hshows.step_jump hcode hmeets trivial hjump harg (by omega)).mono fun m' hm' => ?_
    rcases hm' with ⟨-, hm'⟩ | hm'
    · exact hnext hm'
    · rw [← heffect, ← hsame] at hm'
      exact ⟨j, hj, .inr ⟨hjump, harg⟩, hm'⟩
  by_cases hassign : x.op = .assign
  · exact (hshows.step_assign hcode hmeets trivial hassign).mono fun m' hm' => hnext hm'
  by_cases hcopy : x.op = .copy
  · exact (hshows.step_copy hcode hmeets trivial hcopy).mono fun m' hm' => hnext hm'
  -- the other instructions are no part of statements
  have hsafe := hmeets.safe trivial
  obtain ⟨op, level, arg⟩ := x
  cases op with
  | assign => exact absurd rfl hassign
  | copy => exact absurd rfl hcopy
  | call => exact absurd rfl hcall
  | jump => exact absurd rfl hjump
  | jneq => exact absurd rfl hjump
  | halt | calli | enter | ret | retf | jumpi | new | dispose | undefined _ => exact hsafe.elim
  | _ => exact absurd rfl hquiet

omit hr h in
/-- An activity starts: its local variables have to be reserved, unless there are none. -/
theorem RunsAt.start (hr : t.Runnable types) {g : Segment} (hg : g ∈ t.segments) (hat : At A g.start [] m) :
    RunsAt t types ⟨g, A.extend (types.total g.info.vars)⟩ m := by
  have hlaid := hr.laid g hg
  have hsmall := ((hlaid.levels g.level mem_cons_self).small trivial).2
  have hlocals := hr.typed.toInt_locals hg hlaid (Nat.lt_trans hsmall (by decide))
  by_cases hzero : g.info.locals = 0
  · have hnone : types.total g.info.vars = 0 := by
      rw [hzero, Word.toInt_zero] at hlocals
      omega
    have hstart : g.bodyStart = g.start := by simp [Segment.bodyStart, BlockInfo.entry, hzero]
    refine .of_at ?_
    rw [hnone]
    show At _ g.bodyStart [] m
    rw [hstart]
    exact hat.extend_zero
  · exact .inl ⟨A, rfl, hat, (ProgramTree.getElem?_entry hg hzero).2⟩

omit hr in
/-- The frames around a body are those of its caller from a number of blocks on, and its own. -/
theorem Sound.opened {g : Segment} (hg : g ∈ t.segments) {back hops : Nat}
    (hopens : Opens a.act ds back (types.total g.info.routine.params) hops A) (htop : A.top = A.fp + 3)
    (haround : g.around = a.segment.levels.drop hops) : Sound t types ⟨g, A.extend (types.total g.info.vars)⟩ where
  mem := hg
  code := by
    show A.code.toList = _
    rw [hopens.code]
    exact h.code
  admits := hopens.admits.trans h.admits
  top := by
    show A.top + types.total g.info.vars = A.fp + 3 + types.total g.info.vars
    rw [htop]
  frames := by
    have hextended := hopens.extend htop (types.total g.info.vars)
    show List.Forall₂ _ (A.fp :: A.outer) (g.level :: g.around)
    rw [hopens.outer, haround]
    refine .cons ⟨?_, fun w hupper hlower => ?_, fun w hlower hupper => ?_⟩ ?_
    · have := hopens.fp
      show types.total g.info.routine.params < A.fp
      omega
    · have := hopens.fp
      have hle : A.fp ≤ w + types.total g.info.routine.params := hlower
      exact hextended.arguments w (by omega) hupper
    · refine hextended.locals w hlower ?_
      show w ≤ A.top + types.total g.info.vars
      rw [htop]
      exact hupper
    · exact (List.forall₂_drop hops h.frames).imp fun f l hcovered => hcovered.mono hextended.wider

theorem Sound.step_call {i : Nat} {x : Instr} (hshows : a.ShowsAt t types i m)
    (hx : (a.segment.statements t.entries)[i]? = some x) (hop : x.op = .call) :
    Goes .call (fun m' => ∃ b ds hops, a.Starts t types x m ds (a.segment.bodyStart + i + 1) hops b m') m.step := by
  obtain ⟨hi, -⟩ := List.getElem?_eq_some_iff.mp hx
  have hstop := a.segment.stop_eq t.entries
  have hlength := (t.contiguous_segments.stop_le h.mem).2
  have hshort := hr.short
  have hlaid := hr.laid _ h.mem
  obtain ⟨hmeets, heffect⟩ := hr.typed.meets_statements h.mem hlaid hx
  have hcode := h.getElem?_statement hx
  obtain ⟨ds, hslots, -, hat, hstep⟩ := hshows.step_eq hcode hmeets trivial
  have henough := hmeets.enough
  have hsafe := hmeets.safe trivial
  obtain ⟨op, level, arg⟩ := x
  subst hop
  obtain ⟨k, r, hlevel, hk, hsig, hknown, -⟩ := hsafe
  obtain ⟨g, hg, rfl, rfl, haround⟩ := hr.typed.exists_called hsig hknown
  have hparams : g.info.routine.paramSize.toInt = types.total g.info.routine.params := hlaid.paramSize_eq hknown
  rw [Instr.consumes_call _ rfl hsig, hparams] at henough
  rw [Instr.effect_call _ _ rfl hsig, hparams, Int.toNat_natCast] at heffect
  have hframes : a.act.outer.length + 1 = (t.contextAt types True a.segment).levels.length := h.frames.length_eq
  have hcount := hslots.length_eq
  have hentry := (t.contiguous_segments.stop_le hg).2
  have hpos := g.size_pos
  unfold Segment.stop at hentry
  have hstart : (Int64.ofNat g.start).toInt = g.start := Word.toInt_ofNat (by omega)
  have htake : (ds.take (types.total g.info.routine.params)).length = types.total g.info.routine.params := by
    rw [length_take]
    omega
  -- the arguments are on top of the words that stay
  rw [← take_append_drop (types.total g.info.routine.params) ds] at hat
  have hcall := hat.call hlevel (by omega) hstart (fun _ => by rw [h.admits]; trivial) ?_
    (by rw [h.admits]; exact ⟨by decide, by decide⟩)
  · rw [hstep]
    split at hcall
    · obtain ⟨A, m', heq, hat', hopens, htop, hbelow, hresult⟩ := hcall
      rw [htake] at hopens
      have hexecute : m.advance.execute ⟨.call, level, .integer (Int64.ofNat g.start)⟩ = (.success, m') := heq
      rw [hexecute]
      refine .inl ⟨rfl, ⟨g, A.extend (types.total g.info.vars)⟩, _, k,
        h.opened hg hopens htop haround, ⟨hopens.extend htop _, haround, by omega, by omega, ?_⟩,
        .start hr hg hat', ?_, rfl, ?_, fun w hw => hbelow w ?_, hresult⟩
      · exact ⟨_, List.forall₂_drop _ hslots, heffect⟩
      · rw [hat'.fp_eq, hat'.pc_eq]
        rfl
      · have hsp := hat.sp
        rw [length_append, htake] at hsp
        show m.advance.sp.toInt + 1 = A.fp
        rw [hsp, hopens.fp]
        omega
      · have hfp := hopens.fp
        have hlt : w < A.fp := hw
        rw [length_append]
        omega
    · exact .refused hcall rfl
  · rw [h.admits]
    have := hat.pc
    show -2 ^ 48 ≤ _ ∧ _ < _
    omega

omit hr in
/-- The last instruction of a body is carried out with nothing on the stack. -/
theorem Sound.execute_leave (hat : At a.act (a.segment.bodyStart + (a.segment.statements t.entries).length) [] m) :
    ∃ pc, At a.act pc [] m.advance ∧
      m.step = m.advance.ret (.integer a.segment.info.routine.paramSize) a.segment.info.routine.result.isSome := by
  have hx : a.act.code[a.segment.bodyStart + (a.segment.statements t.entries).length]? = some a.segment.leave := by
    rw [h.getElem?_code]
    exact ProgramTree.getElem?_leave h.mem
  unfold Segment.leave at hx
  cases hresult : a.segment.info.routine.result.isSome with
  | true =>
    rw [hresult, if_pos rfl] at hx
    exact ⟨_, hat.step_eq hx (n := 0) rfl (Nat.zero_le _)⟩
  | false =>
    rw [hresult, if_neg Bool.false_ne_true] at hx
    exact ⟨_, hat.step_eq hx (n := 0) rfl (Nat.zero_le _)⟩

/-- The end of a body leads back to the activity that called it. A function leaves its result. -/
theorem Sound.step_leave {c : Activity} (hc : c.Sound t types) {back hops : Nat}
    (hawaits : c.Awaits t types ds back hops a)
    (hat : At a.act (a.segment.bodyStart + (a.segment.statements t.entries).length) [] m) :
    ∃ r m', m.step = (.success, m') ∧ m.mem[a.act.fp + 3]? = some r ∧
      At c.act back (if a.segment.info.routine.result.isSome then r :: ds else ds) m' ∧
      ∀ w ≤ c.act.top + ds.length, m'.mem[w]? = m.mem[w]? := by
  have hopens := hawaits.opens
  have hback : back < 2 ^ 62 := by
    have hstop := hawaits.stop
    have hle := (t.contiguous_segments.stop_le hc.mem).2
    have hshort := hr.short
    omega
  obtain ⟨pc, hat', hstep⟩ := h.execute_leave hat
  obtain ⟨r, m', hr', hafter, hmem, hret⟩ := hat'.ret hopens hback (h.toInt_paramSize hr)
    a.segment.info.routine.result.isSome
  have hroom : a.act.top + 0 < a.act.size := hat.room
  have hsize := hopens.size
  have htop := hopens.top
  have hfp := hopens.fp
  refine ⟨r, ?_⟩
  rw [hstep, hret]
  cases a.segment.info.routine.result.isSome with
  | true =>
    obtain ⟨m'', hpush, hpushed, hkept⟩ := hafter.push_kept (hafter.data _ r (hmem ▸ hr')) (by omega)
    exact ⟨m'', hpush, hr', hpushed, fun w hw => (hkept w hw).trans (congrArg (·[w]?) hmem)⟩
  | false => exact ⟨m', rfl, hr', hafter, fun w _ => congrArg (·[w]?) hmem⟩

omit hr in
/-- The end of the outermost body leads to the end of the program. -/
theorem Sound.step_leave_main (hbegins : Begins a.act) (hroutine : a.segment.info.routine = { id := t.main })
    (hat : At a.act (a.segment.bodyStart + (a.segment.statements t.entries).length) [] m) :
    ∃ m', m.step = (.success, m') ∧ m'.code.toList = instrs t.code ∧ m'.mem = m.mem ∧ m'.pc = 1 ∧ m'.fp = 1 ∧
      m'.sp = 0 := by
  obtain ⟨pc, hat', hstep⟩ := h.execute_leave hat
  obtain ⟨m', hret, hcode, hrest⟩ := hat'.ret_first hbegins
  rw [hroutine] at hstep
  refine ⟨m', hstep.trans hret, ?_, hrest⟩
  rw [hcode, hat'.code]
  exact h.code

omit hr h in
/-- A caller goes on with the words that it kept, and with the result of a function. -/
theorem Awaits.resume {c : Activity} {back hops : Nat} (h : c.Awaits t types ds back hops a) {r : Datum}
    (hat : At c.act back (if a.segment.info.routine.result.isSome then r :: ds else ds) m) : c.RunsAt t types m := by
  obtain ⟨S, hslots, hstack⟩ := h.stack
  refine .inr ⟨back, h.start, h.stop, _, hat, ?_⟩
  rw [hstack]
  cases a.segment.info.routine.result.isSome with
  | true => exact .cons trivial hslots
  | false => exact hslots

end

end Activity

end MiniPascal
