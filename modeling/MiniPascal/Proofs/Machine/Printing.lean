import MiniPascal.Machine.Run
import MiniPascal.Proofs.Machine.Action
import MiniPascal.Proofs.Machine.Trace

/-!
# What a run prints

The machine adds to its output and never looks at it. So a step from a state does what it does from the same state
without output, and what it adds is put behind the output that is there. Only two instructions add something: one
prints a value, the other ends a line and hands over what was collected.
-/

namespace MiniPascal

namespace Output

variable (o p q : Output) (t : Text)

/-- All bytes of an output, whether they were handed over or not. -/
def text : Text := o.chunks.toList.flatten ++ o.pending.toList

/-- An output with another one behind it. The first chunk that is handed over takes the pending bytes with it. -/
def extend : Output :=
  match p.chunks.toList with
  | [] => o.append p.pending.toList
  | chunk :: rest => { chunks := o.chunks ++ (o.pending.toList ++ chunk) :: rest, pending := p.pending }

variable {o p} in
theorem eq_of_toList (hchunks : o.chunks.toList = p.chunks.toList) (hpending : o.pending.toList = p.pending.toList) :
    o = p := by
  obtain ⟨chunks, pending⟩ := o
  obtain ⟨chunks', pending'⟩ := p
  obtain rfl : chunks = chunks' := Array.toList_inj.mp hchunks
  obtain rfl : pending = pending' := Array.toList_inj.mp hpending
  rfl

@[simp]
theorem extend_empty : o.extend {} = o := eq_of_toList rfl (by simp [extend, append])

theorem extend_assoc : (o.extend p).extend q = o.extend (p.extend q) := by
  cases hp : p.chunks.toList <;> cases hq : q.chunks.toList <;>
    refine eq_of_toList ?_ ?_ <;> simp [extend, append, hp, hq]

theorem text_extend : (o.extend p).text = o.text ++ p.text := by
  cases hp : p.chunks.toList <;> simp [extend, append, text, hp]

theorem append_eq_extend : o.append t = o.extend (Output.append {} t) := by
  refine eq_of_toList ?_ ?_ <;> simp [extend, append]

theorem endLine_eq_extend : (o.append Text.newline).flush = o.extend (Output.append {} Text.newline).flush := by
  have hempty (o : Output) : (o.append Text.newline).pending.isEmpty = false := by simp [append, Text.newline]
  unfold flush
  rw [hempty o, hempty {}]
  refine eq_of_toList ?_ ?_ <;> simp [extend, append]

end Output

def Status.Good (status : Status) : Prop := ∀ reason, status ≠ .stopped reason

namespace Machine

/-- The machine with another output, at which it never looks. -/
def onOut (m : Machine) (o : Output) : Machine := { m with out := o }

def Effect.onOut (e : Effect) (o : Output) : Effect := (e.1, e.2.onOut o)

/-! ### Instructions without output -/

variable {next : Datum → Machine → Effect}

section

variable (m : Machine) (o : Output)

theorem ite_onOut {c : Prop} [Decidable c] {e e' r r' : Effect} (h : e = r.onOut o) (h' : e' = r'.onOut o) :
    (if c then e else e') = (if c then r else r').onOut o := by
  split <;> assumption

theorem store_onOut (a : Int64) (d : Datum) : (m.onOut o).store a d = (m.store a d).onOut o := ite_onOut o rfl rfl

theorem push_onOut (d : Datum) : (m.onOut o).push d = (m.push d).onOut o :=
  ite_onOut o rfl (store_onOut { m with sp := m.sp + 1 } o _ d)

theorem update_onOut (a : Int64) (f : Datum → Except Fault Datum) :
    (m.onOut o).update a f = (m.update a f).onOut o := by
  have hread : (m.onOut o).read? a = m.read? a := rfl
  unfold update
  rw [hread]
  cases m.read? a with
  | none => rfl
  | some d => cases h : f d <;> simp only [h] <;> rfl

theorem pop_onOut (h : ∀ d m, next d (m.onOut o) = (next d m).onOut o) :
    (m.onOut o).pop next = (m.pop next).onOut o := by
  have hread : (m.onOut o).read? (m.onOut o).sp = m.read? m.sp := rfl
  unfold pop
  rw [hread]
  cases m.read? m.sp with
  | none => rfl
  | some d => exact h d { m with sp := m.sp - 1 }

theorem follow_onOut (hops : Nat) (frame : Int64) : (m.onOut o).follow hops frame = m.follow hops frame := by
  induction hops generalizing frame with
  | zero => rfl
  | succ hops ih =>
    have hread (a : Int64) : (m.onOut o).read? a = m.read? a := rfl
    have hvalid : (m.onOut o).valid frame 1 = m.valid frame 1 := rfl
    simp only [follow, hread, hvalid, ih]

theorem copyBlock_onOut (target source n sp : Int64) :
    (m.onOut o).copyBlock target source n sp = (m.copyBlock target source n sp).onOut o := by
  have hslice (a : Int64) : (m.onOut o).slice? a n = m.slice? a n := rfl
  unfold copyBlock
  rw [hslice, hslice]
  cases m.slice? target n <;> cases m.slice? source n <;> rfl

section

variable (arg : Datum)

theorem eval_onOut : (m.onOut o).eval arg = (m.eval arg).onOut o := by
  have hblock : (m.onOut o).blockAt arg (m.onOut o).sp = m.blockAt arg m.sp := rfl
  unfold eval
  rw [hblock]
  cases m.blockAt arg m.sp with
  | error reason => rfl
  | ok block => exact ite_onOut o rfl (copyBlock_onOut { m with sp := m.sp - 1 } o _ _ _ _)

theorem assign_onOut : (m.onOut o).assign arg = (m.assign arg).onOut o := by
  cases arg with
  | integer n =>
    refine ite_onOut o rfl (ite_onOut o rfl ?_)
    have hblock : (m.onOut o).blockAt (.integer n) ((m.onOut o).sp - n + 1 - 1) =
        m.blockAt (.integer n) (m.sp - n + 1 - 1) := rfl
    dsimp only
    rw [hblock]
    cases m.blockAt (.integer n) (m.sp - n + 1 - 1) with
    | error reason => rfl
    | ok block => exact copyBlock_onOut m o _ _ _ _
  | _ => rfl

theorem copy_onOut : (m.onOut o).copy arg = (m.copy arg).onOut o := by
  have hblock (a : Int64) : (m.onOut o).blockAt arg a = m.blockAt arg a := rfl
  have hsp : (m.onOut o).sp = m.sp := rfl
  unfold copy
  simp only [hblock, hsp]
  cases m.blockAt arg m.sp with
  | error reason => rfl
  | ok block =>
    cases m.blockAt arg (m.sp - 1) with
    | error reason => rfl
    | ok block => exact copyBlock_onOut m o _ _ _ _

theorem drop_onOut : (m.onOut o).drop arg = (m.drop arg).onOut o := by
  cases arg with
  | integer n => exact ite_onOut o rfl (ite_onOut o rfl rfl)
  | _ => rfl

theorem call_onOut (level : Int8) (entry : Int64) : (m.onOut o).call level entry = (m.call level entry).onOut o := by
  have hframe : (m.onOut o).frameAt level = m.frameAt level := follow_onOut m o _ _
  unfold call
  rw [hframe]
  cases m.frameAt level with
  | error reason => rfl
  | ok base =>
    have hwrite (m : Machine) (a : Int64) (d : Datum) : (m.onOut o).write a d = (m.write a d).onOut o := rfl
    refine ite_onOut o rfl (ite_onOut o rfl ?_)
    simp only [hwrite]
    rfl

theorem enter_onOut : (m.onOut o).enter arg = (m.enter arg).onOut o := by
  cases arg with
  | integer n => exact ite_onOut o rfl (ite_onOut o rfl rfl)
  | _ => rfl

theorem ret_onOut (function : Bool) : (m.onOut o).ret arg function = (m.ret arg function).onOut o := by
  have hread (a : Int64) : (m.onOut o).read? a = m.read? a := rfl
  cases arg with
  | integer n =>
    refine ite_onOut o rfl (ite_onOut o rfl ?_)
    have hfp : (m.onOut o).fp = m.fp := rfl
    simp only [hread, hfp]
    split
    · rfl
    · split
      · rfl
      · split
        · rfl
        · exact ite_onOut o rfl (ite_onOut o (push_onOut { m with sp := _, fp := _, pc := _ } o _) rfl)
      · rfl
    · rfl
  | _ => rfl

theorem jump_onOut (target : Datum) : (m.onOut o).jump target = (m.jump target).onOut o := by
  cases target <;> rfl

theorem allocate_onOut : (m.onOut o).allocate = m.allocate.onOut o := by
  have hread : (m.onOut o).read? (m.onOut o).sp = m.read? m.sp := rfl
  have hheap : (m.onOut o).heap = m.heap := rfl
  unfold allocate
  simp only [hread, hheap]
  split
  · rfl
  · split <;> rfl
  · rfl

theorem release_onOut (block : Datum) : (m.onOut o).release block = (m.release block).onOut o := by
  cases block with
  | address a =>
    have hheap : (m.onOut o).heap = m.heap := rfl
    unfold release
    simp only [hheap]
    split <;> rfl
  | _ => rfl

theorem checkLimit_onOut (exceeds : Int64 → Int64 → Bool) :
    (m.onOut o).checkLimit arg exceeds = (m.checkLimit arg exceeds).onOut o := by
  have hread : (m.onOut o).read? (m.onOut o).sp = m.read? m.sp := rfl
  unfold checkLimit
  rw [hread]
  cases m.read? m.sp with
  | none => rfl
  | some d =>
    dsimp only
    split
    · exact ite_onOut o rfl rfl
    · rfl

end

/-- The instructions that add nothing to the output leave it alone. -/
theorem execute_onOut {x : Instr} (hwrite : x.op ≠ .write) (hwriteln : x.op ≠ .writeln) :
    (m.onOut o).execute x = (m.execute x).onOut o := by
  have hframe : (m.onOut o).frameAt x.level = m.frameAt x.level := follow_onOut m o _ _
  have hread : (m.onOut o).read? (m.onOut o).sp = m.read? m.sp := rfl
  unfold execute
  cases hop : x.op with
  | halt | undefined => rfl
  | unary => exact update_onOut m o _ _
  | itor2 => exact update_onOut m o _ _
  | dup =>
    simp only [hread]
    split
    · exact push_onOut m o _
    · rfl
  | binary => exact pop_onOut m o fun d m => update_onOut m o _ _
  | push => exact push_onOut m o _
  | pushVar =>
    simp only [hframe]
    split
    · split
      · exact push_onOut m o _
      · rfl
    · rfl
  | eval => exact eval_onOut m o _
  | assign => exact assign_onOut m o _
  | copy => exact copy_onOut m o _
  | pop => exact drop_onOut m o _
  | call =>
    dsimp only
    split
    · exact call_onOut m o _ _
    · rfl
  | calli =>
    refine pop_onOut m o fun d m => ?_
    split
    · exact call_onOut m o _ _
    · rfl
  | enter => exact enter_onOut m o _
  | ret | retf => exact ret_onOut m o _ _
  | jump => exact jump_onOut m o _
  | jumpi => exact pop_onOut m o fun d m => jump_onOut m o d
  | jneq =>
    refine pop_onOut m o fun d m => ?_
    split
    · rfl
    · exact jump_onOut m o _
    · rfl
  | new => exact allocate_onOut m o
  | dispose => exact pop_onOut m o fun d m => release_onOut m o d
  | llimit | ulimit => exact checkLimit_onOut m o _ _
  | write => exact absurd hop hwrite
  | writeln => exact absurd hop hwriteln

end

/-! ### Steps -/

/-- The machine without its output. -/
def silent (m : Machine) : Machine := m.onOut {}

/-- A machine, with something about it, whose output is put behind another one. -/
def behind {α : Type} (o : Output) (r : α × Machine) : α × Machine := (r.1, r.2.onOut (o.extend r.2.out))

theorem behind_onOut (o : Output) (e : Effect) : behind o (e.onOut {}) = e.onOut o := by
  simp only [behind, Effect.onOut, onOut, Output.extend_empty]

section

variable (m : Machine) (o : Output)

theorem ite_behind {c : Prop} [Decidable c] {e e' r r' : Effect} (h : e = behind o r) (h' : e' = behind o r') :
    (if c then e else e') = behind o (if c then r else r') := by
  split <;> assumption

theorem refuse_behind (cause : Fault) : refuse cause (m.onOut o) = behind o (refuse cause m.silent) :=
  (behind_onOut o (refuse cause m)).symm

theorem pop_behind (h : ∀ d (m : Machine), next d (m.onOut o) = behind o (next d m.silent)) :
    (m.onOut o).pop next = behind o (m.silent.pop next) := by
  have hread (o : Output) : (m.onOut o).read? (m.onOut o).sp = m.read? m.sp := rfl
  unfold silent pop
  rw [hread, hread]
  cases m.read? m.sp with
  | none => exact (behind_onOut o (crash m)).symm
  | some d => exact h d { m with sp := m.sp - 1 }

theorem writeValue_behind (width : Int64) (places : Option Nat) (d : Datum) :
    (m.onOut o).writeValue width places d = behind o (m.silent.writeValue width places d) := by
  refine ite_behind o ?_ ?_
  · exact congrArg (fun out => crash (m.onOut out)) (o.append_eq_extend _)
  · exact congrArg (fun out => done (m.onOut out)) (o.append_eq_extend _)

/-- What becomes of a width that is taken off the stack: the value below it is written with it. -/
def writeWide (m : Machine) (places : Option Nat) : Datum → Effect
  | .integer width => m.pop fun d m => m.writeValue width places d
  | _ => refuse .badDataType m

theorem writeWide_behind (places : Option Nat) (d : Datum) :
    (m.onOut o).writeWide places d = behind o (m.silent.writeWide places d) := by
  unfold writeWide
  cases d with
  | integer width => exact pop_behind m o fun d m => writeValue_behind m o width places d
  | _ => exact refuse_behind m o _

theorem output_behind (level : Int8) : (m.onOut o).output level = behind o (m.silent.output level) := by
  refine ite_behind o (refuse_behind m o _) (ite_behind o (refuse_behind m o _) (ite_behind o ?_ (ite_behind o ?_ ?_)))
  · exact pop_behind m o fun d m => writeValue_behind m o 0 none d
  · exact pop_behind m o fun d m => writeWide_behind m o none d
  · refine pop_behind m o fun d m => ?_
    cases d with
    | integer places => exact pop_behind m o fun d m => writeWide_behind m o _ d
    | _ => exact refuse_behind m o _

theorem execute_behind (x : Instr) : (m.onOut o).execute x = behind o (m.silent.execute x) := by
  by_cases hwrite : x.op = .write
  · unfold execute
    rw [hwrite]
    exact output_behind m o x.level
  by_cases hwriteln : x.op = .writeln
  · unfold execute
    rw [hwriteln]
    exact congrArg (fun out => done (m.onOut out)) o.endLine_eq_extend
  · exact (execute_onOut m o hwrite hwriteln).trans ((behind_onOut o _).symm.trans
      (congrArg (behind o) (execute_onOut m {} hwrite hwriteln).symm))

theorem step_behind : m.step = behind m.out m.silent.step := by
  have hfetch : m.silent.fetch? = m.fetch? := rfl
  unfold step
  rw [hfetch]
  cases m.fetch? with
  | none => exact refuse_behind m m.out _
  | some x =>
    dsimp only
    cases x.op.pops with
    | none => exact refuse_behind { m with pc := m.pc + 1, steps := m.steps + 1 } m.out _
    | some n =>
      exact ite_behind m.out (refuse_behind { m with pc := m.pc + 1, steps := m.steps + 1 } m.out _)
        (execute_behind { m with pc := m.pc + 1, steps := m.steps + 1 } m.out x)

end

/-! ### The number of steps -/

theorem execute_steps (m : Machine) (x : Instr) : (m.execute x).2.steps = m.steps := by
  have hacts := execute_acts m x
  generalize m.execute x = e at hacts ⊢
  cases hacts <;> rfl

theorem step_steps {m : Machine} (h : m.fetch? ≠ none) : m.step.2.steps = m.steps + 1 := by
  unfold step
  cases hfetch : m.fetch? with
  | none => exact absurd hfetch h
  | some x =>
    dsimp only
    split
    · rfl
    split
    · rfl
    · exact execute_steps _ x

/-! ### What is printed -/

/-- A value as it is printed, with blanks in front up to a width. -/
def filled (width : Int64) (places : Option Nat) (d : Datum) : Text :=
  List.replicate (width - Int64.ofNat (outputText places d).length).toInt.toNat (Text.byte ' ') ++ outputText places d

/-- The value on the stack below its format arguments as it is printed. -/
def printedValue (m : Machine) (level : Int8) : Text :=
  if level = 0 then
    match m.read? m.sp with
    | some d => filled 0 none d
    | _ => []
  else if level = 1 then
    match m.read? m.sp, m.read? (m.sp - 1) with
    | some (.integer width), some d => filled width none d
    | _, _ => []
  else
    match m.read? m.sp, m.read? (m.sp - 1), m.read? (m.sp - 1 - 1) with
    | some (.integer places), some (.integer width), some d => filled width (some (placesOf places)) d
    | _, _, _ => []

/-- What the next instruction prints: a value, or the end of a line. -/
def printed (m : Machine) : Text :=
  match m.fetch? with
  | some x => if x.op = .write then m.printedValue x.level else if x.op = .writeln then Text.newline else []
  | none => []

def prints (m : Machine) : Nat → Text
  | 0 => []
  | n + 1 => m.prints n ++ (m.after n).printed

variable {m m' : Machine} {status : Status}

theorem writeValue_good {width : Int64} {places : Option Nat} {d : Datum}
    (h : m.writeValue width places d = (status, m')) (hgood : status.Good) :
    m'.out = m.out.append (filled width places d) := by
  unfold writeValue at h
  dsimp only at h
  split at h
  · cases h
    exact absurd rfl (hgood _)
  · cases h
    rfl

theorem pop_good (h : m.pop next = (status, m')) (hgood : status.Good) :
    ∃ d, m.read? m.sp = some d ∧ next d { m with sp := m.sp - 1 } = (status, m') := by
  unfold pop at h
  split at h
  · cases h
    exact absurd rfl (hgood _)
  · next d hd => exact ⟨d, hd, h⟩

theorem not_good_refuse {cause : Fault} (h : refuse cause m = (status, m')) : ¬ status.Good := by
  cases h
  exact fun hgood => hgood _ rfl

theorem output_good {level : Int8} (h : m.output level = (status, m')) (hgood : status.Good) :
    m'.out = m.out.append (m.printedValue level) := by
  unfold output at h
  unfold printedValue
  split at h
  · exact absurd hgood (not_good_refuse h)
  split at h
  · exact absurd hgood (not_good_refuse h)
  split at h
  · next hlevel =>
    obtain ⟨d, hd, h⟩ := pop_good h hgood
    rw [if_pos hlevel, hd]
    exact (writeValue_good h hgood :)
  split at h
  · next hzero hlevel =>
    obtain ⟨w, hw, h⟩ := pop_good h hgood
    split at h
    · obtain ⟨d, hd, h⟩ := pop_good h hgood
      rw [if_neg hzero, if_pos hlevel, hw, show m.read? (m.sp - 1) = some d from hd]
      exact (writeValue_good h hgood :)
    · exact absurd hgood (not_good_refuse h)
  · next hzero hone =>
    obtain ⟨p, hp, h⟩ := pop_good h hgood
    split at h
    · obtain ⟨w, hw, h⟩ := pop_good h hgood
      split at h
      · next width =>
        obtain ⟨d, hd, h⟩ := pop_good h hgood
        rw [if_neg hzero, if_neg hone, hp, show m.read? (m.sp - 1) = some (.integer width) from hw,
          show m.read? (m.sp - 1 - 1) = some d from hd]
        exact (writeValue_good h hgood :)
      · exact absurd hgood (not_good_refuse h)
    · exact absurd hgood (not_good_refuse h)

theorem text_append (o : Output) (t : Text) : (o.append t).text = o.text ++ t := by
  simp [Output.text, Output.append]

theorem fetch?_of_good (hgood : m.step.1.Good) : m.fetch? ≠ none := by
  intro hfetch
  unfold step at hgood
  rw [hfetch] at hgood
  exact hgood _ rfl

theorem text_step (hgood : m.step.1.Good) : m.step.2.out.text = m.out.text ++ m.printed := by
  generalize h : m.step = e at hgood ⊢
  obtain ⟨status, m'⟩ := e
  unfold step at h
  unfold printed
  cases hfetch : m.fetch? with
  | none =>
    rw [hfetch] at h
    exact absurd hgood (not_good_refuse h)
  | some x =>
    rw [hfetch] at h
    dsimp only at h ⊢
    split at h
    · exact absurd hgood (not_good_refuse h)
    split at h
    · exact absurd hgood (not_good_refuse h)
    split
    · next hop =>
      simp only [execute, hop] at h
      rw [← text_append]
      exact congrArg Output.text (output_good h hgood :)
    split
    · next hop =>
      simp only [execute, hop] at h
      cases h
      rw [Output.endLine_eq_extend, Output.text_extend]
      rfl
    · next hwrite hwriteln =>
      have hsame := execute_onOut { m with pc := m.pc + 1, steps := m.steps + 1 } m.out hwrite hwriteln
      rw [List.append_nil]
      exact congrArg (fun e : Effect => e.2.out.text) (h.symm.trans hsame)

end Machine

end MiniPascal
