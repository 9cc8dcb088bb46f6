import MiniPascal.Proofs.Machine.Memory
import MiniPascal.Proofs.Machine.Operation

/-!
# What an instruction does

Every outcome of an instruction is one of a few kinds of changes of the machine, named here with what was found before
the change. What a step leaves alone, and what a fault leaves, are read off from them.
-/

namespace MiniPascal

/-- The operations that make all their checks before their first change. -/
def Opcode.checksFirst : Opcode → Bool
  | .push | .pushVar | .dup | .eval | .assign | .copy | .pop | .call | .enter | .ret | .retf | .jump | .llimit
  | .ulimit => true
  | _ => false

def Opcode.isOperator : Opcode → Bool
  | .unary _ | .binary _ => true
  | _ => false

/-- The operations that do no more than to go on elsewhere or to move the top of the stack. -/
def Opcode.steers : Opcode → Bool
  | .halt | .pop | .enter | .jump | .jumpi | .jneq => true
  | _ => false

theorem Datum.within_word (d : Datum) : d.Within 63 fun _ => True := by
  cases d with
  | integer n => exact Word.fits_toInt n
  | _ => trivial

theorem UnaryOp.apply_ne_badFetch (op : UnaryOp) (d : Datum) (cause : Fault) (h : op.apply d = .error cause) :
    cause ≠ .badFetch := by
  rintro rfl
  rcases (op.apply_within (by decide) d.within_word).error h with herror | ⟨herror, -⟩ <;> cases herror

theorem BinaryOp.apply_ne_badFetch (op : BinaryOp) (a b : Datum) (cause : Fault) (h : op.apply a b = .error cause) :
    cause ≠ .badFetch := by
  have hmoves : Moves 63 (fun _ => True) fun _ => True := fun _ _ _ _ => ⟨trivial, trivial⟩
  rintro rfl
  rcases (op.apply_within (by decide) (by decide) hmoves a.within_word b.within_word).error h with herror | herror <;>
    cases herror

theorem Opcode.pops_le (op : Opcode) {k : Nat} (h : op.pops = some k) : k ≤ 2 := by
  cases op <;> simp only [pops, Option.some.injEq, reduceCtorEq] at h <;> omega

namespace Machine

/-- The word that an operation replaces, and the height of the stack after it. -/
def operand? (m : Machine) : Opcode → Option (Int64 × Int64)
  | .unary _ | .new => some (m.sp, m.sp)
  | .itor2 => some (m.sp - 1, m.sp)
  | .binary _ => some (m.sp - 1, m.sp - 1)
  | _ => none

def inFrame (m : Machine) (sp base entry : Int64) : Machine :=
  let fp := sp + 1
  let opened := (((m.write (fp + FrameSlot.base.offset) (.address base)).write (fp + FrameSlot.oldFrame.offset)
    (.address m.fp)).write (fp + FrameSlot.returnAddress.offset) (.integer m.pc)).write (fp + FrameSlot.result.offset)
    (.integer 0)
  { opened with sp := sp + FrameSlot.count, fp, pc := entry }

/-- The frame of the machine lies on its stack, and a number of words can be dropped below it. -/
structure Framed (m : Machine) (n : Int64) : Prop where
  fp : ¬m.fp < 1
  top : ¬m.fp + FrameSlot.result.offset > m.sp
  result : (m.read? (m.fp + FrameSlot.result.offset)).isSome = true
  count : ¬n < 0

/-- An instruction makes a machine into that of an effect. -/
inductive Acts (m : Machine) (x : Instr) : Effect → Prop
  | crash {pc fp sp : Int64} {out : Output} : Acts m x (crash { m with pc, fp, sp, out })
  | refuse {cause : Fault} {sp : Int64} (hcause : cause ≠ .badFetch) (hop : x.op.isOperator = false)
      (hsp : x.op.checksFirst = true → sp = m.sp) : Acts m x (refuse cause { m with sp })
  | overflow {n pc fp : Int64} (hop : x.op = .retf) (hframe : m.Framed n)
      (hfull : m.fp - 1 - n + 1 ≥ m.stackSize) :
      Acts m x (Machine.refuse .stackOverflow { m with pc, fp, sp := m.fp - 1 - n })
  | spoil {cause : Fault} {a sp : Int64} {d : Datum} (hcause : cause ≠ .badFetch)
      (hplace : m.operand? x.op = some (a, sp)) (hread : (m.read? a).isSome = true)
      (hd : x.op ≠ .new → d = .integer 0) : Acts m x (Machine.refuse cause ({ m with sp }.write a d))
  | steer {status : Status} {pc sp : Int64} (hop : x.op.steers = true) (hgood : ∀ reason, status ≠ .stopped reason) :
      Acts m x (status, { m with pc, sp })
  | check (hop : x.op = .llimit ∨ x.op = .ulimit) : Acts m x (done m)
  | push {d : Datum} (hop : x.op = .push ∨ x.op = .dup ∨ x.op = .pushVar) (hroom : ¬m.sp + 1 ≥ m.stackSize) :
      Acts m x (done ({ m with sp := m.sp + 1 }.write (m.sp + 1) d))
  | replace {a sp : Int64} {d : Datum} (hplace : m.operand? x.op = some (a, sp)) :
      Acts m x (done ({ m with sp }.write a d))
  | load {n : Int64} {t s : Nat} (hop : x.op = .eval) (harg : x.arg = .integer n) (hroom : ¬m.sp - 1 + n ≥ m.stackSize)
      (htarget : m.slice? m.sp n = some t) :
      Acts m x (done { m with mem := move m.mem t s n.toInt.toNat, sp := m.sp - 1 + n })
  | store {slot a n sp : Int64} {t s : Nat} (hop : x.op = .assign ∧ slot = m.sp - n ∨ x.op = .copy ∧ slot = m.sp - 1)
      (harg : x.arg = .integer n) (hread : m.read? slot = some (.address a)) (htarget : m.slice? a n = some t) :
      Acts m x (done { m with mem := move m.mem t s n.toInt.toNat, sp })
  | call {sp base entry : Int64} (hop : x.op = .call ∧ sp = m.sp ∨ x.op = .calli ∧ sp = m.sp - 1)
      (hroom : ¬sp + FrameSlot.count ≥ m.stackSize) : Acts m x (done (m.inFrame sp base entry))
  | ret {pc fp sp : Int64} (hop : x.op = .ret ∨ x.op = .retf) : Acts m x (done { m with pc, fp, sp })
  | retf {pc fp sp : Int64} {d : Datum} (hop : x.op = .retf) (hread : (m.read? sp).isSome = true) :
      Acts m x (done ({ m with pc, fp, sp }.write sp d))
  | allocate {a n : Int64} {heap : FreeStore} (hop : x.op = .new) (halloc : m.heap.alloc? n = some (a, heap)) :
      Acts m x (done { m.write m.sp (.address a) with heap })
  | release {a sp : Int64} {heap : FreeStore} (hop : x.op = .dispose) (hfree : m.heap.free? a = some heap) :
      Acts m x (done { m with sp, heap })
  | print {sp : Int64} {out : Output} (hop : x.op = .write ∨ x.op = .writeln) : Acts m x (done { m with sp, out })

variable {m : Machine} {x : Instr} {level : Int8} {s : Int64}

/-! ## Operations -/

theorem follow_ne_badFetch {hops : Nat} {frame : Int64} {cause : Fault}
    (h : m.follow hops frame = .error (.fault cause)) : cause ≠ .badFetch := by
  induction hops generalizing frame with
  | zero => cases h
  | succ hops ih =>
    unfold follow at h
    split at h
    · cases h
      decide
    · split at h
      · exact ih h
      · cases h
        decide
      · cases h

theorem blockAt_inv (m : Machine) (arg : Datum) (slot : Int64) :
    (∃ n a, arg = .integer n ∧ m.read? slot = some (.address a) ∧ m.blockAt arg slot = .ok (n, a)) ∨
      m.blockAt arg slot = .error .crash ∨ ∃ cause, cause ≠ .badFetch ∧ m.blockAt arg slot = .error (.fault cause) := by
  unfold blockAt
  split
  · next n =>
    split
    · exact .inr (.inr ⟨_, by decide, rfl⟩)
    · split
      · exact .inr (.inr ⟨_, by decide, rfl⟩)
      · split
        · next a hread =>
          split
          · exact .inl ⟨n, a, rfl, hread, rfl⟩
          · exact .inr (.inr ⟨_, by decide, rfl⟩)
        · exact .inr (.inr ⟨_, by decide, rfl⟩)
        · exact .inr (.inl rfl)
  · exact .inr (.inr ⟨_, by decide, rfl⟩)

namespace Acts

theorem checked {cause : Fault} (hop : x.op.isOperator = false) (hcause : cause ≠ .badFetch) :
    Acts m x (Machine.refuse cause m) := .refuse hcause hop fun _ => rfl

theorem stop {reason : Stop} {hops : Nat} {frame : Int64} (h : { m with sp := s }.follow hops frame = .error reason)
    (hop : x.op.isOperator = false) (hs : x.op.checksFirst = true → s = m.sp) :
    Acts m x (Machine.stop reason { m with sp := s }) := by
  cases reason with
  | crash => exact .crash
  | fault cause => exact .refuse (follow_ne_badFetch h) hop hs

theorem pushed (hop : x.op = .push ∨ x.op = .dup ∨ x.op = .pushVar) (d : Datum) : Acts m x (m.push d) := by
  unfold Machine.push
  split
  · exact .checked (by rcases hop with hop | hop | hop <;> rw [hop] <;> rfl) (by decide)
  · next hroom =>
    unfold Machine.store
    split
    · exact .push hop hroom
    · exact .crash

theorem update {a : Int64} {f : Datum → Except Fault Datum} (hplace : m.operand? x.op = some (a, s))
    (hf : ∀ d cause, f d = .error cause → cause ≠ .badFetch) : Acts m x (Machine.update { m with sp := s } a f) := by
  unfold Machine.update
  split
  · exact .crash
  · next hread =>
    split
    · exact .replace hplace
    · next hcause => exact .spoil (hf _ _ hcause) hplace (Option.isSome_of_eq_some hread) fun _ => rfl

theorem eval (arg : Datum) : Acts m ⟨.eval, level, arg⟩ (m.eval arg) := by
  unfold Machine.eval
  rcases m.blockAt_inv arg m.sp with ⟨n, a, harg, -, hblock⟩ | hblock | ⟨cause, hcause, hblock⟩ <;> rw [hblock]
  · dsimp only
    split
    · exact .checked rfl (by decide)
    · next hroom =>
      unfold copyBlock
      split
      · next htarget _ => exact .load rfl harg hroom htarget
      · exact .crash
  · exact .crash
  · exact .checked rfl hcause

theorem assign (arg : Datum) : Acts m ⟨.assign, level, arg⟩ (m.assign arg) := by
  unfold Machine.assign
  split
  · next n =>
    split
    · exact .checked rfl (by decide)
    · split
      · exact .checked rfl (by decide)
      · dsimp only
        rcases m.blockAt_inv (.integer n) (m.sp - n + 1 - 1) with
          ⟨_, a, -, hread, hblock⟩ | hblock | ⟨cause, hcause, hblock⟩ <;> rw [hblock]
        · rw [Int64.add_sub_cancel] at hread
          dsimp only
          unfold copyBlock
          split
          · next htarget _ => exact .store (.inl ⟨rfl, rfl⟩) rfl hread htarget
          · exact .crash
        · exact .crash
        · exact .checked rfl hcause
  · exact .checked rfl (by decide)

theorem copy (arg : Datum) : Acts m ⟨.copy, level, arg⟩ (m.copy arg) := by
  unfold Machine.copy
  rcases m.blockAt_inv arg m.sp with ⟨n, a, harg, -, hblock⟩ | hblock | ⟨cause, hcause, hblock⟩ <;> rw [hblock]
  · dsimp only
    rcases m.blockAt_inv arg (m.sp - 1) with ⟨_, b, -, hread, hblock⟩ | hblock | ⟨cause, hcause, hblock⟩ <;> rw [hblock]
    · dsimp only
      unfold copyBlock
      split
      · next htarget _ => exact .store (.inr ⟨rfl, rfl⟩) harg hread htarget
      · exact .crash
    · exact .crash
    · exact .checked rfl hcause
  · exact .crash
  · exact .checked rfl hcause

theorem drop (arg : Datum) : Acts m ⟨.pop, level, arg⟩ (m.drop arg) := by
  unfold Machine.drop
  split
  · split
    · exact .checked rfl (by decide)
    · split
      · exact .checked rfl (by decide)
      · exact .steer rfl nofun
  · exact .checked rfl (by decide)

theorem enter (arg : Datum) : Acts m ⟨.enter, level, arg⟩ (m.enter arg) := by
  unfold Machine.enter
  split
  · split
    · exact .checked rfl (by decide)
    · split
      · exact .checked rfl (by decide)
      · exact .steer rfl nofun
  · exact .checked rfl (by decide)

theorem called (hop : x.op = .call ∧ s = m.sp ∨ x.op = .calli ∧ s = m.sp - 1) (entry : Int64) :
    Acts m x (Machine.call { m with sp := s } level entry) := by
  have hplain : x.op.isOperator = false := by rcases hop with ⟨hop, -⟩ | ⟨hop, -⟩ <;> rw [hop] <;> rfl
  have hs : x.op.checksFirst = true → s = m.sp := by
    rcases hop with ⟨-, hs⟩ | ⟨hop, -⟩
    · exact fun _ => hs
    · rw [hop]
      nofun
  unfold Machine.call
  split
  · next hframe => exact .stop hframe hplain hs
  · split
    · exact .refuse (by decide) hplain hs
    · next hroom =>
      dsimp only
      split
      · exact .crash
      · exact .call hop hroom

theorem returned {b : Bool} (hop : x.op = if b then .retf else .ret) (arg : Datum) : Acts m x (m.ret arg b) := by
  have hplain : x.op.isOperator = false := by cases b <;> rw [hop] <;> rfl
  unfold Machine.ret
  split
  · split
    · exact .checked hplain (by decide)
    · next hn =>
      dsimp only
      split
      · exact .checked hplain (by decide)
      · next hframe =>
        simp only [Bool.or_eq_true, decide_eq_true_eq, not_or] at hframe
        split
        · exact .crash
        · split
          · exact .crash
          · split
            · exact .crash
            · next hresult =>
              have hframed : m.Framed _ := ⟨hframe.1, hframe.2, Option.isSome_of_eq_some hresult, hn⟩
              split
              · exact .checked hplain (by decide)
              · cases b with
                | false => exact .ret (.inl hop)
                | true =>
                  rw [if_pos rfl]
                  unfold Machine.push
                  split
                  · next hfull => exact .overflow hop hframed hfull
                  · unfold Machine.store
                    split
                    · next hread => exact .retf hop hread
                    · exact .crash
          · exact .checked hplain (by decide)
        · exact .checked hplain (by decide)
  · exact .checked hplain (by decide)

theorem jump (hop : x.op.isOperator = false) (hsteers : x.op.steers = true) (hs : x.op.checksFirst = true → s = m.sp) (target : Datum) :
    Acts m x (Machine.jump { m with sp := s } target) := by
  cases target with
  | integer a => exact .steer hsteers nofun
  | _ => exact .refuse (by decide) hop hs

variable {arg : Datum}

theorem allocated : Acts m ⟨.new, level, arg⟩ m.allocate := by
  unfold Machine.allocate
  split
  · exact .crash
  · next hread =>
    split
    · next halloc => exact .allocate rfl halloc
    · exact .spoil (by decide) rfl (Option.isSome_of_eq_some hread) fun h => absurd rfl h
  · exact .checked rfl (by decide)

theorem released (block : Datum) : Acts m ⟨.dispose, level, arg⟩ (Machine.release { m with sp := s } block) := by
  unfold Machine.release
  split
  · split
    · next hfree => exact .release rfl hfree
    · exact .refuse (by decide) rfl nofun
  · exact .refuse (by decide) rfl nofun

theorem checkLimit (hop : x.op = .llimit ∨ x.op = .ulimit) (arg : Datum) (exceeds : Int64 → Int64 → Bool) :
    Acts m x (m.checkLimit arg exceeds) := by
  have hplain : x.op.isOperator = false := by rcases hop with hop | hop <;> rw [hop] <;> rfl
  unfold Machine.checkLimit
  split
  · exact .crash
  · split
    · split
      · exact .checked hplain (by decide)
      · exact .check hop
    · exact .checked hplain (by decide)

theorem pop {next : Datum → Machine → Effect} (h : ∀ d, Acts m x (next d { m with sp := s - 1 })) :
    Acts m x (Machine.pop { m with sp := s } next) := by
  unfold Machine.pop
  split
  · exact .crash
  · exact h _

theorem writeValue (width : Int64) (places : Option Nat) (d : Datum) :
    Acts m ⟨.write, level, arg⟩ (Machine.writeValue { m with sp := s } width places d) := by
  unfold Machine.writeValue
  dsimp only
  split
  · exact .crash
  · exact .print (.inl rfl)

theorem writeWide (places : Option Nat) (w : Datum) (s : Int64) : Acts m ⟨.write, level, arg⟩ (match w with
    | .integer width => Machine.pop { m with sp := s } fun d m => m.writeValue width places d
    | _ => Machine.refuse .badDataType { m with sp := s }) := by
  split
  · exact .pop fun d => .writeValue _ _ d
  · exact .refuse (by decide) rfl (absurd · Bool.false_ne_true)

theorem output : Acts m ⟨.write, level, arg⟩ (m.output level) := by
  unfold Machine.output
  split
  · exact .checked rfl (by decide)
  · split
    · exact .checked rfl (by decide)
    · split
      · exact .pop (s := m.sp) fun d => .writeValue _ _ d
      · split
        · exact .pop (s := m.sp) fun w => .writeWide none w _
        · refine .pop (s := m.sp) fun p => ?_
          split
          · exact .pop fun w => .writeWide _ w _
          · exact .refuse (by decide) rfl (absurd · Bool.false_ne_true)

end Acts

/-! ## Instructions -/

/-- Whatever an instruction is and whatever the machine is, the effect is one of the kinds of changes. -/
theorem execute_acts (m : Machine) (x : Instr) : Acts m x (m.execute x) := by
  obtain ⟨op, level, arg⟩ := x
  unfold execute
  cases op with
  | halt => exact .steer rfl nofun
  | unary op => exact .update (s := m.sp) rfl op.apply_ne_badFetch
  | itor2 => exact .update (s := m.sp) rfl UnaryOp.itor.apply_ne_badFetch
  | binary op => exact .pop (s := m.sp) fun b => .update rfl fun a => op.apply_ne_badFetch a b
  | dup =>
    dsimp only
    split
    · exact .pushed (.inr (.inl rfl)) _
    · exact .crash
  | push => exact .pushed (.inl rfl) _
  | pushVar =>
    dsimp only
    split
    · split
      · exact .pushed (.inr (.inr rfl)) _
      · next hframe => exact .stop (s := m.sp) hframe rfl fun _ => rfl
    · exact .checked rfl (by decide)
  | eval => exact .eval _
  | assign => exact .assign _
  | copy => exact .copy _
  | pop => exact .drop _
  | call =>
    dsimp only
    split
    · exact .called (s := m.sp) (.inl ⟨rfl, rfl⟩) _
    · exact .checked rfl (by decide)
  | calli =>
    refine .pop (s := m.sp) fun d => ?_
    split
    · exact .called (.inr ⟨rfl, rfl⟩) _
    · exact .refuse (by decide) rfl nofun
  | enter => exact .enter _
  | ret => exact .returned (b := false) rfl _
  | retf => exact .returned (b := true) rfl _
  | jump => exact .jump (s := m.sp) rfl rfl (fun _ => rfl) _
  | jumpi => exact .pop (s := m.sp) fun d => .jump rfl rfl (by nofun) d
  | jneq =>
    refine .pop (s := m.sp) fun d => ?_
    split
    · exact .steer rfl nofun
    · exact .jump rfl rfl (by nofun) _
    · exact .refuse (by decide) rfl nofun
  | new => exact .allocated
  | dispose => exact .pop (s := m.sp) fun d => .released d
  | llimit => exact .checkLimit (.inl rfl) _ _
  | ulimit => exact .checkLimit (.inr rfl) _ _
  | write => exact .output
  | writeln => exact .print (.inr rfl)
  | undefined number => exact .checked rfl (by decide)

/-! ## Steps -/

/-- The machine with the address moved on. -/
def advance (m : Machine) : Machine := { m with pc := m.pc + 1, steps := m.steps + 1 }

theorem fetch?_eq {pc : Nat} (hpc : m.pc.toInt = pc) : m.fetch? = m.code[pc]? := by
  unfold fetch?
  rw [if_pos (Int64.le_iff_toInt_le.mpr (by rw [hpc]; exact Int.natCast_nonneg pc)), hpc]
  rfl

/-- An instruction whose operands are there is carried out with the address moved on. -/
theorem step_eq_execute {n : Nat} (hfetch : m.fetch? = some x)
    (hn : x.op.pops = some n) (hle : n ≤ m.sp.toInt) : m.step = m.advance.execute x := by
  have hlt := m.sp.toInt_lt
  unfold step
  rw [hfetch]
  dsimp only
  rw [hn]
  dsimp only
  rw [if_neg]
  · rfl
  · rw [Int64.lt_iff_toInt_lt, Word.toInt_ofNat (by omega)]
    omega

theorem step_eq_underflow {k : Nat} (hfetch : m.fetch? = some x) (hk : x.op.pops = some k)
    (hlt : m.sp.toInt < k) : m.step = refuse .stackUnderflow m.advance := by
  have hle := x.op.pops_le hk
  unfold step
  rw [hfetch]
  dsimp only
  rw [hk]
  dsimp only
  rw [if_pos (by rw [Int64.lt_iff_toInt_lt, Word.toInt_ofNat (by omega)]; exact hlt)]
  rfl

/-- A step finds no instruction, or it refuses the one that it finds, or it carries it out. -/
theorem step_cases (m : Machine) : m.step = refuse .badFetch m ∨ (∃ cause, m.step = refuse cause m.advance) ∨
      ∃ x k, m.fetch? = some x ∧ x.op.pops = some k ∧ k ≤ m.sp.toInt ∧ m.step = m.advance.execute x := by
  cases hfetch : m.fetch? with
  | none =>
    left
    unfold step
    rw [hfetch]
  | some x =>
    right
    cases hpops : x.op.pops with
    | none =>
      left
      unfold step
      rw [hfetch]
      dsimp only
      rw [hpops]
      exact ⟨_, rfl⟩
    | some k =>
      by_cases hsp : k ≤ m.sp.toInt
      · exact .inr ⟨x, k, rfl, hpops, hsp, step_eq_execute hfetch hpops hsp⟩
      · exact .inl ⟨_, step_eq_underflow hfetch hpops (by omega)⟩

end Machine

end MiniPascal
