import MiniPascal.Proofs.FrameCondition
import MiniPascal.Proofs.Run.Program
import MiniPascal.Proofs.Tree.Sites
import MiniPascal.Proofs.Types.Extent

/-!
# The layout of frames

A caller puts the words of its arguments on the stack, and the subprogram finds them below its frame as its parameters.
Both count them by the sizes of the types: the parameters lie side by side up to the frame, the code of the arguments
leaves as many words as the parameters have, and the return takes them off again.
-/

namespace MiniPascal

open List Word Opcode

namespace Machine

variable {m m' : Machine} {x : Instr}

/-! ## Code of expressions -/

theorem execute_of_step (hx : m.fetch? = some x) (h : m.step = (.success, m')) :
    ∃ k, x.op.pops = some k ∧ k ≤ m.sp.toInt ∧ m.advance.execute x = (.success, m') := by
  have hlt := m.sp.toInt_lt
  cases hk : x.op.pops with
  | none =>
    unfold step at h
    rw [hx] at h
    dsimp only at h
    rw [hk] at h
    cases h
  | some k =>
    by_cases hle : k ≤ m.sp.toInt
    · exact ⟨k, rfl, hle, (step_eq_execute hx hk hle).symm.trans h⟩
    · rw [step_eq_underflow hx hk (by omega)] at h
      cases h

section

variable (hstack : m.stackSize.toInt + 4 ≤ 2 ^ 63) (hlt : m.sp.toInt < m.stackSize.toInt)

include hstack hlt

/-- An instruction of an expression that calls nothing leaves the words below those that it consumes. -/
theorem kept_of_step (hop : x.op.inExpression = true) (hcall : x.op ≠ .call) (hx : m.fetch? = some x)
    (h : m.step = (.success, m')) (sig : Signatures) {i : Nat} (hi : i ≤ m.sp.toInt - x.consumes sig) :
    m'.mem[i]? = m.mem[i]? := by
  obtain ⟨k, hk, hle, hexecute⟩ := execute_of_step hx h
  have hacts : Acts m.advance x (.success, m') := hexecute ▸ execute_acts m.advance x
  have hconsumes : x.consumes sig = k := by
    obtain ⟨op, level, arg⟩ := x
    cases op <;> cases hop <;> cases hk <;> first | rfl | exact absurd rfl hcall
  rw [hconsumes] at hi
  refine (hacts.leaves hstack hlt hk hle nofun).mem i fun htouched => ?_
  obtain ⟨op, level, arg⟩ := x
  cases op <;> cases hop <;> cases hk <;> exact Int.not_lt.mpr hi htouched.1

/-- A call opens a frame right above the stack and leaves the words of the stack. -/
theorem call_of_step (hop : x.op = .call) (hx : m.fetch? = some x) (h : m.step = (.success, m')) :
    m'.fp.toInt = m.sp.toInt + 1 ∧ ∀ i : Nat, i ≤ m.sp.toInt → m'.mem[i]? = m.mem[i]? := by
  obtain ⟨k, hk, hle, hexecute⟩ := execute_of_step hx h
  have hacts : Acts m.advance x (.success, m') := hexecute ▸ execute_acts m.advance x
  cases hacts with
  | @call sp base entry hcalls hroom =>
    obtain rfl : sp = m.sp := by
      rcases hcalls with ⟨-, hsp⟩ | ⟨hcalli, -⟩
      · exact hsp
      · rw [hop] at hcalli
        cases hcalli
    rw [hop] at hk
    cases hk
    have hroom : (m.sp + FrameSlot.count).toInt < m.stackSize.toInt := Int64.lt_iff_toInt_lt.mp (Int64.not_le.mp hroom)
    rw [add_eq rfl (show FrameSlot.count.toInt = 4 from rfl) (by omega)] at hroom
    refine ⟨?_, fun i hi => mem_inFrame (m := m.advance) hle (by omega) (.inl hi)⟩
    unfold inFrame
    exact add_one (by omega)
  | _ => simp_all [operand?, steers]

end

/-- An instruction of an expression is carried out, a call together with all that is done until the subprogram that it
calls has come back. -/
inductive Does (m : Machine) (x : Instr) (m' : Machine) : Prop
  | step (hop : x.op ≠ .call) (hstep : m.step = (.success, m'))
  | call {m₁ m₂ : Machine} {during : List Machine} {y : Instr} (hop : x.op = .call) (hstep : m.step = (.success, m₁))
      (hduring : Runs m₁ during m₂ []) (hy : m₂.fetch? = some y) (hret : y.op = .ret ∨ y.op = .retf)
      (hback : m₂.step = (.success, m'))

/-- A machine carries out the code of an expression. -/
def Evaluates : List Instr → Machine → Machine → Prop
  | [], m, m' => m' = m
  | x :: code, m, m'' => ∃ m', m.fetch? = some x ∧ m.Does x m' ∧ Evaluates code m' m''

theorem evaluates_append {a b : List Instr} {m'' : Machine} :
    Evaluates (a ++ b) m m'' ↔ ∃ m', Evaluates a m m' ∧ Evaluates b m' m'' := by
  induction a generalizing m with
  | nil => simp [Evaluates]
  | cons x rest ih => simp only [cons_append, Evaluates, ih]; grind

/-- An argument that is on the stack after its code is, once the call was made, where the subprogram has its parameter. -/
structure HandedOver (types : TypeTable) (f : Field) (before after called : Machine) : Prop where
  words : after.sp.toInt = before.sp.toInt + (types.size f.type).toInt
  place : ∀ j a : Nat, j < (types.size f.type).toInt → (a : Int) = called.fp.toInt + f.offset.toInt + j →
    (a : Int) = before.sp.toInt + 1 + j ∧ called.mem[a]? = after.mem[a]?

/-- However the code of some arguments is carried out from a state on, the call after it finds them where the subprogram
has its parameters. -/
def HandsOver (start : Machine) (types : TypeTable) (pieces : List (List Instr)) (r : Routine) (x : Instr) : Prop :=
  ∀ m called : Machine, Evaluates pieces.flatten start m → m.fetch? = some x → m.step = (.success, called) →
    m.sp.toInt = start.sp.toInt + r.paramSize.toInt ∧ called.fp.toInt = m.sp.toInt + 1 ∧
      ∀ (k : Nat) (piece : List Instr) (f : Field), pieces[k]? = some piece → r.params[k]? = some f →
        ∃ before after, Evaluates (pieces.take k).flatten start before ∧ Evaluates piece before after ∧
          Evaluates (pieces.drop (k + 1)).flatten after m ∧ HandedOver types f before after called

end Machine

/-! ## Expressions of an activity -/

namespace Activity

open Machine

variable {t : ProgramTree} {types : TypeTable} {a : Activity} {rest : List Activity} {m m' : Machine} {x : Instr}

theorem Live.room (h : Live t types (a :: rest) m) : m.stackSize.toInt + 4 ≤ 2 ^ 63 ∧ m.sp.toInt < m.stackSize.toInt := by
  obtain ⟨A, pc, ds, hat, -⟩ := h.2.2.exists_at
  have hsize := A.size_le
  have hroom := hat.room
  rw [hat.stackSize, hat.sp]
  omega

/-- An activity takes words off its stack and puts others in their place. Its temporary words below them stay as they
are. -/
structure Exchanges (t : ProgramTree) (types : TypeTable) (a : Activity) (rest : List Activity) (m : Machine)
    (taken put : Int) (m' : Machine) : Prop where
  live : Live t types (a :: rest) m'
  sp : m'.sp.toInt = m.sp.toInt - taken + put
  below : ∀ i : Nat, a.act.top < i → i ≤ m.sp.toInt - taken → m'.mem[i]? = m.mem[i]?

theorem Exchanges.refl (h : Live t types (a :: rest) m) : Exchanges t types a rest m 0 0 m :=
  ⟨h, by omega, fun _ _ _ => rfl⟩

variable (hr : t.Runnable types)

include hr

/-- At the code of an expression the local variables are reserved. -/
theorem Live.top_le (h : Live t types (a :: rest) m) (hx : m.fetch? = some x) (hop : x.op.inExpression = true) :
    a.act.top ≤ m.sp.toInt := by
  have hne {o : Opcode} (ho : o.inExpression = false) : x.op ≠ o := by
    rintro rfl
    rw [ho] at hop
    cases hop
  obtain ⟨i, -, ds, hat, -⟩ := h.exists_statement hr hx ⟨hne rfl, hne rfl, hne rfl⟩
  rw [hat.sp]
  omega

theorem Live.exchanges_step (h : Live t types (a :: rest) m) (hop : x.op.inExpression = true) (hcall : x.op ≠ .call)
    (hx : m.fetch? = some x) (hstep : m.step = (.success, m')) :
    Exchanges t types a rest m (x.consumes t.signatures) (x.produces t.signatures) m' := by
  have ha := h.1 a mem_cons_self
  have hne {o : Opcode} (ho : o.inExpression = false) : x.op ≠ o := by
    rintro rfl
    rw [ho] at hop
    cases hop
  have hruns : Runs m [m] m' [] := .snoc .nil (.other hx ⟨hcall, hne rfl⟩ ⟨hne rfl, hne rfl⟩ hstep)
  obtain ⟨inner, hlive, hinner, -⟩ := h.runs hr hruns
  obtain rfl : inner = [] := map_eq_nil_iff.mp hinner.symm
  obtain ⟨i, hi, hshows⟩ := h.exists_statement hr hx ⟨hne rfl, hne rfl, hne rfl⟩
  obtain ⟨hmeets, heffect⟩ := hr.typed.meets_statements ha.mem (hr.laid _ ha.mem) hi
  have hgoes := ha.step_statement hr hshows hi hcall
  rw [hstep] at hgoes
  obtain ⟨j, -, hj, ⟨ds', hat', hslots'⟩, -⟩ := hgoes.success
  obtain rfl : j = i + 1 := hj.resolve_right fun hjump => by
    have := hjump.1
    revert this hop
    cases x.op <;> simp [isJump, inExpression, isInline]
  obtain ⟨ds, hat, hslots⟩ := hshows
  refine ⟨hlive, ?_, fun k _ hk => kept_of_step h.room.1 h.room.2 hop hcall hx hstep t.signatures hk⟩
  have hlength := hmeets.length_effect
  rw [← heffect, hslots.length_eq] at hlength
  have hlength' := hslots'.length_eq
  rw [← Nat.add_assoc] at hlength'
  rw [hat.sp, hat'.sp]
  omega

/-- A subprogram that has come back leaves the temporary words of its caller, because only variables are assigned. -/
theorem Live.exchanges_call (h : Live t types (a :: rest) m) (hx : m.fetch? = some x) (hop : x.op = .call)
    {m₁ m₂ : Machine} (hstep : m.step = (.success, m₁)) {during : List Machine} (hduring : Runs m₁ during m₂ [])
    {y : Instr} (hy : m₂.fetch? = some y) (hret : y.op = .ret ∨ y.op = .retf) (hback : m₂.step = (.success, m')) :
    Exchanges t types a rest m (x.consumes t.signatures) (x.produces t.signatures) m' := by
  have ha := h.1 a mem_cons_self
  obtain ⟨pc, ds₀, b, ds, hops, hat, hstarts, -, hend⟩ := h.called hr hx hop hstep hduring hy hret
  obtain ⟨r, m₃, hstep₃, -, hafter, -⟩ := hstarts.sound.step_leave hr ha hstarts.awaits hend
  obtain rfl : m₃ = m' := congrArg Prod.snd (hstep₃.symm.trans hback)
  have hopens := hstarts.awaits.opens
  have hfp := hopens.fp
  have hsp := hstarts.sp
  have hparams := hstarts.sound.toInt_paramSize hr
  have hsig : t.signatures x.arg = some b.segment.info.routine := by
    rw [hstarts.arg]
    exact ProgramTree.signatures_start (Nat.lt_of_le_of_lt hr.short (by decide)) hstarts.sound.mem
  obtain ⟨A, _, _, _, -, -, -, hfixed⟩ := hstarts.runsAt.exists_at
  have hstacked := (hopens.kept m₁.mem hfixed).2.1
  rw [Instr.consumes_call _ hop hsig]
  refine ⟨⟨h.1, h.2.1, hstarts.awaits.resume hafter⟩, ?_, fun i hlt hle => ?_⟩
  · rw [hafter.sp]
    simp only [Instr.produces, hop, hsig]
    cases b.segment.info.routine.result.isSome <;> simp <;> omega
  · have hstacked' : Stacked m₃.mem a.act.top ds := by
      have := hafter.temporary
      cases hresult : b.segment.info.routine.result.isSome <;> rw [hresult] at this
      · exact this
      · exact this.2
    rw [hstacked.getElem?_eq hstacked' hlt (by omega), hstarts.below i (by omega)]

/-- The code of an expression exchanges words as it is known of the stack. -/
theorem Live.exchanges {C : Context} {code : List Instr} (h : Live t types (a :: rest) m) (heval : Evaluates code m m')
    (hops : AllOps inExpression code) {S S' : List Slot} (hturns : Turns C t.signatures S code S') :
    Exchanges t types a rest m S.length S'.length m' := by
  induction code generalizing m S with
  | nil =>
    obtain rfl : m' = m := heval
    obtain rfl : S = S' := hturns.scan_eq
    exact ⟨h, by omega, fun _ _ _ => rfl⟩
  | cons x code ih =>
    obtain ⟨m₁, hx, hdoes, heval⟩ := heval
    obtain ⟨⟨hmeets, hserved⟩, hscan⟩ := hturns
    obtain ⟨hop, hrest⟩ := AllOps.cons_iff.mp hops
    have henough := hmeets.enough
    have hlength := hmeets.length_effect
    obtain ⟨hlive, hsp, hbelow⟩ : Exchanges t types a rest m (x.consumes t.signatures) (x.produces t.signatures) m₁ := by
      cases hdoes with
      | step hcall hstep => exact h.exchanges_step hr hop hcall hx hstep
      | call hcall hstep hduring hy hret hback => exact h.exchanges_call hr hx hcall hstep hduring hy hret hback
    obtain ⟨hlive', hsp', hbelow'⟩ := ih hlive heval hrest ⟨hserved, hscan⟩
    exact ⟨hlive', by omega, fun i hlt hi => (hbelow' i hlt (by omega)).trans (hbelow i hlt (by omega))⟩

/-- Arguments leave the words of their parameters. -/
theorem Live.exchanges_pieces {C : Context} {pieces : List (List Instr)} {params : List Field}
    (hpieces : List.Forall₂ (fun piece f => ∃ vs : List Slot, vs.length = types.words f.type ∧
      Turns C t.signatures [] piece vs) pieces params) (hops : ∀ piece ∈ pieces, AllOps inExpression piece)
    (h : Live t types (a :: rest) m) (heval : Evaluates pieces.flatten m m') :
    Exchanges t types a rest m 0 (types.total params) m' := by
  induction hpieces generalizing m with
  | nil =>
    obtain rfl : m' = m := heval
    exact .refl h
  | @cons _ _ _ _ hpiece _ ih =>
    obtain ⟨vs, hlength, hturns⟩ := hpiece
    obtain ⟨hop, hrest⟩ := forall_mem_cons.mp hops
    obtain ⟨m₁, hfirst, hothers⟩ := evaluates_append.mp heval
    obtain ⟨hlive, hsp, hbelow⟩ := h.exchanges hr hfirst hop hturns
    obtain ⟨hlive', hsp', hbelow'⟩ := ih hrest hlive hothers
    rw [TypeTable.total_cons]
    rw [length_nil] at hsp hbelow
    exact ⟨hlive', by omega, fun i hlt hi => (hbelow' i hlt (by omega)).trans (hbelow i hlt (by omega))⟩

end Activity

/-! ## Rows of fields -/

namespace TypeTable

variable {ts : TypeTable}

theorem total_append (a b : List Field) : ts.total (a ++ b) = ts.total a + ts.total b := by
  simp [total]

theorem total_le {fields : List Field} (h : ∀ f ∈ fields, (ts.size f.type).toInt < 2 ^ 31) :
    ts.total fields ≤ fields.length * (2 ^ 31 - 1) := by
  induction fields with
  | nil => simp [total]
  | cons f rest ih =>
    obtain ⟨hf, hrest⟩ := forall_mem_cons.mp h
    have hwords : ts.words f.type ≤ 2 ^ 31 - 1 := by
      unfold words
      omega
    rw [total_cons, length_cons]
    have := ih hrest
    omega

theorem Placed.offset_eq {before after : List Field} {f : Field} {offset : Int64}
    (h : ts.Placed offset (before ++ f :: after)) : f.offset = offset + ts.width before := (placed_append.mp h).2.1

end TypeTable

/-- A parameter lies as far below the frame as the words from it on. -/
theorem Context.Laid.toInt_offset {C : Context} {sig : Signatures} {entries : Entries} (h : C.Laid sig entries) {r : Routine}
    {around : List Level} (hr : C.known r around) {k : Nat} {f : Field} (hf : r.params[k]? = some f) :
    f.offset.toInt = C.types.total (r.params.take k) - r.paramSize.toInt := by
  obtain ⟨hplaced, htotal⟩ := h.params r around hr
  have hparams := h.paramSize_eq hr
  obtain ⟨hk, rfl⟩ := List.getElem?_eq_some_iff.mp hf
  have hsplit : r.params = r.params.take k ++ r.params[k] :: r.params.drop (k + 1) := by
    rw [← drop_eq_getElem_cons hk, take_append_drop]
  have hle : C.types.total (r.params.take k) ≤ C.types.total r.params := by
    conv_rhs => rw [hsplit, TypeTable.total_append]
    exact Nat.le_add_right _ _
  have hoffset := TypeTable.Placed.offset_eq (hsplit ▸ hplaced.placed)
  rw [hoffset, add_eq (toInt_neg ⟨by omega, by omega⟩) (TypeTable.toInt_width (fun g hg => ?_) (by omega)) (by omega)]
  · omega
  · have := h.sized g.type (hplaced.types g (mem_of_mem_take hg))
    omega

/-! ## Arguments -/

namespace Args

variable {C : Context} {sig : Signatures} {entries : Entries}

/-- The code of each argument, with its conversion to the type of the parameter. -/
def pieces (entries : Entries) : Args → List (List Instr)
  | .nil => []
  | .cons arg conversion _ rest => (instrs (arg.code entries) ++ conversion.code) :: rest.pieces entries

theorem flatten_pieces (args : Args) : (args.pieces entries).flatten = instrs (args.code entries) := by
  cases args with
  | nil => rfl
  | cons _ _ _ rest => simp [pieces, Args.code, flatten_pieces rest]

theorem forall₂_pieces (h : C.Laid sig entries) : (args : Args) → (params : List Field) →
    args.HaveTypes C (params.map Field.type) → (∀ f ∈ params, C.types.Has f.type) →
    List.Forall₂ (fun piece f => ∃ vs : List Slot, vs.length = C.types.words f.type ∧ Turns C sig [] piece vs)
      (args.pieces entries) params
  | .nil, [], _, _ => .nil
  | .cons arg conversion _ rest, p :: params, ⟨⟨t, harg, hstores⟩, hrest⟩, hhas => by
    obtain ⟨hp, hps⟩ := forall_mem_cons.mp hhas
    obtain ⟨vs, hlength, -, hvs⟩ := h.turns_stored (Expr.turns_code h arg harg) harg hp hstores []
    exact .cons ⟨vs, hlength, by simpa using hvs⟩ (forall₂_pieces h rest params hrest hps)

/-- Arguments are where the subprogram has its parameters. -/
theorem handsOver {t : ProgramTree} (hrun : t.Runnable C.types) (h : C.Laid t.signatures t.entries) {args : Args}
    {r : Routine} {around : List Level} (hr : C.known r around)
    (hargs : args.HaveTypes C (r.params.map Field.type)) {x : Instr} (hop : x.op = .call) {a : Activity}
    {rest : List Activity} {start : Machine} (hlive : Activity.Live t C.types (a :: rest) start) :
    start.HandsOver C.types (args.pieces t.entries) r x := by
  intro m called heval hx hstep
  obtain ⟨hplaced, htotal⟩ := h.params r around hr
  have hparams := h.paramSize_eq hr
  have hforall := args.forall₂_pieces h r.params hargs hplaced.types
  have hops : ∀ piece ∈ args.pieces t.entries, AllOps inExpression piece := fun piece hpiece y hy =>
    args.ops_code t.entries y (by rw [← flatten_pieces]; exact mem_flatten.mpr ⟨piece, hpiece, hy⟩)
  obtain ⟨hlive', hsp, -⟩ := hlive.exchanges_pieces hrun hforall hops heval
  obtain ⟨hfp, hcalled⟩ := Machine.call_of_step hlive'.room.1 hlive'.room.2 hop hx hstep
  have hfirst : ∃ y, start.fetch? = some y ∧ y.op.inExpression = true := by
    cases hcode : (args.pieces t.entries).flatten with
    | nil =>
      rw [hcode] at heval
      obtain rfl : m = start := heval
      exact ⟨x, hx, by rw [hop]; rfl⟩
    | cons y code =>
      rw [hcode] at heval
      obtain ⟨_, hy, -⟩ := heval
      exact ⟨y, hy, args.ops_code t.entries y (by rw [← flatten_pieces, hcode]; exact mem_cons_self)⟩
  obtain ⟨y, hy, hyop⟩ := hfirst
  have htop := hlive.top_le hrun hy hyop
  refine ⟨by omega, hfp, fun k piece f hpiece hf => ?_⟩
  -- The arguments and the parameters are split at the one in question.
  have hsplit {α : Type} {l : List α} {a : α} (h : l[k]? = some a) : l.drop k = a :: l.drop (k + 1) := by
    obtain ⟨hk, rfl⟩ := List.getElem?_eq_some_iff.mp h
    exact drop_eq_getElem_cons hk
  have hdrop := List.forall₂_drop k hforall
  rw [hsplit hpiece, hsplit hf] at hdrop
  obtain ⟨⟨vs, hlength, hturns⟩, hrest⟩ := List.forall₂_cons.mp hdrop
  rw [← take_append_drop k (args.pieces t.entries), flatten_append, hsplit hpiece, flatten_cons] at heval
  obtain ⟨before, hbefore, heval⟩ := Machine.evaluates_append.mp heval
  obtain ⟨after, hown, hothers⟩ := Machine.evaluates_append.mp heval
  obtain ⟨hlive₁, hsp₁, -⟩ := hlive.exchanges_pieces hrun (List.forall₂_take k hforall)
    (fun p hp => hops p (mem_of_mem_take hp)) hbefore
  obtain ⟨hlive₂, hsp₂, -⟩ := hlive₁.exchanges hrun hown (hops piece (mem_of_getElem? hpiece)) hturns
  obtain ⟨-, hsp₃, hbelow⟩ := hlive₂.exchanges_pieces hrun hrest (fun p hp => hops p (mem_of_mem_drop hp)) hothers
  have hwords := h.words_eq (hplaced.types f (mem_of_getElem? hf))
  have htake := h.toInt_offset hr hf
  rw [length_nil] at hsp₂
  refine ⟨before, after, hbefore, hown, hothers, by omega, fun j w hj hw => ⟨by omega, ?_⟩⟩
  exact (hcalled w (by omega)).trans (hbelow w (by omega) (by omega))

end Args

/-! ## Frames -/

/-- The frame of a block: the parameters lie side by side below it, the local variables lie side by side above the words
at its start, as many words are reserved as these have, and as many words are dropped as those have. -/
structure Segment.LaidOut (types : TypeTable) (code : List Instr) (g : Segment) : Prop where
  params : types.Tiled g.info.routine.params (-g.info.routine.paramSize.toInt) 0
  vars : types.Tiled g.info.vars 0 g.info.locals.toInt
  param_address : ∀ f ∈ g.info.routine.params, f.frameOffset.toInt = f.offset.toInt
  var_address : ∀ f ∈ g.info.vars, f.frameOffset.toInt = f.offset.toInt + FrameSlot.count.toInt
  enters : if g.info.locals = 0 then g.bodyStart = g.start else code[g.start]? = some (enter.withInt g.info.locals)
  leaves : code[g.stop - 1]? =
    some ((if g.info.routine.result.isSome then retf else ret).withInt g.info.routine.paramSize)

namespace ProgramTree

variable {t : ProgramTree} {types : TypeTable} {exact : Prop} {g : Segment}

theorem WellTyped.laidOut (h : t.WellTyped types exact) (hg : g ∈ t.segments)
    (hlaid : (t.contextAt types exact g).Laid t.signatures t.entries)
    (hvars : types.total g.info.vars + 4 < 2 ^ 63) : g.LaidOut types (instrs t.code) := by
  have hplaced : g.info.WellPlaced types := (h.sound hg).1.placed
  have hsized {fields : List Field} (hhas : ∀ f ∈ fields, types.Has f.type) : ∀ f ∈ fields, 1 ≤ (types.size f.type).toInt :=
    fun f hf => hlaid.sized f.type (hhas f hf)
  have hlocals := h.toInt_locals hg hlaid (by omega)
  have hparams : g.info.routine.paramSize.toInt = types.total g.info.routine.params := hlaid.paramSize_eq (h.sound hg).1.known
  have hnonneg := Int.natCast_nonneg (types.total g.info.routine.params)
  have hupper := g.info.routine.paramSize.toInt_lt
  have htiled : types.Tiled g.info.routine.params (-g.info.routine.paramSize.toInt) 0 := by
    have hstart : (-g.info.routine.paramSize).toInt = -g.info.routine.paramSize.toInt :=
      toInt_neg ⟨by omega, by omega⟩
    have := hplaced.routine.placed.tiled (hsized hplaced.routine.types) (by omega)
    rwa [hstart, hparams, Int.add_left_neg, ← hparams] at this
  have htiled' : types.Tiled g.info.vars 0 g.info.locals.toInt := by
    have := hplaced.placed.tiled (hsized hplaced.types) (by rw [toInt_zero]; omega)
    rwa [toInt_zero, Int.zero_add, ← hlocals] at this
  refine ⟨htiled, htiled', fun f hf => ?_, fun f hf => ?_, ?_, ?_⟩
  · have hsize := hsized hplaced.routine.types f hf
    have hbelow := (htiled.covered f.offset.toInt).mpr ⟨f, hf, by omega, by omega⟩
    exact congrArg Int64.toInt (if_neg (by rw [Int64.le_iff_toInt_le, toInt_zero]; exact Int.not_le.mpr hbelow.2))
  · have hsize := hsized hplaced.types f hf
    have habove := (htiled'.covered f.offset.toInt).mpr ⟨f, hf, by omega, by omega⟩
    have hoffset : f.frameOffset = f.offset + FrameSlot.count :=
      if_pos (by rw [Int64.le_iff_toInt_le, toInt_zero]; exact habove.1)
    rw [hoffset]
    exact add_eq rfl rfl (by rw [show FrameSlot.count.toInt = 4 from rfl]; omega)
  · split
    · next hnone => simp [Segment.bodyStart, BlockInfo.entry, hnone]
    · next hsome => exact (getElem?_entry hg hsome).1
  · have hstop := g.stop_eq t.entries
    rw [show g.stop - 1 = g.bodyStart + (g.statements t.entries).length by omega]
    exact getElem?_leave hg

/-- A call in a segment comes right after the code of its arguments, which leaves the words of the parameters of the
subprogram whose segment is the target. From the states of a run where the code of the arguments begins, they are handed
over to the subprogram. -/
def HandsOver (t : ProgramTree) (types : TypeTable) (g : Segment) (before : List Instr) (x : Instr)
    (Reached : Machine → Prop) : Prop :=
  ∃ f ∈ t.segments, ∃ args : Args, x.arg = .integer (Int64.ofNat f.start) ∧ instrs (args.code t.entries) <:+ before ∧
    args.HaveTypes (t.contextAt types False g) (f.info.routine.params.map Field.type) ∧
    List.Forall₂ (fun piece p => ∃ vs : List Slot, vs.length = types.words p.type ∧
      Turns (t.contextAt types False g) t.signatures [] piece vs) (args.pieces t.entries) f.info.routine.params ∧
    ∀ start : Machine, Reached start →
      start.pc.toInt + (args.code t.entries).length = g.start + before.length →
      start.HandsOver types (args.pieces t.entries) f.info.routine x

theorem WellTyped.handsOver (h : t.WellTyped types False) (hg : g ∈ t.segments)
    (hlaid : (t.contextAt types False g).Laid t.signatures t.entries) {before after : List Instr} {x : Instr}
    (hcode : g.code t.entries = before ++ x :: after) (hop : x.op = .call) {Reached : Machine → Prop}
    (hreached : ∀ m, Reached m → 2 ≤ m.pc.toInt → t.Runnable types ∧ ∃ a rest, Activity.Live t types (a :: rest) m) :
    t.HandsOver types g before x Reached := by
  obtain ⟨c, args, r, ⟨k, -, -, hid, -, hknown⟩, hargs, rfl, hsuffix⟩ := (h.leading hg hcode).call hop
  obtain ⟨f, hf, rfl, -⟩ := exists_segment_of_declared hknown
  refine ⟨f, hf, args, ?_, hsuffix, hargs, args.forall₂_pieces hlaid _ hargs (hlaid.params _ _ hknown).1.types, ?_⟩
  · show Datum.integer (Int64.ofNat (t.entries c.routine)) = _
    rw [hid, ← Segment.id, entries_of_mem hf h.unique]
  · intro start hstart hpc
    have hle := hsuffix.length_le
    have hstop : 2 ≤ g.start := (t.contiguous_segments.stop_le hg).1
    rw [length_instrs] at hle
    obtain ⟨hrun, a, rest, hlive⟩ := hreached start hstart (by omega)
    exact Args.handsOver hrun hlaid hknown hargs hop hlive

end ProgramTree

/-- A state of a run of a program, on a machine whose words can be addressed. -/
def Program.Reaches (p : Program) (m : Machine) : Prop :=
  ∃ (config : Machine.Config) (past : List Machine) (calls : List Machine.Call), config.Addressable ∧
    Machine.Runs (Machine.ofCode config p.code) past m calls

/-- In a body, there is an activity of it. -/
theorem Moderate.exists_activity {source : Text} (h : Moderate source) {p : Program}
    (hp : (compile source).result = .ok p) {m : Machine} (hm : p.Reaches m) (hpc : 2 ≤ m.pc.toInt) :
    ∃ a rest, Activity.Live (analyse source).1 (analyse source).2.types (a :: rest) m := by
  obtain ⟨config, past, calls, hc, hruns⟩ := hm
  obtain ⟨as, hlive, -⟩ := (h.live hp hc).runs h.runnable hruns
  rw [append_nil] at hlive
  cases as with
  | cons a rest => exact ⟨a, rest, hlive⟩
  | nil =>
    obtain ⟨-, ⟨hfresh, -⟩ | ⟨hended, -⟩⟩ := hlive
    · rw [hfresh.pc] at hpc
      exact absurd hpc (by decide)
    · rw [hended] at hpc
      exact absurd hpc (by decide)

/-- **Caller and callee agree on the layout of frames.** In an accepted source whose types have between one and 2^31 - 1
words, the parameters of a block lie side by side right below its frame and its local variables side by side above the
words at its start, each in order of declaration. The code reserves as many words as the local variables have, and drops
as many as the parameters have. Every call comes right after the code of its arguments, which leaves just the words of the
parameters on the stack. In a run of a source without pointers the call finds each argument where the subprogram has the
parameter, whatever is called to compute the arguments after it. -/
theorem compile_frames_agree {source : Text} {p : Program} (h : (compile source).result = .ok p)
    (hlength : p.code.size < 2 ^ 63) (hsized : ∀ ty, (analyse source).2.types.Has ty →
      1 ≤ ((analyse source).2.types.size ty).toInt ∧ ((analyse source).2.types.size ty).toInt < 2 ^ 31)
    (hcount : ∀ g ∈ (analyse source).1.segments, g.info.routine.params.length < 2 ^ 32 ∧ g.info.vars.length < 2 ^ 32) :
    p.code.toList = call.withTarget ((analyse source).1.entries (analyse source).1.main) :: { op := .halt } ::
        (analyse source).1.segments.flatMap (Segment.code (analyse source).1.entries) ∧
    ∀ g ∈ (analyse source).1.segments, g.LaidOut (analyse source).2.types p.code.toList ∧
      ∀ before x after, g.code (analyse source).1.entries = before ++ x :: after → x.op = .call →
        (analyse source).1.HandsOver (analyse source).2.types g before x fun m => Moderate source ∧ p.Reaches m := by
  obtain ⟨haccepted, hcode⟩ := compile_ok h
  have htyped := Parser.analyse_wellTyped False haccepted False.elim False.elim False.elim
  have hreached (m : Machine) (hm : Moderate source ∧ p.Reaches m) (hpc : 2 ≤ m.pc.toInt) :=
    And.intro hm.1.runnable (hm.1.exists_activity h hm.2 hpc)
  generalize analyse source = a at *
  have hsize {g : Segment} (hg : g ∈ a.1.segments) : a.2.types.total g.info.routine.params < 2 ^ 63 - 4 ∧
      a.2.types.total g.info.vars < 2 ^ 63 - 4 := by
    have hplaced : g.info.WellPlaced a.2.types := (htyped.sound hg).1.placed
    have hparams := a.2.types.total_le fun f hf => (hsized _ (hplaced.routine.types f hf)).2
    have hvars := a.2.types.total_le fun f hf => (hsized _ (hplaced.types f hf)).2
    have := hcount g hg
    omega
  refine ⟨by rw [hcode, ProgramTree.instrs_code], fun g hg => ?_⟩
  have hlaid := htyped.laid (by rw [← length_instrs, ← hcode, Array.length_toList]; exact hlength)
    (fun ty hty => (hsized ty hty).1) (fun f hf => by have := hsize hf; omega) False.elim hg
  rw [hcode]
  refine ⟨htyped.laidOut hg hlaid (by have := hsize hg; omega), fun before x after hbefore hop => ?_⟩
  exact htyped.handsOver hg hlaid hbefore hop hreached

/-- A function with parameters of one and two words and one that is converted, and with variables before and after a
procedure of its own. -/
def mixedSource : Text := Text.ofChars
  (["program p; type r = record a, b: integer end; var x: r; ", "function f(n: integer; y: r; z: real): integer; var u: r; ",
    "procedure q; begin u := y end; var v: integer; ", "begin q; v := n; f := v end; ",
    "begin writeln(f(f(1, x, 2), x, 3)) end."].flatMap String.toList)

theorem compile_frames_agree_mixed : Moderate mixedSource ∧ ∃ p, (compile mixedSource).result = .ok p ∧
    ∃ g ∈ (analyse mixedSource).1.segments, g.info.routine.paramSize = 4 ∧ g.info.locals = 3 ∧
      g.LaidOut (analyse mixedSource).2.types p.code.toList ∧ ∃ f ∈ (analyse mixedSource).1.segments, ∃ before x after,
        f.code (analyse mixedSource).1.entries = before ++ x :: after ∧ x.arg = .integer (Int64.ofNat g.start) ∧
        (analyse mixedSource).1.HandsOver (analyse mixedSource).2.types f before x fun m =>
          Moderate mixedSource ∧ p.Reaches m := by
  have hfacts : (∃ p ∈ (compile mixedSource).result.toOption, p.code.size < 2 ^ 63) ∧
      (∀ d ∈ (analyse mixedSource).2.types.descs.toList, 1 ≤ d.size.toInt ∧ d.size.toInt < 2 ^ 31) ∧
      (∀ g ∈ (analyse mixedSource).1.segments, g.info.routine.params.length < 2 ^ 32 ∧ g.info.vars.length < 2 ^ 32) ∧
      ∃ g ∈ (analyse mixedSource).1.segments, (g.info.routine.paramSize = 4 ∧ g.info.locals = 3) ∧
        ∃ f ∈ (analyse mixedSource).1.segments, ∃ x ∈ f.code (analyse mixedSource).1.entries,
          x.op = .call ∧ x.arg = .integer (Int64.ofNat g.start) := by decide +kernel
  obtain ⟨⟨p, hp, hsize⟩, hsizes, hcount, g, hg, ⟨hparams, hlocals⟩, f, hf, x, hx, hop, harg⟩ := hfacts
  obtain ⟨-, hframes⟩ := compile_frames_agree (compile_of_mem hp) hsize
    (fun ty hty => hsizes _ (Array.mem_toList_iff.mpr (Array.mem_of_getElem? hty.getElem?))) hcount
  obtain ⟨before, after, hcode⟩ := append_of_mem hx
  exact ⟨by decide +kernel, p, compile_of_mem hp, g, hg, hparams, hlocals, (hframes g hg).1, f, hf, before, x, after, hcode,
    harg, (hframes f hf).2 before x after hcode hop⟩

/-- A function that stores seven through a pointer without a value, which an earlier call left where the first argument
of the call around it lies. -/
def strayingSource : Text := Text.ofChars
  (["program p; type t = ^integer; function f: integer; var q: t; begin q^ := 7; f := 2 end; ",
    "function g(a, b: integer): integer; begin g := a end; ",
    "procedure h; var v: integer; procedure k; begin end; begin k end; ",
    "begin h; writeln(g(1, f)) end."].flatMap String.toList)

/-- Between the code of the first argument and the call, the word where the subprogram has its first parameter changes. -/
theorem compile_argument_overwritten : ∃ p ∈ (compile strayingSource).result.toOption,
    ∃ g ∈ (analyse strayingSource).1.segments, g.info.routine.params.map Field.offset = [-2, -1] ∧
      let m := Machine.ofCode { stackSize := 64, heapSize := 1 } p.code
      (m.after 6).fetch? = some { op := .push, arg := .integer 1 } ∧ (m.after 7).read? (m.after 7).sp = some (.integer 1) ∧
      (m.after 17).fetch? = some (call.withTarget g.start) ∧ (m.after 18).fp - 2 = (m.after 7).sp ∧
      (m.after 18).read? (m.after 7).sp = some (.integer 7) := by
  decide +kernel

end MiniPascal
