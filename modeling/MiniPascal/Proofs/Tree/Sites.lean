import MiniPascal.Proofs.Tree.Contexts

/-!
# Sites of addresses and calls

An address in the code of a typed tree is that of a variable or a result of a block around, and a call comes right after
the code of its arguments.
-/

namespace MiniPascal

open List

/-- What stands at an instruction: an address is one of the frame of a block around, a call is one of a subprogram that is
declared around, and it comes after the code of its arguments. -/
structure Instr.Leads (C : Context) (entries : Entries) (before : List Instr) (x : Instr) : Prop where
  address : x.op = .pushVar → ∃ (k : Nat) (l : Level) (offset : Int64), x.level = Int8.ofInt k ∧
    x.arg = .integer offset ∧ C.levels[k]? = some l ∧ l.Names offset
  call : x.op = .call → ∃ (c : Callee) (args : Args) (r : Routine), C.Calls c r ∧
    args.HaveTypes C (r.params.map Field.type) ∧ x = c.code entries ∧ instrs (args.code entries) <:+ before

/-- Every instruction of some code stands where it should, if the code comes after other code. -/
def Leading (C : Context) (entries : Entries) : List Instr → List Instr → Prop
  | _, [] => True
  | before, x :: rest => x.Leads C entries before ∧ Leading C entries (before ++ [x]) rest

section

variable {C : Context} {entries : Entries} {before a b : List Instr} {x : Instr}

@[simp] theorem leading_nil : Leading C entries before [] := trivial

@[simp] theorem leading_cons :
    Leading C entries before (x :: a) ↔ x.Leads C entries before ∧ Leading C entries (before ++ [x]) a := Iff.rfl

@[simp] theorem leading_append :
    Leading C entries before (a ++ b) ↔ Leading C entries before a ∧ Leading C entries (before ++ a) b := by
  induction a generalizing before with
  | nil => simp
  | cons x rest ih => rw [cons_append, leading_cons, leading_cons, ih, and_assoc, append_assoc, singleton_append]

/-- Of other instructions nothing is asked. -/
@[simp] theorem leads_of_ne (haddress : x.op ≠ .pushVar) (hcall : x.op ≠ .call) : x.Leads C entries before :=
  ⟨fun h => absurd h haddress, fun h => absurd h hcall⟩

/-- Code of a class of operations without addresses and calls. -/
theorem AllOps.leading {P : Opcode → Bool} (h : AllOps P a) (haddress : P .pushVar = false) (hcall : P .call = false)
    (before : List Instr) : Leading C entries before a := by
  induction a generalizing before with
  | nil => trivial
  | cons x rest ih =>
    obtain ⟨hop, hrest⟩ := forall_mem_cons.mp h
    refine ⟨leads_of_ne ?_ ?_, ih hrest _⟩
    · rintro heq
      rw [heq, haddress] at hop
      cases hop
    · rintro heq
      rw [heq, hcall] at hop
      cases hop

theorem leads_address {v : Variable} (h : C.Declares v) (before : List Instr) : v.address.Leads C entries before := by
  obtain ⟨k, l, hk, hl, f, hf, hoffset, htype⟩ := h
  refine ⟨fun _ => ⟨k, l, _, congrArg Int8.ofInt hk, rfl, hl, .inl ⟨f, hf, ?_⟩⟩, nofun⟩
  simp only [Field.frameOffset, Variable.frameOffset, hoffset]

theorem leads_call {c : Callee} {args : Args} {r : Routine} (hc : C.Calls c r)
    (hargs : args.HaveTypes C (r.params.map Field.type)) (before : List Instr) :
    (c.code entries).Leads C entries (before ++ instrs (args.code entries)) :=
  ⟨nofun, fun _ => ⟨c, args, r, hc, hargs, rfl, suffix_append ..⟩⟩

@[local simp] theorem AllOps.leading_inline (h : AllOps Opcode.isInline a) (before : List Instr) :
    Leading C entries before a := h.leading rfl rfl before

attribute [local simp] Expr.code Designator.code Args.code Opcode.withInt Opcode.withTarget

mutual

theorem Expr.leading_code : (e : Expr) → {t : TypeId} → e.HasType C t → (before : List Instr) →
    Leading C entries before (instrs (e.code entries))
  | .literal .., _, _, _ => by simp
  | .load source _ _, _, h, _ => by simp [source.leading_code h.1]
  | .call _ args _, _, ⟨_, hcall, _, _, _, hargs⟩, _ => by simp [args.leading_code hargs, leads_call hcall hargs]
  | .sign negative operand _, _, h, _ => by cases negative <;> simp [operand.leading_code h.1]
  | .complement operand _, _, ⟨_, h, _⟩, _ => by simp [operand.leading_code h]
  | .binary _ left right _ _, _, ⟨_, _, hl, hr, _⟩, _ => by simp [left.leading_code hl, right.leading_code hr]
  | .compare _ left right _ _, _, ⟨_, _, hl, hr, _⟩, _ => by simp [left.leading_code hl, right.leading_code hr]
  | .apply _ arg _ bounds _, _, ⟨_, h, _⟩, _ => by cases bounds <;> simp [arg.leading_code h]

theorem Designator.leading_code : (d : Designator) → {t : TypeId} → d.HasType C t → (before : List Instr) →
    Leading C entries before (instrs (d.code entries))
  | .variable v _, _, h, _ => by simp [leads_address h.1]
  | .result hops _, _, ⟨⟨k, l, hk, hl, hresult⟩, _⟩, _ => by
    simp only [Designator.code, instrs_emitAt, leading_cons, leading_nil, and_true]
    exact ⟨fun _ => ⟨k, l, _, congrArg Int8.ofInt hk, rfl, hl, .inr ⟨Option.isSome_of_eq_some hresult, rfl⟩⟩, nofun⟩
  | .element array index _ _, _, ⟨_, _, ha, hi, _⟩, _ => by simp [array.leading_code ha, index.leading_code hi]
  | .field record offset _, _, ⟨_, h, _⟩, _ => by by_cases offset = 0 <;> simp_all [record.leading_code h]
  | .pointee pointer _, _, ⟨_, h, _⟩, _ => by simp [pointer.leading_code h]

theorem Args.leading_code : (a : Args) → {ps : List TypeId} → a.HaveTypes C ps → (before : List Instr) →
    Leading C entries before (instrs (a.code entries))
  | .nil, [], _, _ => leading_nil
  | .cons arg _ _ rest, _ :: _, ⟨⟨_, harg, _⟩, hrest⟩, _ => by simp [arg.leading_code harg, rest.leading_code hrest]

end

theorem Stmt.leading_code {s : Stmt} (hs : s.WellTyped C) (here : Nat) (before : List Instr) :
    Leading C entries before (instrs (s.code entries here)) := by
  have scalar {e : Expr} (h : e.IsScalar C) : ∀ before, Leading C entries before (instrs (e.code entries)) :=
    e.leading_code h.choose_spec.1
  have kind {e : Expr} {k : TypeKind} (h : e.HasKind C k) : ∀ before, Leading C entries before (instrs (e.code entries)) :=
    e.leading_code h.choose_spec.1
  induction s generalizing here before with
  | skip => exact leading_nil
  | seq first second ih₁ ih₂ => simp [code, ih₁ hs.1, ih₂ hs.2]
  | assign target _ _ _ =>
    obtain ⟨⟨t, ht, -⟩, hvalue⟩ := hs
    simp [code, target.leading_code ht, scalar hvalue]
  | assignWhole target value size line =>
    obtain ⟨t, ht, -, -, hvalue⟩ := hs
    rcases storeWhole_cases (target.code entries ++ value.code entries) size line with heq | ⟨rest, last, hcode, -, heq⟩
    · simp [code, heq, target.leading_code ht, value.leading_code hvalue]
    · have hboth : Leading C entries before (rest ++ [last]) := by
        simp [← hcode, target.leading_code ht, value.leading_code hvalue]
      simp [code, heq, (leading_append.mp hboth).1]
  | abandoned target value => exact hs.elim
  | call callee args line =>
    obtain ⟨r, hcall, -, hargs⟩ := hs
    simp [code, args.leading_code hargs, leads_call hcall hargs]
  | ifThen _ _ _ ih => simp [code, kind hs.1, ih hs.2]
  | ifElse _ _ _ _ _ ih₁ ih₂ => simp [code, kind hs.1, ih₁ hs.2.1, ih₂ hs.2.2]
  | whileDo _ _ _ _ ih => simp [code, kind hs.1, ih hs.2]
  | repeatUntil _ _ _ ih => simp [code, ih hs.1, kind hs.2]
  | forLoop _ _ _ _ _ _ _ _ _ _ ih =>
    obtain ⟨hcontrol, -, -, hstart, hlimit, hbody⟩ := hs
    simp [code, leads_address hcontrol, scalar hstart, scalar hlimit, ih hbody, compareControl, stepControl]
  | write value format line =>
    obtain ⟨hvalue, -, hformat⟩ := hs
    have hformats (before : List Instr) : Leading C entries before (instrs (format.flatMap fun e => e.code entries)) := by
      clear hvalue
      induction format generalizing before with
      | nil => trivial
      | cons e rest ih =>
        obtain ⟨he, hrest⟩ := forall_mem_cons.mp hformat
        simp [kind he, ih hrest]
    simp [code, scalar hvalue, hformats]
  | writeText text line =>
    rw [code]
    induction text generalizing before with
    | nil => exact leading_nil
    | cons c rest ih => simpa using ih trivial _
  | writeln line => simp [code]
  | new target size line =>
    obtain ⟨-, t, ht, -⟩ := hs
    simp [code, target.leading_code ht]
  | dispose target line =>
    obtain ⟨-, t, ht, -⟩ := hs
    simp [code, target.leading_code ht]

end

/-- The instructions of a segment stand where they should. -/
theorem ProgramTree.WellTyped.leading {t : ProgramTree} {types : TypeTable} {exact : Prop} (h : t.WellTyped types exact)
    {g : Segment} (hg : g ∈ t.segments) {before after : List Instr} {x : Instr}
    (hcode : g.code t.entries = before ++ x :: after) : x.Leads (t.contextAt types exact g) t.entries before := by
  have hleading : Leading (t.contextAt types exact g) t.entries [] (g.code t.entries) := by
    rw [g.code_eq, leading_append, leading_append]
    refine ⟨⟨?_, Stmt.leading_code (h.sound hg).1.body _ _⟩, leads_of_ne ?_ ?_, trivial⟩
    · exact g.ops_entry.leading rfl rfl _
    · rw [g.op_leave]
      split <;> nofun
    · rw [g.op_leave]
      split <;> nofun
  rw [hcode, leading_append] at hleading
  exact hleading.2.1

end MiniPascal
