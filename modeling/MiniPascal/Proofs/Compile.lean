import MiniPascal.Proofs.Parser.TypedProgram
import MiniPascal.Proofs.Tree.Emitter

/-!
# Compilation

Whatever the source, its analysis comes to an end without meeting a bound, and the emission of its tree
does not break down. An accepted source gives a program whose jumps and calls are all settled; for any
other source there is a diagnostic.
-/

namespace MiniPascal

open List

def Context.Knows (C : Context) (id : RoutineId) : Prop := ∃ r around, C.known r around ∧ r.id = id

theorem Context.Calls.knows {C : Context} {c : Callee} {r : Routine} (h : C.Calls c r) : C.Knows c.routine := by
  obtain ⟨k, -, -, hid, -, hknown⟩ := h
  exact ⟨r, _, hknown, hid.symm⟩

section

variable {C : Context}

mutual

theorem Expr.knows_of_hasType : (e : Expr) → (t : TypeId) → e.HasType C t → ∀ id ∈ e.callees, C.Knows id
  | .absent, _, h => h.elim
  | .literal .., _, _ => by simp [Expr.callees]
  | .load source _ _, t, h => source.knows_of_hasType t h.1
  | .call callee args _, t, ⟨r, hcalls, _, _, _, hargs⟩ => by
    simp only [Expr.callees, forall_mem_append, forall_mem_singleton]
    exact ⟨args.knows_of_haveTypes _ hargs, hcalls.knows⟩
  | .sign _ operand _, t, h => operand.knows_of_hasType t h.1
  | .complement operand _, _, ⟨t', h, _⟩ => operand.knows_of_hasType t' h
  | .binary _ left right _ _, _, ⟨l, r, hl, hr, _⟩ => by
    simp only [Expr.callees, forall_mem_append]
    exact ⟨left.knows_of_hasType l hl, right.knows_of_hasType r hr⟩
  | .compare _ left right _ _, _, ⟨l, r, hl, hr, _⟩ => by
    simp only [Expr.callees, forall_mem_append]
    exact ⟨left.knows_of_hasType l hl, right.knows_of_hasType r hr⟩
  | .apply _ arg _ _ _, _, ⟨a, h, _⟩ => arg.knows_of_hasType a h

theorem Designator.knows_of_hasType : (d : Designator) → (t : TypeId) → d.HasType C t → ∀ id ∈ d.callees, C.Knows id
  | .variable .., _, _ => by simp [Designator.callees]
  | .result .., _, _ => by simp [Designator.callees]
  | .element array index _ _, _, ⟨a, i, ha, hi, _⟩ => by
    simp only [Designator.callees, forall_mem_append]
    exact ⟨array.knows_of_hasType a ha, index.knows_of_hasType i hi⟩
  | .field record _ _, _, ⟨r, h, _⟩ => record.knows_of_hasType r h
  | .pointee pointer _, _, ⟨p, h, _⟩ => pointer.knows_of_hasType p h
  | .surplus .., _, h => h.elim

theorem Args.knows_of_haveTypes : (args : Args) → (ts : List TypeId) → args.HaveTypes C ts →
    ∀ id ∈ args.callees, C.Knows id
  | .nil, _, _ => by simp [Args.callees]
  | .cons arg _ _ rest, p :: ps, ⟨⟨t, h, _⟩, hrest⟩ => by
    simp only [Args.callees, forall_mem_append]
    exact ⟨arg.knows_of_hasType t h, rest.knows_of_haveTypes ps hrest⟩

end

theorem Stmt.knows_of_wellTyped {s : Stmt} (h : s.WellTyped C) : ∀ id ∈ s.callees, C.Knows id := by
  have expr {e : Expr} {t : TypeId} (h : e.HasType C t) := e.knows_of_hasType t h
  have place {d : Designator} {t : TypeId} (h : d.HasType C t) := d.knows_of_hasType t h
  induction s with
  | skip | writeText | writeln => simp [callees]
  | seq first second ih₁ ih₂ =>
    simp only [callees, forall_mem_append]
    exact ⟨ih₁ h.1, ih₂ h.2⟩
  | assign target value _ _ =>
    obtain ⟨⟨_, ht, _⟩, _, hv, _⟩ := h
    simp only [callees, forall_mem_append]
    exact ⟨place ht, expr hv⟩
  | assignWhole target value _ _ =>
    obtain ⟨_, ht, _, _, hv⟩ := h
    simp only [callees, forall_mem_append]
    exact ⟨place ht, expr hv⟩
  | abandoned => exact h.elim
  | call callee args _ =>
    obtain ⟨r, hcalls, _, hargs⟩ := h
    simp only [callees, forall_mem_append, forall_mem_singleton]
    exact ⟨args.knows_of_haveTypes _ hargs, hcalls.knows⟩
  | ifThen condition _ body ih =>
    obtain ⟨⟨_, hc, _⟩, hb⟩ := h
    simp only [callees, forall_mem_append]
    exact ⟨expr hc, ih hb⟩
  | ifElse _ _ _ _ _ ih₁ ih₂ =>
    obtain ⟨⟨_, hc, _⟩, hb, ha⟩ := h
    simp only [callees, forall_mem_append]
    exact ⟨⟨expr hc, ih₁ hb⟩, ih₂ ha⟩
  | whileDo condition _ body _ ih =>
    obtain ⟨⟨_, hc, _⟩, hb⟩ := h
    simp only [callees, forall_mem_append]
    exact ⟨expr hc, ih hb⟩
  | repeatUntil body condition _ ih =>
    obtain ⟨hb, _, hc, _⟩ := h
    simp only [callees, forall_mem_append]
    exact ⟨ih hb, expr hc⟩
  | forLoop _ _ start _ _ _ limit _ body _ ih =>
    obtain ⟨_, _, _, ⟨_, hs, _⟩, ⟨_, hl, _⟩, hb⟩ := h
    simp only [callees, forall_mem_append]
    exact ⟨⟨expr hs, expr hl⟩, ih hb⟩
  | write value format _ =>
    obtain ⟨⟨_, hv, _⟩, _, hf⟩ := h
    simp only [callees, forall_mem_append]
    refine ⟨expr hv, fun id hid => ?_⟩
    obtain ⟨e, he, hid⟩ := mem_flatMap.mp hid
    obtain ⟨_, ht, _⟩ := hf e he
    exact expr ht id hid
  | new target _ _ =>
    obtain ⟨_, _, ht, _⟩ := h
    exact place ht
  | dispose target _ =>
    obtain ⟨_, _, ht, _⟩ := h
    exact place ht

theorem Blocks.knows_of_wellTyped {b : Blocks} (h : b.WellTyped C) : ∀ id ∈ b.callees, C.Knows id := by
  induction b generalizing C with
  | nil => simp [callees]
  | cons _ _ _ _ ih₁ ih₂ =>
    obtain ⟨_, _, hinner, hbody, hrest⟩ := h
    simp only [callees, forall_mem_append]
    have hinner := ih₁ hinner
    have hbody := Stmt.knows_of_wellTyped hbody
    exact ⟨⟨hinner, hbody⟩, ih₂ hrest⟩

end

theorem ProgramTree.WellTyped.callees {t : ProgramTree} {types : TypeTable} {exact : Prop}
    (h : t.WellTyped types exact) : t.blocks.callees ⊆ t.blocks.ids := by
  intro id hid
  obtain ⟨r, around, hknown, rfl⟩ := Blocks.knows_of_wellTyped h.blocks id hid
  rw [← Blocks.map_declared [] t.blocks]
  exact mem_map_of_mem hknown

variable {source : Text}

theorem compile_accepted (h : (analyse source).2.diagnostics = []) :
    ∃ e, (analyse source).1.emit? = some e ∧ e.pending.size = 0 ∧ e.code.toList = (analyse source).1.code ∧
      (compile source).result = .ok (e.program (analyse source).1.name source) := by
  have htyped := Parser.analyse_wellTyped False h False.elim False.elim False.elim
  obtain ⟨hnodup, hmain⟩ := Parser.analyse_numbered source
  obtain ⟨e, hemit, hsettled⟩ := (analyse source).1.emit?_eq_some
  obtain ⟨hpending, hcode⟩ := hsettled hnodup hmain htyped.callees
  refine ⟨e, hemit, hpending, hcode, ?_⟩
  unfold compile
  simp only [hemit, h, hpending]
  rfl

theorem compile_refused (h : (analyse source).2.diagnostics ≠ []) :
    (compile source).result = .error (analyse source).2.diagnostics := by
  obtain ⟨e, hemit, -⟩ := (analyse source).1.emit?_eq_some
  unfold compile
  simp only [hemit]
  rw [if_pos (by simpa using h)]

theorem compile_of_mem {p : Program} (h : p ∈ (compile source).result.toOption) : (compile source).result = .ok p := by
  generalize (compile source).result = result at h
  cases result with
  | error problems => cases h
  | ok q =>
    cases h
    rfl

/-- Every source is compiled to an end. The analysis meets none of the bounds on its repetitions and
nestings and leaves every block that it enters; the emission of the code does not break down. If there
are no diagnostics, every open target is settled and the program is that code; otherwise there is no
program, and there is a diagnostic. -/
theorem compile_ends (source : Text) : (∃ l ∈ (Lexeme.scan source).getLast?, l.token = .endOfFile) ∧
    (analyse source).2.exhausted = false ∧ (analyse source).2.level = 0 ∧ (analyse source).2.enclosing = [] ∧
    ∃ e, (analyse source).1.emit? = some e ∧ ((analyse source).2.diagnostics = [] ∧ e.pending.size = 0 ∧
          (compile source).result = .ok (e.program (analyse source).1.name source) ∨
        (analyse source).2.diagnostics ≠ [] ∧ (compile source).result = .error (analyse source).2.diagnostics) := by
  obtain ⟨hlevel, henclosing⟩ := Parser.analyse_balanced source
  refine ⟨Lexeme.scan_getLast source, Parser.analyse_not_exhausted source, hlevel, henclosing, ?_⟩
  by_cases h : (analyse source).2.diagnostics = []
  · obtain ⟨e, hemit, hpending, -, hresult⟩ := compile_accepted h
    exact ⟨e, hemit, .inl ⟨h, hpending, hresult⟩⟩
  · obtain ⟨e, hemit, -⟩ := (analyse source).1.emit?_eq_some
    exact ⟨e, hemit, .inr ⟨h, compile_refused h⟩⟩

end MiniPascal
