import MiniPascal.Compile
import MiniPascal.Proofs.Lexeme.Values
import MiniPascal.Proofs.Parser.Numbering
import MiniPascal.Proofs.Parser.TypedBlock

/-!
# Programs that are accepted are typed

The tree of a source that is accepted obeys the typing rules in the context that the tree itself gives:
its final table of types and its subprograms.
-/

namespace MiniPascal

open List TypeTable

namespace ProgramTree

def context (t : ProgramTree) (types : TypeTable) (exact : Prop) : Context :=
  { types, exact, known := fun r around => (r, around) ∈ t.blocks.declared [], levels := [] }

/-- A program obeys the typing rules. It is one block without parameters and without a result. -/
structure WellTyped (t : ProgramTree) (types : TypeTable) (exact : Prop) : Prop where
  main : ∃ info inner body, t.blocks = .cons info inner body .nil ∧ info.routine = { id := t.main }
  unique : t.blocks.ids.Nodup
  formed : (t.context types exact).WellFormed
  blocks : t.blocks.WellTyped (t.context types exact)

/-- A number stands for one subprogram if the numbers of the blocks are distinct. -/
theorem context_coherent {t : ProgramTree} {types : TypeTable} {exact : Prop} (h : t.blocks.ids.Nodup) :
    (t.context types exact).Coherent where
  unique r around r' around' hr hr' hid := by
    rw [← Blocks.map_declared [] t.blocks] at h
    have := inj_on_of_nodup_map h hr hr' hid
    exact Prod.mk.inj this
  levels k l hl := by simp [context] at hl

end ProgramTree

namespace Parser

open State TypeTable

variable {n : Nat} {C : Context}

/-- The start of a program, up to its block. -/
def preamble : Parser Text := do
  expect .kwProgram
  let name ← identifier
  programParameters
  expect .semicolon
  return name

theorem preamble_reads : Reads 0 preamble :=
  (expect_reads _).bind fun _ => identifier_reads.bind fun _ => programParameters_reads.bind fun _ =>
    (expect_reads _).bind fun _ => .pure _

theorem program_run (s : State) :
    program s =
      let t := (preamble s).2
      let d := declare (preamble s).1 (.procedure { id := ⟨t.routines⟩ })
        { t with routines := t.routines + 1 }
      let b := block { id := ⟨t.routines⟩ } d.2
      ({ name := (preamble s).1, headingLine := (line d.2).1, main := ⟨t.routines⟩, blocks := b.1 },
        (ending b.2).2) := by
  -- The parts stand for themselves, so that nothing is evaluated.
  have run (p : Parser Text) (d : Text → RoutineId → Parser Unit) (b : RoutineId → Parser Blocks)
      (e : Parser Unit) : (do
        let name ← p
        let id ← freshRoutine
        d name id
        let headingLine ← line
        let blocks ← b id
        e
        return { name, headingLine, main := id, blocks } : Parser ProgramTree) s =
      let t := (p s).2
      let d := d (p s).1 ⟨t.routines⟩ { t with routines := t.routines + 1 }
      let b := b ⟨t.routines⟩ d.2
      ({ name := (p s).1, headingLine := (line d.2).1, main := ⟨t.routines⟩, blocks := b.1 }, (e b.2).2) := rfl
  have h : program = (do
      let name ← preamble
      let id ← freshRoutine
      declare name (.procedure { id })
      let headingLine ← line
      let blocks ← block { id }
      ending
      return { name, headingLine, main := id, blocks }) := by
    simp only [preamble, program, bind_assoc, pure_bind]
  rw [h]
  exact run preamble (fun name id => declare name (.procedure { id })) (fun id => block { id }) ending

theorem program_numbered {s : State} (h : (program s).2.exhausted = false) :
    (program s).1.blocks.ids.Nodup ∧ (program s).1.main ∈ (program s).1.blocks.ids := by
  rw [program_run] at h ⊢
  generalize preamble s = q at *
  dsimp only at h ⊢
  obtain ⟨⟨-, hdev⟩, -⟩ := declare_declares (n := 0) q.1 (.procedure { id := ⟨q.2.routines⟩ })
    { q.2 with routines := q.2.routines + 1 }
  generalize declare q.1 (.procedure { id := ⟨q.2.routines⟩ })
    { q.2 with routines := q.2.routines + 1 } = d at *
  have hblock := block_keepsNumbers.numbered { id := ⟨q.2.routines⟩ } d.2
    ((ending_reads (n := 0) _).1.not_exhausted h) hdev.routines
  exact ⟨hblock.1.nodup, hblock.2⟩

/-- A block without parameters is opened where all names are known. -/
theorem State.Grounded.open {s : State} (h : s.Grounded C) (l : Level) :
    (opened l.routine.id s).Grounded (C.enter l) where
  lastError := h.lastError
  ended := h.ended
  lexemes := h.lexemes
  short := h.short
  stage := ⟨h.stage.builtins, h.stage.formed, h.stage.ordered, h.stage.grows, h.stage.retains⟩
  level := by
    show s.level + 1 = _
    rw [h.level]
    rfl
  enclosing := congrArg (l.routine.id :: ·) h.enclosing
  entries e he := Context.admits_enter (h.entries e he)
  forward := h.forward

theorem program_sound {s : State} (hC : C.Coherent) (hlevels : C.levels = [])
    (hsmall : C.exact → C.types.Small) (hs : s.Grounded C) (hfinal : (program s).2.Final C)
    (hknown : ∀ x ∈ (program s).1.blocks.declared [], C.known x.1 x.2) :
    (program s).2.Grounded C ∧ (program s).1.blocks.WellTyped C ∧
      ∃ x, (program s).1.blocks = blockTree { id := (program s).1.main } x := by
  rw [program_run] at hfinal hknown ⊢
  obtain ⟨hadv, hsame⟩ := preamble_reads s
  have hstart := hs.reads hadv hsame
  generalize preamble s = q at *
  dsimp only at hfinal hknown ⊢
  have hmain : ({ id := ⟨q.2.routines⟩ } : Routine).WellPlaced C.types :=
    ⟨by simp, rfl, trivial, by simp⟩
  have hparams : ({ id := ⟨q.2.routines⟩ } : Routine).params = [] := rfl
  have hresult : ({ id := ⟨q.2.routines⟩ } : Routine).result = none := rfl
  generalize ({ id := ⟨q.2.routines⟩ } : Routine) = r at *
  have hblock := hfinal.back ((ending_reads (n := 0)).moves _)
  have hdeclare := hblock.back (block_moves (n := 0) r _)
  obtain ⟨x, hx⟩ := block_keepsTyping.shape r _ hblock.clean
  have hr : C.known r C.levels := by
    rw [hlevels]
    refine hknown (r, []) ?_
    rw [hx]
    exact mem_append_right _ mem_cons_self
  have hnumber : Grounded C { q.2 with routines := q.2.routines + 1 } :=
    ⟨hstart.lastError, hstart.ended, hstart.lexemes, hstart.short, hstart.stage, hstart.level,
      hstart.enclosing, hstart.entries, hstart.forward⟩
  have hname : Makes C (fun _ => True) (declare q.1 (.procedure r)) fun _ _ => True := by
    refine declare_makes fun ts _ _ => ⟨⟨⟨0, ?_, Nat.zero_le _, rfl, rfl, hr⟩, fun f hf => ?_⟩, hresult⟩
    · show (C.levels.length : Int) - C.levels.length = 0
      omega
    · rw [hparams] at hf
      exact absurd hf (by simp)
  obtain ⟨hdeclared, -⟩ := hname.makes _ hnumber trivial hdeclare
  obtain ⟨hgrounded, htyped⟩ := block_keepsTyping.sound C r _ hC hsmall hmain
    (fun V => hdeclared.open ⟨r, V⟩) hblock (hlevels ▸ hknown)
  obtain ⟨hadv, hsame⟩ := ending_reads (n := 0) (block r (declare q.1 (.procedure r)
    { q.2 with routines := q.2.routines + 1 }).2).2
  exact ⟨hgrounded.reads hadv hsame, htyped, x, hx⟩

section

variable (source : Text)

theorem ofSource_start :
    ∃ l rest, Lexeme.scan source = l :: rest ∧ Advances n { current := l, rest } (ofSource source) ∧
      SameDeclarations { current := l, rest } (ofSource source) := by
  cases h : Lexeme.scan source with
  | nil =>
    obtain ⟨l, hl, -⟩ := Lexeme.scan_getLast source
    simp [h] at hl
  | cons l rest =>
    have hstart : ofSource source = view (l :: rest) { current := l, rest } := by
      unfold ofSource
      rw [h, view, view]
    rw [hstart]
    exact ⟨l, rest, rfl, view_advances _ _ suffix_rfl, view_same _ _⟩

theorem admits_builtins (hgrows : builtins.Grows C.types) :
    ∀ e ∈ Declaration.builtins.entries, C.Admits builtins e := by
  have constant {t : TypeId} {v : Datum} (hhas : builtins.Has t)
      (hholds : (builtins.kind t).holds v = true) (hbounded : v.Bounded) (name : Text) :
      C.Admits builtins ⟨name, 0, .constant v t⟩ := by
    refine ⟨Int.le_refl 0, Int.natCast_nonneg _, hhas, ?_, fun _ => hbounded⟩
    rw [hgrows.kind hhas]
    exact hholds
  have typeName {t : TypeId} (hhas : builtins.Has t) (name : Text) :
      C.Admits builtins ⟨name, 0, .typeName t⟩ := ⟨Int.le_refl 0, Int.natCast_nonneg _, hhas⟩
  intro e he
  simp only [Declaration.builtins, mem_cons, not_mem_nil, or_false] at he
  rcases he with rfl | rfl | rfl | rfl | rfl | rfl | rfl
  · exact typeName (by decide) _
  · exact typeName (by decide) _
  · exact typeName (by decide) _
  · exact typeName (by decide) _
  · exact constant (v := .boolean _) (by decide) (by decide) trivial _
  · exact constant (v := .boolean _) (by decide) (by decide) trivial _
  · exact constant (v := .integer _) (by decide) (by decide) ⟨by decide, by decide⟩ _

theorem ofSource_grounded {source : Text} (hlevels : C.levels = [])
    (hgrows : builtins.Grows C.types) (hretains : builtins.Retains C.types)
    (hshort : C.exact → source.length < 2 ^ 48)
    (hcaret : C.exact → ∀ l ∈ Lexeme.scan source, l.token ≠ .caret) : (ofSource source).Grounded C := by
  obtain ⟨l, rest, hscan, hadv, hsame⟩ := ofSource_start (n := 0) source
  refine State.Grounded.reads ?_ hadv hsame
  have hlexemes : ({ current := l, rest } : State).lexemes = Lexeme.scan source := hscan.symm
  refine ⟨fun _ => rfl, ?_, ?_, fun hx => ?_, ⟨.refl _, formed_builtins, ordered_builtins, hgrows, hretains⟩,
    ?_, ?_, ?_, ?_⟩
  · unfold Ended
    rw [hlexemes]
    exact Lexeme.scan_getLast source
  · rw [hlexemes]
    exact Lexeme.scan_regular hcaret
  · rw [hlexemes]
    exact Nat.le_trans (Lexeme.length_scan source) (hshort hx)
  · rw [hlevels]
    rfl
  · rw [Context.ids, hlevels]
    rfl
  · exact admits_builtins hgrows
  · simp

theorem analyse_run : analyse source = program (ofSource source) := rfl

theorem analyse_not_exhausted : (analyse source).2.exhausted = false := by
  obtain ⟨l, rest, hscan, hadv, -⟩ := ofSource_start (n := (Lexeme.scan source).length) source
  have hprogram := (program_moves (n := (Lexeme.scan source).length) (ofSource source)).1
  rw [analyse_run]
  refine (hadv.trans hprogram).bounded ?_ (Nat.le_of_eq (congrArg List.length hscan.symm))
  unfold Ended
  rw [show ({ current := l, rest } : State).lexemes = Lexeme.scan source from hscan.symm]
  exact Lexeme.scan_getLast source

/-- Blocks and subprograms are left again: the analysis ends where it started. -/
theorem analyse_balanced : (analyse source).2.level = 0 ∧ (analyse source).2.enclosing = [] := by
  obtain ⟨l, rest, -, -, hsame⟩ := ofSource_start (n := 0) source
  have hprogram := (program_moves (n := 0) (ofSource source)).2
  rw [analyse_run]
  exact ⟨hprogram.level.trans hsame.level, hprogram.enclosing.trans hsame.enclosing⟩

/-- The blocks of a source have distinct numbers, and that of the program is one of them. -/
theorem analyse_numbered :
    (analyse source).1.blocks.ids.Nodup ∧ (analyse source).1.main ∈ (analyse source).1.blocks.ids := by
  have hexhausted := analyse_not_exhausted source
  rw [analyse_run] at hexhausted ⊢
  exact program_numbered hexhausted

theorem analyse_grows : builtins.Grows (analyse source).2.types := by
  obtain ⟨l, rest, -, -, hsame⟩ := ofSource_start (n := 0) source
  have := (program_moves (n := 0) (ofSource source)).2.types
  rw [hsame.types] at this
  rw [analyse_run]
  exact this

theorem analyse_retains : builtins.Retains (analyse source).2.types := by
  obtain ⟨l, rest, -, -, hsame⟩ := ofSource_start (n := 0) source
  have hpending : (ofSource source).Pending := by
    intro f hf
    rw [hsame.forward] at hf
    exact nomatch hf
  have := ((program_moves (n := 0) (ofSource source)).2.bases hpending).2
  rw [hsame.types] at this
  rw [analyse_run]
  exact this

end

/-- The tree of a source that is accepted obeys the typing rules. -/
theorem analyse_wellTyped {source : Text} (exact : Prop) (h : (analyse source).2.diagnostics = [])
    (hcaret : exact → ∀ l ∈ Lexeme.scan source, l.token ≠ .caret)
    (hsmall : exact → (analyse source).2.types.Small) (hshort : exact → source.length < 2 ^ 48) :
    (analyse source).1.WellTyped (analyse source).2.types exact := by
  have hnodup := (analyse_numbered source).1
  have hgrows := analyse_grows source
  have hretains := analyse_retains source
  have hexhausted := analyse_not_exhausted source
  have hsound (C : Context) := program_sound (C := C) (s := ofSource source)
  rw [← analyse_run] at hsound
  generalize analyse source = a at *
  have hstart := ofSource_grounded (C := a.1.context a.2.types exact) rfl hgrows hretains hshort hcaret
  obtain ⟨hgrounded, htyped, x, hx⟩ := hsound (a.1.context a.2.types exact)
    (ProgramTree.context_coherent hnodup) rfl hsmall hstart ⟨⟨h, hexhausted⟩, .refl _, fun _ => .refl _⟩
    fun _ hx => hx
  exact ⟨⟨_, _, _, hx, rfl⟩, hnodup, ⟨hgrows, hgrounded.stage.formed⟩, htyped⟩

end Parser

end MiniPascal
