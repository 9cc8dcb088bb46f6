import MiniPascal.Proofs.Parser.TypedHeading

/-!
# Blocks that are accepted are typed

The analysis of a block in a state that obeys the typing rules yields a typed tree, unless it reports a
problem. The rules refer to all local variables of a block and to all subprograms of the program, also to
those that are declared later; a block is typed if what is declared so far is part of that.
-/

namespace MiniPascal

open List

namespace Blocks

theorem declared_append (around : List Level) (a b : Blocks) :
    (a.append b).declared around = a.declared around ++ b.declared around := by
  induction a with
  | nil => rfl
  | cons _ _ _ _ _ ih => simp [append, declared, ih]

theorem wellTyped_append {C : Context} {a b : Blocks} : (a.append b).WellTyped C ↔ a.WellTyped C ∧ b.WellTyped C := by
  induction a with
  | nil => simp [append, WellTyped]
  | cons _ _ _ _ _ ih =>
    simp only [append, WellTyped, ih, and_assoc]

end Blocks

namespace Parser

open State TypeTable

variable {α β : Type} {C : Context} {l : Level}

/-- What is declared in a block so far obeys the typing rules. -/
structure Declared.Sound (C : Context) (d : Declared) (ts : TypeTable) : Prop where
  types : ∀ f ∈ d.vars, ts.Has f.type
  size : d.locals = ts.width d.vars
  placed : ts.Placed 0 d.vars
  inner : d.inner.WellTyped C

/-- What is declared in a block so far is part of what the context has. -/
structure Declared.Within (C : Context) (d : Declared) : Prop where
  vars : ∀ l, C.levels[0]? = some l → ∀ f ∈ d.vars, f ∈ l.vars
  inner : ∀ x ∈ d.inner.declared C.levels, C.known x.1 x.2

theorem Declared.Sound.grow {d : Declared} {ts ts' : TypeTable} (h : d.Sound C ts) (hgrows : ts.Grows ts') :
    d.Sound C ts' where
  types f hf := hgrows.has (h.types f hf)
  size := h.size.trans (hgrows.width h.types).symm
  placed := hgrows.placed h.types h.placed
  inner := h.inner

/-- A part of the analysis adds to the declarations of a block and keeps to the typing rules, provided that
the program is accepted and that what it adds is part of what the context has. -/
structure Enlarges (C : Context) (d : Declared) (p : Parser α) (out : α → Declared) : Prop where
  moves : Moves 0 p
  back : ∀ s, (p s).2.Final C → (out (p s).1).Within C → d.Within C
  makes : ∀ s, s.Grounded C → d.Sound C s.types → (p s).2.Final C → (out (p s).1).Within C →
    (p s).2.Grounded C ∧ (out (p s).1).Sound C (p s).2.types

namespace Enlarges

variable {d : Declared} {out : α → Declared}

theorem pure {a : α} (h : out a = d) : Enlarges C d (pure a : Parser α) out := by
  subst h
  exact ⟨.pure a, fun _ _ hwithin => hwithin, fun _ hs hd _ _ => ⟨hs, hd⟩⟩

theorem of_makes {p : Parser β} (hp : Makes C (fun _ => True) p fun _ _ => True) {a : α} (h : out a = d) :
    Enlarges C d (do let _ ← p; return a) out := by
  subst h
  exact ⟨hp.moves.bind fun _ => .pure a, fun _ _ hwithin => hwithin, fun s hs hd hfinal _ =>
    ⟨(hp.makes s hs trivial hfinal).1, hd.grow (hp.moves s).2.types⟩⟩

/-- What follows may only pass on what was added. -/
theorem map {p : Parser β} {out' : β → Declared} (hp : Enlarges C d p out') {g : β → α} (h : ∀ b, out (g b) = out' b) :
    Enlarges C d (do return g (← p)) out where
  moves := hp.moves.bind fun _ => .pure _
  back s hfinal hwithin := hp.back s hfinal (h (p s).1 ▸ hwithin)
  makes s hs hd hfinal hwithin := by
    have := hp.makes s hs hd hfinal (h (p s).1 ▸ hwithin)
    rw [← h] at this
    exact this

/-- Reading comes before what is added. -/
theorem after {q : Parser β} (hq : Reads 0 q) {f : β → Parser α} (hf : ∀ b, Enlarges C d (f b) out) :
    Enlarges C d (q >>= f) out where
  moves := hq.moves.bind fun b => (hf b).moves
  back s := (hf (q s).1).back (q s).2
  makes s hs hd hfinal hwithin := by
    obtain ⟨hadv, hsame⟩ := hq s
    exact (hf (q s).1).makes (q s).2 (hs.reads hadv hsame) (hsame.types ▸ hd) hfinal hwithin

theorem loop {step : Declared → Parser (Bool × Declared)}
    (hstep : ∀ d, Enlarges C d (step d) Prod.snd) (d : Declared) : Enlarges C d (loop step d) id := by
  have hmoves (x : Declared) := (hstep x).moves
  have hexhaust (d : Declared) (s : State) : ¬(s.exhaust.Final C ∧ d.Within C) := fun h => by
    simpa [State.exhaust] using h.1.clean.exhausted
  have hback (d : Declared) (s : State) (h : (step d s).2.Final C ∧ (step d s).1.2.Within C) :
      s.Final C ∧ d.Within C := ⟨h.1.back (hmoves d s), (hstep d).back s h.1 h.2⟩
  refine ⟨loop_moves hmoves (fun _ s _ hn => absurd hn (by simp [State.lexemes])) d,
    fun s hfinal hwithin => ?_, fun s hs hd hfinal hwithin => ?_⟩
  · exact (repeatFor_back (Q := fun d s => s.Final C ∧ d.Within C) hexhaust hback s.fuel d s ⟨hfinal, hwithin⟩).2
  · exact repeatFor_keeps (P := fun d s => s.Grounded C ∧ d.Sound C s.types)
      (Q := fun d s => s.Final C ∧ d.Within C) hexhaust hback
      (fun d s h hend => (hstep d).makes s h.1 h.2 hend.1 hend.2) s.fuel d s ⟨hs, hd⟩ ⟨hfinal, hwithin⟩

end Enlarges

/-! ## Variables -/

theorem declareVariables_makes {c : TypeTable → Prop} [Persists c] {fields : List Field}
    (h : ∀ ts, c ts → ∀ f ∈ fields, ts.Has f.type ∧ C.Declares { hops := 0, offset := f.offset, type := f.type }) :
    Makes C c (declareVariables fields) fun _ _ => True := by
  induction fields generalizing c with
  | nil => exact .pure fun _ _ => trivial
  | cons f rest ih =>
    refine Makes.bind (declare_makes fun ts _ hcs => ?_) fun _ => ih ?_
    · show ts.Has f.type ∧ C.Declares _
      rw [Int.sub_self]
      exact h ts hcs f (by simp)
    · rintro ts ⟨hcs, -⟩ g hg
      exact h ts hcs g (by simp [hg])

def group : Parser (List Text × TypeId) := do
  let names ← identifiers
  expect .colon
  let type ← typeSpec false
  return (names, type)

theorem group_makes (hsmall : C.exact → C.types.Small) {c : TypeTable → Prop} [Persists c] :
    Makes C c group fun x ts => ts.Has x.2 :=
  .read identifiers_reads fun _ => .expect <| (typeSpec_makes hsmall false).bind fun _ => .pure fun _ h => h.2

/-- The variables of a group at their places, after those that a block has. -/
def Declared.place (d : Declared) (ts : TypeTable) (x : List Text × TypeId) : List Field × Int64 :=
  ts.placeFields d.locals (x.1.map fun name => (name, x.2))

/-- Declare variables at their places and add them to those of a block. -/
def declareGroup (d : Declared) (placed : List Field × Int64) : Parser Declared := do
  declareVariables placed.1
  expect .semicolon
  return { d with vars := d.vars ++ placed.1, locals := placed.2 }

theorem declareGroup_result (d : Declared) (placed : List Field × Int64) (s : State) :
    (declareGroup d placed s).1 = { d with vars := d.vars ++ placed.1, locals := placed.2 } := rfl

theorem types_bind_run (f : TypeTable → Parser β) (s : State) : (types >>= f) s = f s.types s := rfl

theorem variableGroup_run (d : Declared) (s : State) :
    variableGroup d s = declareGroup d (d.place (group s).2.types (group s).1) (group s).2 := by
  have h : variableGroup d = group >>= fun x => types >>= fun ts => declareGroup d (d.place ts x) := by
    simp only [group, variableGroup, bind_assoc, pure_bind]
    rfl
  rw [h, run_bind, types_bind_run]

theorem variableGroup_enlarges (hsmall : C.exact → C.types.Small) (hl : C.levels[0]? = some l) (d : Declared) :
    Enlarges C d (variableGroup d) id where
  moves := ((variableGroup_declares d).declares identifiers_reads).moves
  back s _ hwithin := by
    rw [variableGroup_run, declareGroup_result] at hwithin
    exact ⟨fun m hm f hf => hwithin.vars m hm f (mem_append_left _ hf), hwithin.inner⟩
  makes s hs hd hfinal hwithin := by
    rw [variableGroup_run] at hfinal hwithin ⊢
    rw [declareGroup_result] at hwithin ⊢
    generalize hplaced : d.place (group s).2.types (group s).1 = placed at *
    have hmoves : Moves 0 (declareGroup d placed) := (declareVariables_declares _).moves.bind fun _ =>
      (expect_reads _).moves.bind fun _ => .pure _
    have hgroup := (group_makes (c := fun _ => True) hsmall).moves s
    obtain ⟨hs', hhas⟩ := (group_makes (c := fun _ => True) hsmall).makes s hs trivial (hfinal.back (hmoves _))
    have hd' := hd.grow hgroup.2.types
    have hfields : ∀ f ∈ placed.1, (group s).2.types.Has f.type := by
      intro f hf
      rw [← hplaced] at hf
      have := mem_of_placeFields hf
      simp only [mem_map, Prod.mk.injEq] at this
      obtain ⟨_, _, _, htype⟩ := this
      exact htype ▸ hhas
    have declares : Makes C (fun ts => ∀ f ∈ placed.1, ts.Has f.type) (declareGroup d placed) fun _ _ => True := by
      refine Makes.bind (declareVariables_makes fun ts hts f hf => ⟨hts f hf, 0, l, rfl, hl, f, ?_, rfl, rfl⟩)
        fun _ => .expect <| .pure fun _ _ => trivial
      exact mem_append_right _ (hwithin.vars l hl f (mem_append_right _ hf))
    obtain ⟨hs'', -⟩ := declares.makes _ hs' hfields hfinal
    suffices hnew : Declared.Sound C _ (group s).2.types from ⟨hs'', hnew.grow (hmoves _).2.types⟩
    refine ⟨fun f hf => ?_, ?_, ?_, hd'.inner⟩
    · rcases mem_append.mp hf with hf | hf
      · exact hd'.types f hf
      · exact hfields f hf
    · show placed.2 = TypeTable.width _ (d.vars ++ placed.1)
      rw [width_append, ← hd'.size, ← hplaced]
      exact placeFields_end _ _
    · show TypeTable.Placed _ 0 (d.vars ++ placed.1)
      rw [placed_append, ← hd'.size, Int64.zero_add, ← hplaced]
      exact ⟨hd'.placed, placed_placeFields _ _⟩

theorem variableSection_enlarges (hsmall : C.exact → C.types.Small) (hl : C.levels[0]? = some l) (d : Declared) :
    Enlarges C d (variableSection d) id := by
  refine .after advance_reads fun _ => Enlarges.loop (fun d => .after token_reads fun t => ?_) d
  split
  · exact (variableGroup_enlarges hsmall hl d).map fun _ => rfl
  · exact .pure rfl

/-! ## Blocks -/

/-- Blocks that are typed are added to those of a block. -/
theorem Enlarges.append {p : Parser Blocks} (hmoves : Moves 0 p)
    (hp : ∀ s, s.Grounded C → (p s).2.Final C → (∀ x ∈ (p s).1.declared C.levels, C.known x.1 x.2) →
      (p s).2.Grounded C ∧ (p s).1.WellTyped C) (d : Declared) :
    Enlarges C d (do return (true, { d with inner := d.inner.append (← p) })) Prod.snd where
  moves := hmoves.bind fun _ => .pure _
  back s _ hwithin := by
    refine ⟨hwithin.vars, fun x hx => hwithin.inner x ?_⟩
    show x ∈ (d.inner.append _).declared C.levels
    rw [Blocks.declared_append]
    exact mem_append_left _ hx
  makes s hs hd hfinal hwithin := by
    obtain ⟨hgrounded, htyped⟩ := hp s hs hfinal fun x hx => hwithin.inner x (by
      show x ∈ (d.inner.append _).declared C.levels
      rw [Blocks.declared_append]
      exact mem_append_right _ hx)
    have hgrown := hd.grow (hmoves s).2.types
    exact ⟨hgrounded, hgrown.types, hgrown.size, hgrown.placed, Blocks.wellTyped_append.mpr ⟨hgrown.inner, htyped⟩⟩

/-- A parser of blocks keeps to the typing rules, provided that the program is accepted and that the
subprograms of the block are known. -/
structure KeepsTyping (block : Routine → Parser Blocks) : Prop where
  moves : ∀ r, Moves 0 (block r)
  shape : ∀ r s, (block r s).2.Clean → ∃ x, (block r s).1 = blockTree r x
  sound : ∀ (C : Context) (r : Routine) (s : State), C.Coherent → (C.exact → C.types.Small) →
    r.WellPlaced C.types → (∀ V, Grounded (C.enter ⟨r, V⟩) (opened r.id s)) → (block r s).2.Final C →
    (∀ x ∈ (block r s).1.declared C.levels, C.known x.1 x.2) →
    (block r s).2.Grounded C ∧ (block r s).1.WellTyped C

section

variable {block : Routine → Parser Blocks} (hb : KeepsTyping block) (hC : C.Coherent)
  (hsmall : C.exact → C.types.Small)
include hb hC hsmall

theorem subprogram_sound (function : Bool) {s : State} (hs : s.Grounded C)
    (hfinal : (subprogram block function s).2.Final C)
    (hknown : ∀ x ∈ (subprogram block function s).1.declared C.levels, C.known x.1 x.2) :
    (subprogram block function s).2.Grounded C ∧ (subprogram block function s).1.WellTyped C := by
  rw [subprogram_run] at hfinal hknown ⊢
  dsimp only at hfinal hknown ⊢
  have hnext : s.next.Grounded C := hs.reads (next_advances s) (next_same s)
  have hheading := heading_grounded function hnext
  generalize heading function s.next = h at *
  have hblock := hfinal.back ((expect_reads (n := 0) _).moves _)
  obtain ⟨x, hx⟩ := hb.shape h.1 h.2 hblock.clean
  obtain ⟨hplaced, hopened⟩ := hheading (hblock.back (hb.moves h.1 h.2)) (hknown (h.1, C.levels) (by
    rw [hx]
    exact mem_append_right _ mem_cons_self))
  obtain ⟨hgrounded, htyped⟩ := hb.sound C h.1 h.2 hC hsmall hplaced hopened hblock hknown
  obtain ⟨hadv, hsame⟩ := expect_reads (n := 0) .semicolon (block h.1 h.2).2
  exact ⟨hgrounded.reads hadv hsame, htyped⟩

theorem subprogram_enlarges (function : Bool) (d : Declared) :
    Enlarges C d (do return (true, { d with inner := d.inner.append (← subprogram block function) })) Prod.snd :=
  .append ((subprogram_moves hb.moves function).moves advance_reads.moves)
    (fun _ => subprogram_sound hb hC hsmall function) d

theorem declaration_enlarges (hl : C.levels[0]? = some l) (d : Declared) :
    Enlarges C d (declaration block d) Prod.snd := by
  refine .after token_reads fun t => ?_
  split
  · exact .of_makes constantSection_makes rfl
  · exact .of_makes (typeSection_makes hsmall) rfl
  · exact (variableSection_enlarges hsmall hl d).map fun _ => rfl
  · exact subprogram_enlarges hb hC hsmall false d
  · exact subprogram_enlarges hb hC hsmall true d
  · exact .pure rfl

theorem inside_sound (hl : C.levels[0]? = some l) {s : State} (hs : s.Grounded C)
    (hfinal : (inside block s).2.Final C) (hvariables : (inside block s).1.1.vars = l.vars)
    (hknown : ∀ x ∈ (inside block s).1.1.inner.declared C.levels, C.known x.1 x.2) :
    (inside block s).2.Grounded C ∧ (inside block s).1.1.Sound C C.types ∧ (inside block s).1.2.2.1.WellTyped C := by
  have hloop := Enlarges.loop (declaration_enlarges hb hC hsmall hl) {}
  rw [inside_run] at hfinal hvariables hknown ⊢
  dsimp only at hfinal hvariables hknown ⊢
  have hmakes := hloop.makes s hs ⟨by simp, rfl, trivial, trivial⟩
  rw [loop_run] at hmakes
  generalize repeatFor (declaration block) s.fuel {} s = q at *
  obtain ⟨hadv, hsame⟩ := body_reads (n := 0) q.2
  have hdeclared := hfinal.back ((body_reads (n := 0)).moves q.2)
  have hwithin : q.1.Within C := by
    refine ⟨fun m hm f hf => ?_, hknown⟩
    rw [hl] at hm
    rw [← Option.some.inj hm, ← hvariables]
    exact hf
  obtain ⟨hgrounded, hsound⟩ := hmakes hdeclared hwithin
  refine ⟨hgrounded.reads hadv hsame, hsound.grow hdeclared.types, ?_⟩
  exact (body_gives hgrounded.stage hC).gives trivial q.2 hgrounded rfl hfinal.clean

end

/-- Closing a block leaves the names of the blocks around. -/
theorem State.Grounded.close {s : State} (h : s.Grounded (C.enter l)) : (closed s).Grounded C where
  lastError := h.lastError
  ended := h.ended
  lexemes := h.lexemes
  short := h.short
  stage := ⟨h.stage.builtins, h.stage.formed, h.stage.ordered, h.stage.grows, h.stage.retains⟩
  level := by
    show s.level - 1 = _
    rw [h.level, Context.length_levels_enter]
    omega
  enclosing := by
    show s.enclosing.tail = _
    rw [h.enclosing]
    rfl
  entries e he := by
    obtain ⟨hmem, hne⟩ := (Scope.mem_purge _ _ _).mp he
    rw [h.level] at hne
    exact Context.admits_leave (h.entries e hmem) hne
  forward := h.forward

theorem blockOf_keepsTyping {block : Routine → Parser Blocks} (hb : KeepsTyping block) :
    KeepsTyping (blockOf block) where
  moves r := (blockOf_moves hb.moves r).mono (Nat.zero_le 1)
  shape r s _ := ⟨_, congrArg Prod.fst (blockOf_run block r s)⟩
  sound C r s hC hsmall hplaced hopened hfinal hknown := by
    rw [blockOf_run] at hfinal hknown ⊢
    have hr : C.known r C.levels := hknown (r, C.levels) (mem_append_right _ mem_cons_self)
    generalize hq : inside block (opened r.id s) = q at *
    have hsound := inside_sound hb (hC.enter (l := ⟨r, q.1.1.vars⟩) hr) hsmall rfl (hopened _)
    rw [hq] at hsound
    obtain ⟨hgrounded, hsound, hbody⟩ := hsound
      ⟨⟨hfinal.clean.diagnostics, hfinal.clean.exhausted⟩, hfinal.types, hfinal.bases⟩ rfl
      fun x hx => hknown x (mem_append_left _ hx)
    exact ⟨hgrounded.close, ⟨hplaced, hsound.types, hsound.size, hsound.placed⟩, hr, hsound.inner, hbody, trivial⟩

theorem blockWithin_keepsTyping (n : Nat) : KeepsTyping (blockWithin n) := by
  induction n with
  | zero =>
    refine ⟨fun _ => exhaust_moves _, fun _ _ h => ?_, fun _ _ _ _ _ _ _ h => ?_⟩
    · exact absurd h.exhausted (by simp [blockWithin, State.exhaust])
    · exact absurd h.clean.exhausted (by simp [blockWithin, State.exhaust])
  | succ n ih => exact blockOf_keepsTyping ih

theorem block_keepsTyping : KeepsTyping block where
  moves r := block_moves r
  shape r s := (blockWithin_keepsTyping s.fuel).shape r s
  sound C r s := (blockWithin_keepsTyping s.fuel).sound C r s

end Parser

end MiniPascal
