import MiniPascal.Proofs.Assembly
import MiniPascal.Proofs.Tree.Balance

/-!
# Contexts of segments

The body of every segment of a typed program obeys the typing rules in a context of its own, whose blocks are
themselves segments. The calls in it find the subprograms that the program has.
-/

namespace MiniPascal

open List

/-- What holds of a segment of typed blocks. -/
structure Segment.Sound (g : Segment) (C : Context) : Prop where
  placed : g.info.WellPlaced C.types
  known : C.known g.info.routine g.around
  body : g.body.WellTyped { C with levels := g.levels }

theorem Blocks.WellTyped.sound {b : Blocks} {C : Context} (h : b.WellTyped C) (here : Nat) :
    ∀ g ∈ b.segments here C.levels, g.Sound C ∧
      ∀ l ∈ g.around, l ∈ C.levels ∨ ∃ f ∈ b.segments here C.levels, f.level = l := by
  induction b generalizing C here with
  | nil => simp [segments]
  | cons _ _ _ _ ih₁ ih₂ =>
    obtain ⟨hplaced, hknown, hinner, hbody, hrest⟩ := h
    intro g hg
    simp only [segments, mem_append, mem_cons] at hg ⊢
    rcases hg with hg | rfl | hg
    · obtain ⟨hsound, haround⟩ := ih₁ hinner here g hg
      refine ⟨⟨hsound.placed, hsound.known, hsound.body⟩, fun l hl => ?_⟩
      rcases haround l hl with hl | ⟨f, hf, rfl⟩
      · rcases mem_cons.mp hl with rfl | hl
        · exact .inr ⟨_, .inr (.inl rfl), rfl⟩
        · exact .inl hl
      · exact .inr ⟨f, .inl hf, rfl⟩
    · exact ⟨⟨hplaced, hknown, hbody⟩, fun l hl => .inl hl⟩
    · obtain ⟨hsound, haround⟩ := ih₂ hrest _ g hg
      refine ⟨hsound, fun l hl => ?_⟩
      rcases haround l hl with hl | ⟨f, hf, rfl⟩
      · exact .inl hl
      · exact .inr ⟨f, .inr (.inr hf), rfl⟩

namespace ProgramTree

variable {t : ProgramTree} {types : TypeTable} {exact : Prop}

def contextAt (t : ProgramTree) (types : TypeTable) (exact : Prop) (g : Segment) : Context :=
  { t.context types exact with levels := g.levels }

/-- The subprograms at the targets of calls. -/
def signatures (t : ProgramTree) : Signatures := fun target =>
  (t.segments.find? fun g => target = .integer (Int64.ofNat g.start)).map fun g => g.info.routine

theorem WellTyped.sound (h : t.WellTyped types exact) {g : Segment} (hg : g ∈ t.segments) :
    g.Sound (t.context types exact) ∧ ∀ l ∈ g.levels, ∃ f ∈ t.segments, f.level = l := by
  obtain ⟨hsound, haround⟩ := h.blocks.sound origin g hg
  refine ⟨hsound, forall_mem_cons.mpr ⟨⟨g, hg, rfl⟩, fun l hl => ?_⟩⟩
  rcases haround l hl with hl | hl
  · cases hl
  · exact hl

theorem exists_segment_of_declared {r : Routine} {around : List Level}
    (h : (r, around) ∈ t.blocks.declared []) : ∃ g ∈ t.segments, g.info.routine = r ∧ g.around = around := by
  rw [t.blocks.declared_eq origin []] at h
  obtain ⟨g, hg, heq⟩ := mem_map.mp h
  obtain ⟨rfl, rfl⟩ := Prod.mk.inj heq
  exact ⟨g, hg, rfl, rfl⟩

theorem eq_of_start (hlength : t.code.length < 2 ^ 63) {f g : Segment} (hf : f ∈ t.segments)
    (hg : g ∈ t.segments) (h : Int64.ofNat f.start = Int64.ofNat g.start) : f = g := by
  have hfs := t.contiguous_segments.stop_le hf
  have hgs := t.contiguous_segments.stop_le hg
  have hfpos := f.size_pos
  have hgpos := g.size_pos
  unfold Segment.stop at hfs hgs
  have hstart := congrArg Int64.toInt h
  rw [Word.toInt_ofNat (by omega), Word.toInt_ofNat (by omega)] at hstart
  exact t.contiguous_segments.eq_of_mem hf hg (a := f.start) ⟨Nat.le_refl _, by unfold Segment.stop; omega⟩
    ⟨by omega, by unfold Segment.stop; omega⟩

theorem signatures_start (hlength : t.code.length < 2 ^ 63) {g : Segment} (hg : g ∈ t.segments) :
    t.signatures (.integer (Int64.ofNat g.start)) = some g.info.routine := by
  have hfind : t.segments.find? (fun f => Datum.integer (Int64.ofNat g.start) =
      .integer (Int64.ofNat f.start)) = some g := by
    cases hf : t.segments.find? (fun f => Datum.integer (Int64.ofNat g.start) = .integer (Int64.ofNat f.start)) with
    | none => simpa using List.find?_eq_none.mp hf g hg
    | some f =>
      have hsome := List.find?_some hf
      simp only [Datum.integer.injEq, decide_eq_true_eq] at hsome
      rw [eq_of_start hlength (mem_of_find?_eq_some hf) hg hsome.symm]
  rw [signatures, hfind]
  rfl

theorem WellTyped.exists_called (h : t.WellTyped types exact) {target : Datum} {r : Routine} {around : List Level}
    (hsig : t.signatures target = some r) (hknown : (t.context types exact).known r around) :
    ∃ g ∈ t.segments, target = .integer (Int64.ofNat g.start) ∧ g.info.routine = r ∧ g.around = around := by
  obtain ⟨f, hfind, rfl⟩ := Option.map_eq_some_iff.mp hsig
  obtain ⟨g, hg, hroutine, haround⟩ := exists_segment_of_declared hknown
  have hunique := h.unique
  rw [t.blocks.ids_eq origin []] at hunique
  have hf := mem_of_find?_eq_some hfind
  obtain rfl : g = f := inj_on_of_nodup_map hunique hg hf (congrArg Routine.id hroutine)
  exact ⟨g, hg, by simpa using List.find?_some hfind, rfl, haround⟩

theorem WellTyped.exists_main (h : t.WellTyped types exact) : ∃ g ∈ t.segments, g.info.routine = { id := t.main } ∧
    g.around = [] ∧ t.entries t.main = g.start := by
  obtain ⟨info, inner, body, hblocks, hroutine⟩ := h.main
  have hg : ⟨info, [], body, origin + inner.size⟩ ∈ t.segments := by
    unfold segments
    rw [hblocks]
    exact mem_append_right _ mem_cons_self
  refine ⟨_, hg, hroutine, rfl, ?_⟩
  have hid := entries_of_mem hg h.unique
  unfold Segment.id at hid
  rwa [hroutine] at hid

/-- The context of a segment, if types have sizes and frames are not too large. -/
theorem WellTyped.laid (h : t.WellTyped types exact) (hlength : t.code.length < 2 ^ 63)
    (hsized : ∀ ty, types.Has ty → 1 ≤ (types.size ty).toInt)
    (hparams : ∀ g ∈ t.segments, types.total g.info.routine.params < 2 ^ 63)
    (hsmall : exact → ∀ g ∈ t.segments, types.total g.info.routine.params < 2 ^ 31 ∧
      types.total g.info.vars < 2 ^ 31 ∧ g.levels.length ≤ 127) {g : Segment} (hg : g ∈ t.segments) :
    (t.contextAt types exact g).Laid t.signatures t.entries where
  formed := ⟨h.formed.builtins, h.formed.formed⟩
  sized := hsized
  signed r around hr := by
    obtain ⟨f, hf, rfl, -⟩ := exists_segment_of_declared hr
    show t.signatures (.integer (Int64.ofNat (t.entries f.id))) = _
    rw [entries_of_mem hf h.unique]
    exact signatures_start hlength hf
  params r around hr := by
    obtain ⟨f, hf, rfl, -⟩ := exists_segment_of_declared hr
    exact ⟨(h.sound hf).1.placed.routine, hparams f hf⟩
  levels l hl := by
    obtain ⟨f, hf, rfl⟩ := (h.sound hg).2 l hl
    have hplaced := (h.sound hf).1.placed
    exact ⟨hplaced.routine, hplaced.types, hplaced.placed, fun hx =>
      ⟨(hsmall hx f hf).1, (hsmall hx f hf).2.1⟩⟩
  shallow hx := (hsmall hx g hg).2.2

/-! ### The stack at the addresses of a segment -/

/-- What is known of the stack at an address of the statements of a segment. -/
def stackAt (t : ProgramTree) (types : TypeTable) (exact : Prop) (g : Segment) (a : Nat) : List Slot :=
  scan (t.contextAt types exact g) t.signatures [] ((g.statements t.entries).take (a - g.bodyStart))

section

variable (h : t.WellTyped types exact) {g : Segment} (hg : g ∈ t.segments)
  (hlaid : (t.contextAt types exact g).Laid t.signatures t.entries)

include h hg hlaid

theorem WellTyped.toInt_locals (hlocals : types.total g.info.vars < 2 ^ 63) :
    g.info.locals.toInt = types.total g.info.vars := by
  have hplaced := (h.sound hg).1.placed
  rw [hplaced.size]
  refine TypeTable.toInt_width (fun f hf => ?_) hlocals
  have := hlaid.sized f.type (hplaced.types f hf)
  exact Int.le_trans (by decide) this

theorem WellTyped.turns_statements : Turns (t.contextAt types exact g) t.signatures [] (g.statements t.entries) [] ∧
      Joined (t.contextAt types exact g) t.signatures g.bodyStart [] (g.statements t.entries) :=
  Stmt.turns_code hlaid (h.sound hg).1.body g.bodyStart []

/-- Each instruction of the statements finds its operands, and leads to the stack at the next address. -/
theorem WellTyped.meets_statements {i : Nat} {x : Instr} (hx : (g.statements t.entries)[i]? = some x) :
    x.Meets (t.contextAt types exact g) t.signatures (t.stackAt types exact g (g.bodyStart + i)) ∧
      t.stackAt types exact g (g.bodyStart + i + 1) =
        x.effect (t.contextAt types exact g) t.signatures (t.stackAt types exact g (g.bodyStart + i)) := by
  have hserved := (h.turns_statements hg hlaid).1.served.getElem? hx
  unfold stackAt
  rw [Nat.add_sub_cancel_left, Nat.add_assoc, Nat.add_sub_cancel_left]
  exact ⟨hserved, scan_take_succ hx⟩

theorem WellTyped.joins_statements {i : Nat} {x : Instr} (hx : (g.statements t.entries)[i]? = some x)
    (hjump : x.op.isJump = true) : ∃ j ≤ (g.statements t.entries).length,
      x.arg = .integer (Int64.ofNat (g.bodyStart + j)) ∧
      t.stackAt types exact g (g.bodyStart + j) = t.stackAt types exact g (g.bodyStart + i + 1) := by
  obtain ⟨j, hj, harg, hscan⟩ := (h.turns_statements hg hlaid).2 i x hx hjump
  refine ⟨j, hj, harg, ?_⟩
  unfold stackAt
  rw [Nat.add_sub_cancel_left, Nat.add_assoc, Nat.add_sub_cancel_left]
  exact hscan

theorem WellTyped.stackAt_end : t.stackAt types exact g (g.bodyStart + (g.statements t.entries).length) = [] := by
  unfold stackAt
  rw [Nat.add_sub_cancel_left, take_length]
  exact (h.turns_statements hg hlaid).1.scan_eq

end

theorem stackAt_start (g : Segment) : t.stackAt types exact g g.bodyStart = [] := by
  unfold stackAt
  rw [Nat.sub_self]
  rfl

/-- Code that stands at an address of the statements leads from the stack there to the stack behind it. -/
theorem stackAt_piece {g : Segment} (hg : g ∈ t.segments) {a : Nat} {piece : List Instr}
    (ha : g.bodyStart ≤ a) (hle : a + piece.length < g.stop) (hpiece : piece <+: (instrs t.code).drop a) :
    t.stackAt types exact g (a + piece.length) =
      scan (t.contextAt types exact g) t.signatures (t.stackAt types exact g a) piece := by
  obtain ⟨i, rfl⟩ := Nat.exists_eq_add_of_le ha
  have hstop := g.stop_eq t.entries
  have htake : ((g.statements t.entries).drop i).take piece.length = piece := by
    rw [prefix_iff_getElem?] at hpiece
    apply ext_getElem?
    intro k
    rw [List.getElem?_take, List.getElem?_drop]
    split
    · next hk =>
      have := hpiece k hk
      rw [List.getElem?_drop, Nat.add_assoc, getElem?_statements hg (by omega)] at this
      rw [this, List.getElem?_eq_getElem hk]
    · next hk => exact (List.getElem?_eq_none (by omega)).symm
  unfold stackAt
  rw [Nat.add_assoc, Nat.add_sub_cancel_left, Nat.add_sub_cancel_left, take_add, htake, scan_append]

end ProgramTree

end MiniPascal
