import Mathlib.Data.List.Forall2
import MiniPascal.Proofs.Compile
import MiniPascal.Proofs.Tree.Pieces

/-!
# Assembled code

The code of a program is a call of its main body, the end, and one segment for each body. Every target of a
jump or a call is settled: a call leads to the start of the body that it names, wherever that body stands,
and a jump to an instruction of its own body. Main statement: `compile_assembled`.
-/

namespace MiniPascal

open List Opcode Segment

namespace Segment

variable (entries : Entries) (g : Segment)

def leave : Instr :=
  (if g.info.routine.result.isSome then retf else ret).withInt g.info.routine.paramSize

/-- The address of the first statement. -/
def bodyStart : Nat := g.start + g.info.entry.length

def statements : List Instr := instrs (g.body.code entries g.bodyStart)

/-- A segment reserves the locals, executes the statements and leaves. -/
theorem code_eq : g.code entries = instrs g.info.entry ++ g.statements entries ++ [g.leave] := by
  simp [code, BlockInfo.code, BlockInfo.exit, bodyStart, statements, leave]

theorem stop_eq : g.stop = g.bodyStart + (g.statements entries).length + 1 := by
  have := g.length_code entries
  rw [g.code_eq entries, length_append, length_append, length_instrs, length_singleton] at this
  unfold stop bodyStart
  omega

theorem size_pos : 0 < g.size := by
  rw [← g.length_code fun _ => 0, g.code_eq fun _ => 0, length_append, length_singleton]
  omega

theorem ops_entry : AllOps (· == .enter) (instrs g.info.entry) := by
  unfold BlockInfo.entry
  split <;> simp [withInt]

theorem op_leave : g.leave.op = if g.info.routine.result.isSome then .retf else .ret := rfl

/-- The body is left only at the end of its segment. -/
theorem leaves_last : ∃ before, g.code entries = before ++ [g.leave] ∧ ∀ x ∈ before, x.op ≠ .ret ∧ x.op ≠ .retf := by
  refine ⟨_, g.code_eq entries, fun x hx => ?_⟩
  rcases mem_append.mp hx with hx | hx
  · have := g.ops_entry x hx
    simp_all
  · have := g.body.ops_code entries g.bodyStart x hx
    constructor <;> (intro heq; simp [heq, inStatement, inExpression, isInline] at this)

theorem startsPlain_code : StartsPlain (g.code entries) := by
  rw [g.code_eq entries]
  refine StartsPlain.append (StartsPlain.append ?_ (g.body.startsPlain_code entries _)) ?_
  · unfold BlockInfo.entry
    split <;> simp [withInt]
  · unfold leave
    split <;> simp [withInt]

theorem callTargets_code : callTargets (g.code entries) = g.body.callees.map entries.target := by
  have hentry : callTargets (instrs g.info.entry) = [] := by
    unfold BlockInfo.entry
    split <;> simp [withInt]
  have hleave : callTargets [g.leave] = [] := by
    unfold leave
    split <;> simp [withInt]
  rw [g.code_eq entries, callTargets_append, callTargets_append, hentry, hleave, statements,
    g.body.callTargets_code entries, nil_append, append_nil]

theorem jumps_code {x : Instr} (hx : x ∈ g.code entries) (hjump : x.op.isJump = true) :
    ∃ i y, (g.code entries)[i]? = some y ∧ y.op ≠ .copy ∧ x.arg = .integer (Int64.ofNat (g.start + i)) := by
  have hlast : ∀ y ∈ [g.leave], y.op ≠ .copy ∧ y.op.isJump = false := by
    simp only [mem_singleton, forall_eq, op_leave]
    split <;> exact ⟨Opcode.noConfusion, rfl⟩
  have hbody : x ∈ g.statements entries := by
    rw [g.code_eq entries, mem_append, mem_append] at hx
    rcases hx with (hx | hx) | hx
    · have := g.ops_entry x hx
      simp_all [isJump]
    · exact hx
    · simp [(hlast x hx).2] at hjump
  have haimed : Aimed g.bodyStart (g.statements entries) := g.body.aimed_code entries g.bodyStart
  obtain ⟨i, hi, harg, hplain⟩ := haimed x hbody hjump
  -- a jump behind the statements leads to the instruction that leaves the body
  have hrest : (g.code entries).drop ((instrs g.info.entry).length + i) = (g.statements entries).drop i ++ [g.leave] := by
    rw [g.code_eq, append_assoc, drop_length_add_append, drop_append_of_le_length hi]
  obtain ⟨y, hy⟩ := Option.isSome_iff_exists.mp
    (isSome_head?.mpr (append_ne_nil_of_right_ne_nil ((g.statements entries).drop i) (cons_ne_nil g.leave [])))
  refine ⟨(instrs g.info.entry).length + i, y, by rw [← List.head?_drop, hrest, hy],
    hplain.append (StartsPlain.cons_iff.mpr (hlast _ mem_cons_self).1) y hy, ?_⟩
  rw [harg, ← Nat.add_assoc, length_instrs]
  rfl

end Segment

/-- Code that is put together from the bodies of a program, with every target settled. A copy stands where a
load was taken back, so a target that is no copy is no instruction that was taken back. -/
structure Assembled (t : ProgramTree) (code : List Instr) : Prop where
  /-- The main body is called, and then the program ends; the segments follow. -/
  heading : ∃ g ∈ t.segments, g.id = t.main ∧
    code = call.withTarget g.start :: { op := .halt } :: t.segments.flatMap (Segment.code t.entries)
  contiguous : Contiguous 2 t.segments code.length
  /-- There is one segment for each subprogram. -/
  bodies : t.segments.map Segment.id = t.blocks.ids
  distinct : t.blocks.ids.Nodup
  /-- A body is left by its last instruction only. -/
  leaves : ∀ g ∈ t.segments, ∃ before last, g.code t.entries = before ++ [last] ∧
    last.op = (if g.info.routine.result.isSome then .retf else .ret) ∧
    ∀ x ∈ before, x.op ≠ .ret ∧ x.op ≠ .retf
  /-- The calls of a body are those of its statements, in order; each leads to the start of the segment of the
  subprogram that it names. -/
  calls : ∀ g ∈ t.segments, List.Forall₂
    (fun x r => ∃ f ∈ t.segments, f.id = r ∧ x.arg = .integer (Int64.ofNat f.start))
    ((g.code t.entries).filter fun x => x.op = .call) g.body.callees
  /-- A jump leads to an instruction of its own segment. -/
  jumps : ∀ g ∈ t.segments, ∀ x ∈ g.code t.entries, x.op = .jump ∨ x.op = .jneq →
    ∃ a, x.arg = .integer (Int64.ofNat a) ∧ g.start ≤ a ∧ a < g.stop
  /-- No target was taken back. -/
  kept : ∀ x ∈ code, x.op = .jump ∨ x.op = .jneq ∨ x.op = .call →
    ∃ a y, x.arg = .integer (Int64.ofNat a) ∧ code[a]? = some y ∧ y.op ≠ .copy
  /-- No target was left open. -/
  settled : code.length < 2 ^ 63 → ∀ x ∈ code, x.op = .jump ∨ x.op = .jneq ∨ x.op = .call → x.arg ≠ Instr.openTarget

namespace ProgramTree

variable {t : ProgramTree} {g : Segment}

section

variable (hg : g ∈ t.segments)

include hg

theorem entries_of_mem (h : t.blocks.ids.Nodup) : t.entries g.id = g.start := by
  have hstarts := t.blocks.starts_eq origin []
  have hnodup : ((t.blocks.starts origin).map Prod.fst).Nodup := by
    rwa [Blocks.map_fst_starts]
  have hmem : (g.id, g.start) ∈ t.blocks.starts origin := by
    rw [hstarts]
    exact mem_map_of_mem hg
  exact Entries.ofStarts_of_mem hnodup hmem

omit hg in
theorem exists_segment {r : RoutineId} (h : r ∈ t.blocks.ids) : ∃ g ∈ t.segments, g.id = r := by
  rw [t.blocks.ids_eq origin []] at h
  exact mem_map.mp h

theorem getElem?_entry (hlocals : g.info.locals ≠ 0) :
    (instrs t.code)[g.start]? = some (enter.withInt g.info.locals) ∧ g.bodyStart = g.start + 1 := by
  have hentry : g.info.entry = emitAt g.info.enterLine [enter.withInt g.info.locals] := if_neg hlocals
  constructor
  · have := t.getElem?_code hg g.size_pos
    rw [Nat.add_zero, g.code_eq, hentry, instrs_emitAt] at this
    exact this
  · rw [bodyStart, hentry]
    rfl

theorem getElem?_statements {i : Nat} (hi : i < (g.statements t.entries).length) :
    (instrs t.code)[g.bodyStart + i]? = (g.statements t.entries)[i]? := by
  have hstop := g.stop_eq t.entries
  have hlength : (instrs g.info.entry).length = g.info.entry.length := length_instrs _
  unfold stop bodyStart at hstop
  rw [bodyStart, Nat.add_assoc, t.getElem?_code hg (by omega), g.code_eq,
    List.getElem?_append_left (by rw [length_append]; omega),
    List.getElem?_append_right (by omega), hlength, Nat.add_sub_cancel_left]

theorem getElem?_leave : (instrs t.code)[g.bodyStart + (g.statements t.entries).length]? = some g.leave := by
  have hstop := g.stop_eq t.entries
  have hlength : (instrs g.info.entry).length = g.info.entry.length := length_instrs _
  unfold stop bodyStart at hstop
  rw [bodyStart, Nat.add_assoc, t.getElem?_code hg (by omega), g.code_eq,
    List.getElem?_append_right (by rw [length_append]; omega), length_append, hlength, Nat.sub_self]
  rfl

/-- The addresses of a segment: its first instruction if there are local variables, its statements, and its
last instruction. -/
theorem address_cases {a : Nat} (hle : g.start ≤ a) (hlt : a < g.stop) : (a = g.start ∧ g.bodyStart = g.start + 1 ∧
        (instrs t.code)[a]? = some (enter.withInt g.info.locals)) ∨
      (∃ i < (g.statements t.entries).length, a = g.bodyStart + i ∧
        (instrs t.code)[a]? = (g.statements t.entries)[i]?) ∨
      a = g.bodyStart + (g.statements t.entries).length ∧ (instrs t.code)[a]? = some g.leave := by
  have hstop := g.stop_eq t.entries
  rcases Nat.lt_or_ge a g.bodyStart with ha | ha
  · have hlocals : g.info.locals ≠ 0 := by
      intro hzero
      simp only [bodyStart, BlockInfo.entry, hzero, if_pos, length_nil] at ha
      omega
    obtain ⟨hget, hstart⟩ := getElem?_entry hg hlocals
    obtain rfl : a = g.start := by omega
    exact .inl ⟨rfl, hstart, hget⟩
  · obtain ⟨i, rfl⟩ := Nat.exists_eq_add_of_le ha
    rcases Nat.lt_or_ge i (g.statements t.entries).length with hi | hi
    · exact .inr (.inl ⟨i, hi, rfl, getElem?_statements hg hi⟩)
    · obtain rfl : i = (g.statements t.entries).length := by omega
      exact .inr (.inr ⟨rfl, getElem?_leave hg⟩)

theorem getElem?_start : ∃ y, (instrs t.code)[g.start]? = some y ∧ y.op ≠ .copy := by
  have hpos : 0 < (g.code t.entries).length := by
    rw [g.length_code t.entries]
    exact g.size_pos
  have hget := List.getElem?_eq_getElem hpos
  refine ⟨_, ?_, g.startsPlain_code t.entries _ (by rw [List.head?_eq_getElem?, hget])⟩
  rw [← hget, ← t.getElem?_code hg (by rwa [← g.length_code t.entries]), Nat.add_zero]

end

end ProgramTree

theorem Blocks.callees_of_mem_segments {b : Blocks} {here : Nat} {around : List Level} {g : Segment}
    (h : g ∈ b.segments here around) : g.body.callees ⊆ b.callees := by
  induction b generalizing here around with
  | nil => simp [segments] at h
  | cons _ _ _ _ ih₁ ih₂ =>
    intro r hr
    simp only [segments, mem_append, mem_cons] at h
    simp only [callees, mem_append]
    rcases h with h | rfl | h
    · exact .inl (.inl (ih₁ h hr))
    · exact .inl (.inr hr)
    · exact .inr (ih₂ h hr)

theorem Segment.forall₂_calls (entries : Entries) (g : Segment) :
    List.Forall₂ (fun x r => x.arg = entries.target r) ((g.code entries).filter fun x => x.op = .call)
      g.body.callees := by
  have h := g.callTargets_code entries
  rwa [callTargets, ← List.forall₂_eq_eq_eq, List.forall₂_map_left_iff, List.forall₂_map_right_iff] at h

namespace ProgramTree

variable {t : ProgramTree}

/-- Every jump and every call of a program leads to an instruction that is not a copy. -/
theorem target_kept (hunique : t.blocks.ids.Nodup) (hmain : t.main ∈ t.blocks.ids)
    (hcallees : t.blocks.callees ⊆ t.blocks.ids) {x : Instr} (hx : x ∈ instrs t.code)
    (hop : x.op.isJump = true ∨ x.op = .call) :
    ∃ a y, x.arg = .integer (Int64.ofNat a) ∧ (instrs t.code)[a]? = some y ∧ y.op ≠ .copy := by
  have hcall {r : RoutineId} (hr : r ∈ t.blocks.ids) : ∃ a y,
      t.entries.target r = .integer (Int64.ofNat a) ∧ (instrs t.code)[a]? = some y ∧ y.op ≠ .copy := by
    obtain ⟨f, hf, rfl⟩ := exists_segment hr
    obtain ⟨y, hget, hplain⟩ := getElem?_start hf
    exact ⟨f.start, y, by rw [Entries.target, entries_of_mem hf hunique], hget, hplain⟩
  rw [t.instrs_code, mem_cons, mem_cons, mem_flatMap] at hx
  rcases hx with rfl | rfl | ⟨g, hg, hx⟩
  · exact hcall hmain
  · simp [isJump] at hop
  · rcases hop with hop | hop
    · obtain ⟨i, y, hget, hplain, harg⟩ := g.jumps_code t.entries hx hop
      have hi : i < g.size := by
        rw [← g.length_code t.entries]
        exact (List.getElem?_eq_some_iff.mp hget).1
      exact ⟨g.start + i, y, harg, by rw [t.getElem?_code hg hi, hget], hplain⟩
    · have hmem : x.arg ∈ callTargets (g.code t.entries) :=
        mem_map_of_mem (mem_filter.mpr ⟨hx, by simpa using hop⟩)
      rw [g.callTargets_code t.entries] at hmem
      obtain ⟨r, hr, heq⟩ := mem_map.mp hmem
      rw [← heq]
      exact hcall (hcallees (Blocks.callees_of_mem_segments hg hr))

/-- The code of a program whose subprograms are numbered and that calls no others. -/
theorem assembled (hunique : t.blocks.ids.Nodup) (hmain : t.main ∈ t.blocks.ids)
    (hcallees : t.blocks.callees ⊆ t.blocks.ids) : Assembled t (instrs t.code) := by
  have hkept {x : Instr} (hx : x ∈ instrs t.code) (hop : x.op = .jump ∨ x.op = .jneq ∨ x.op = .call) :=
    target_kept hunique hmain hcallees hx (by rcases hop with hop | hop | hop <;> simp [hop, isJump])
  constructor
  case heading =>
    obtain ⟨m, hm, heq⟩ := exists_segment hmain
    exact ⟨m, hm, heq, by rw [t.instrs_code, ← heq, entries_of_mem hm hunique]⟩
  case contiguous =>
    rw [length_instrs]
    exact t.contiguous_segments
  case bodies => exact (t.blocks.ids_eq origin []).symm
  case distinct => exact hunique
  case leaves =>
    intro g _
    obtain ⟨before, heq, hbefore⟩ := g.leaves_last t.entries
    exact ⟨before, g.leave, heq, g.op_leave, hbefore⟩
  case calls =>
    intro g hg
    obtain ⟨hlength, hzip⟩ := List.forall₂_iff_zip.mp (g.forall₂_calls t.entries)
    refine List.forall₂_iff_zip.mpr ⟨hlength, fun {x r} hxr => ?_⟩
    obtain ⟨f, hf, rfl⟩ :=
      exists_segment (hcallees (Blocks.callees_of_mem_segments hg (of_mem_zip hxr).2))
    exact ⟨f, hf, rfl, by rw [hzip hxr, Entries.target, entries_of_mem hf hunique]⟩
  case jumps =>
    intro g hg x hx hop
    obtain ⟨i, y, hget, -, harg⟩ :=
      g.jumps_code t.entries hx (by rcases hop with hop | hop <;> simp [hop, isJump])
    have hi := (List.getElem?_eq_some_iff.mp hget).1
    rw [g.length_code t.entries] at hi
    exact ⟨g.start + i, harg, by omega, by unfold stop; omega⟩
  case kept => exact fun x hx hop => hkept hx hop
  case settled =>
    intro hlength x hx hop heq
    obtain ⟨a, y, harg, hget, -⟩ := hkept hx hop
    have ha := (List.getElem?_eq_some_iff.mp hget).1
    rw [harg, Instr.openTarget, Datum.integer.injEq] at heq
    have := congrArg Int64.toInt heq
    rw [Int64.toInt_ofNat_of_lt (by omega)] at this
    simp at this

end ProgramTree

/-- A source without diagnostics is compiled to the instructions of its tree. -/
theorem compile_instrs {source : Text} (h : (analyse source).2.diagnostics = []) :
    ∃ p, (compile source).result = .ok p ∧ p.code.toList = instrs (analyse source).1.code := by
  obtain ⟨e, -, -, hcode, hresult⟩ := compile_accepted h
  refine ⟨_, hresult, ?_⟩
  rw [← hcode]
  simp [Emitter.program, instrs]

/-- A program has the instructions of the tree of its source, in which nothing is wrong. -/
theorem compile_ok {source : Text} {p : Program} (h : (compile source).result = .ok p) :
    (analyse source).2.diagnostics = [] ∧ p.code.toList = instrs (analyse source).1.code := by
  have haccepted : (analyse source).2.diagnostics = [] := Decidable.byContradiction fun hne => by
    rw [compile_refused hne] at h
    cases h
  obtain ⟨q, hq, hcode⟩ := compile_instrs haccepted
  obtain rfl : p = q := Except.ok.inj (h.symm.trans hq)
  exact ⟨haccepted, hcode⟩

/-- The code of a source without diagnostics. -/
theorem compile_assembled {source : Text} (h : (analyse source).2.diagnostics = []) :
    ∃ e p, (analyse source).1.emit? = some e ∧ e.pending.size = 0 ∧ (compile source).result = .ok p ∧
      p.code.toList = instrs e.code.toList ∧ Assembled (analyse source).1 p.code.toList := by
  obtain ⟨hunique, hmain⟩ := Parser.analyse_numbered source
  have hcallees := (Parser.analyse_wellTyped False h False.elim False.elim False.elim).callees
  obtain ⟨e, hemit, hpending, hcode, hresult⟩ := compile_accepted h
  have hinstrs : (e.program (analyse source).1.name source).code.toList = instrs e.code.toList := by
    simp [Emitter.program, instrs]
  refine ⟨e, _, hemit, hpending, hresult, hinstrs, ?_⟩
  rw [hinstrs, hcode]
  exact ProgramTree.assembled hunique hmain hcallees

/-- A procedure is called by one inside it, whose body comes first, and a record is copied in front of a
loop. -/
def recursiveSource : Text := Text.ofChars
  (["program p; type r = record a, b: integer end; ", "var x, y: r; i: integer; ",
    "procedure q(n: integer); procedure s; ", "begin if n > 0 then q(n - 1) end; ",
    "begin x := y; while i < n do i := i + 1; s end; ", "begin for i := 1 to 3 do q(i) end."].flatMap String.toList)

theorem compile_assembled_recursive : (analyse recursiveSource).2.diagnostics = [] ∧
    ∃ e p, (analyse recursiveSource).1.emit? = some e ∧ e.pending.size = 0 ∧
      (compile recursiveSource).result = .ok p ∧ p.code.toList = instrs e.code.toList ∧
      Assembled (analyse recursiveSource).1 p.code.toList := by
  have h : (analyse recursiveSource).2.diagnostics = [] := by decide +kernel
  exact ⟨h, compile_assembled h⟩

end MiniPascal
