import MiniPascal.Proofs.Tree.Layout
import MiniPascal.Proofs.Tree.Routines

/-!
# Segments

The code of blocks is one segment for each body, one after the other. A segment knows its block, the
blocks around it and where it starts, so that what is said of a body can be said of a place in the code.
-/

namespace MiniPascal

open List

def instrs (code : List Emission) : List Instr := code.map Emission.instr

@[simp] theorem instrs_nil : instrs [] = [] := rfl

@[simp] theorem instrs_append (a b : List Emission) : instrs (a ++ b) = instrs a ++ instrs b := map_append

@[simp] theorem instrs_emitAt (line : Nat) (code : List Instr) : instrs (emitAt line code) = code := by
  rw [instrs, emitAt, map_map]
  exact map_id code

@[simp] theorem length_instrs (code : List Emission) : (instrs code).length = code.length := length_map _

theorem instrs_flatMap {α : Type} (l : List α) (f : α → List Emission) :
    instrs (l.flatMap f) = l.flatMap fun x => instrs (f x) := map_flatMap

/-- The body of a block, placed at an address, with the blocks around it, innermost first. -/
structure Segment where
  info : BlockInfo
  around : List Level
  body : Stmt
  start : Nat

namespace Segment

/-- The block as one that is around its own body. -/
def level (g : Segment) : Level := ⟨g.info.routine, g.info.vars⟩

/-- The blocks around the statements of the body, innermost first. -/
def levels (g : Segment) : List Level := g.level :: g.around

def id (g : Segment) : RoutineId := g.info.routine.id

def code (entries : Entries) (g : Segment) : List Instr := instrs (g.info.code entries g.start g.body)

/-- The number of instructions, which does not depend on where anything is placed. -/
def size (g : Segment) : Nat := (g.info.code (fun _ => 0) 0 g.body).length

/-- The address after the segment. -/
def stop (g : Segment) : Nat := g.start + g.size

theorem length_code (entries : Entries) (g : Segment) : (g.code entries).length = g.size := by
  rw [code, length_instrs, size]
  exact g.info.length_code entries _ g.start 0 g.body

end Segment

/-- Segments stand one after the other between two addresses. -/
def Contiguous : Nat → List Segment → Nat → Prop
  | here, [], stop => here = stop
  | here, g :: rest, stop => g.start = here ∧ Contiguous g.stop rest stop

theorem Contiguous.append {a b : List Segment} {here mid stop : Nat} (ha : Contiguous here a mid)
    (hb : Contiguous mid b stop) : Contiguous here (a ++ b) stop := by
  induction a generalizing here with
  | nil => exact ha ▸ hb
  | cons g rest ih => exact ⟨ha.1, ih ha.2⟩

theorem Contiguous.getElem? {segments : List Segment} {here stop : Nat} (h : Contiguous here segments stop)
    (entries : Entries) {g : Segment} (hg : g ∈ segments) {i : Nat} (hi : i < g.size) : here ≤ g.start ∧
      (segments.flatMap (Segment.code entries))[g.start - here + i]? = (g.code entries)[i]? := by
  induction segments generalizing here with
  | nil => simp at hg
  | cons f rest ih =>
    obtain ⟨hstart, hrest⟩ := h
    have hlength := f.length_code entries
    rw [flatMap_cons]
    rcases mem_cons.mp hg with rfl | hg
    · refine ⟨Nat.le_of_eq hstart.symm, ?_⟩
      rw [hstart, Nat.sub_self, Nat.zero_add, List.getElem?_append_left (by omega)]
    · obtain ⟨hle, heq⟩ := ih hrest hg
      unfold Segment.stop at hle heq
      refine ⟨by omega, ?_⟩
      rw [List.getElem?_append_right (by omega), hlength, ← heq]
      congr 1
      omega

/-- Segments that stand one after the other lie between the two addresses. -/
theorem Contiguous.stop_le {segments : List Segment} {here stop : Nat} (h : Contiguous here segments stop)
    {g : Segment} (hg : g ∈ segments) : here ≤ g.start ∧ g.stop ≤ stop := by
  induction segments generalizing here with
  | nil => simp at hg
  | cons f rest ih =>
    obtain ⟨hstart, hrest⟩ := h
    have hle (a b : Nat) (l : List Segment) (hl : Contiguous a l b) : a ≤ b := by
      induction l generalizing a with
      | nil => exact Nat.le_of_eq hl
      | cons x l ih =>
        have := ih x.stop hl.2
        have := hl.1
        unfold Segment.stop at *
        omega
    rcases mem_cons.mp hg with rfl | hg
    · exact ⟨Nat.le_of_eq hstart.symm, hle _ _ _ hrest⟩
    · have := ih hrest hg
      unfold Segment.stop at *
      omega

theorem Contiguous.eq_of_mem {segments : List Segment} {here stop : Nat}
    (h : Contiguous here segments stop) {f g : Segment} (hf : f ∈ segments) (hg : g ∈ segments) {a : Nat}
    (hfa : f.start ≤ a ∧ a < f.stop) (hga : g.start ≤ a ∧ a < g.stop) : f = g := by
  induction segments generalizing here with
  | nil => simp at hf
  | cons e rest ih =>
    obtain ⟨hstart, hrest⟩ := h
    rcases mem_cons.mp hf with rfl | hfrest
    · rcases mem_cons.mp hg with rfl | hgrest
      · rfl
      · have := (hrest.stop_le hgrest).1
        omega
    · rcases mem_cons.mp hg with rfl | hgrest
      · have := (hrest.stop_le hfrest).1
        omega
      · exact ih hrest hfrest hgrest

namespace Blocks

/-- The segments of blocks that are placed at an address inside other blocks. -/
def segments : Nat → List Level → Blocks → List Segment
  | _, _, .nil => []
  | here, around, .cons info inner body rest =>
    let g : Segment := ⟨info, around, body, here + inner.size⟩
    inner.segments here g.levels ++ g :: rest.segments g.stop around

theorem size_cons (info : BlockInfo) (inner : Blocks) (body : Stmt) (rest : Blocks) :
    (Blocks.cons info inner body rest).size = inner.size + (info.code (fun _ => 0) 0 body).length + rest.size := by
  rw [size, code, length_append, length_append, ← size, length_code_eq_size, info.length_code _ (fun _ => 0) _ 0]

theorem contiguous_segments (b : Blocks) (here : Nat) (around : List Level) :
    Contiguous here (b.segments here around) (here + b.size) := by
  induction b generalizing here around with
  | nil => exact (Nat.add_zero here).symm
  | cons info inner body rest ih₁ ih₂ =>
    refine (ih₁ here _).append ⟨rfl, ?_⟩
    have := ih₂ (here + inner.size + (info.code (fun _ => 0) 0 body).length) around
    rw [size_cons]
    rwa [show here + (inner.size + (info.code (fun _ => 0) 0 body).length + rest.size) =
      here + inner.size + (info.code (fun _ => 0) 0 body).length + rest.size by omega]

theorem instrs_code (entries : Entries) (b : Blocks) (here : Nat) (around : List Level) :
    instrs (b.code entries here) = (b.segments here around).flatMap (Segment.code entries) := by
  induction b generalizing here around with
  | nil => rfl
  | cons info inner body rest ih₁ ih₂ =>
    have hbody := info.length_code entries (fun _ => 0) (here + inner.size) 0 body
    simp only [code, segments, instrs_append, flatMap_append, flatMap_cons, length_code_eq_size, hbody]
    rw [ih₁ here, ih₂ _ around, append_assoc]
    rfl

theorem starts_eq (b : Blocks) (here : Nat) (around : List Level) :
    b.starts here = (b.segments here around).map fun g => (g.id, g.start) := by
  induction b generalizing here around with
  | nil => rfl
  | cons _ _ _ _ ih₁ ih₂ =>
    simp only [starts, segments, map_append, map_cons]
    rw [ih₁ here, ih₂ _ around]
    rfl

theorem declared_eq (b : Blocks) (here : Nat) (around : List Level) :
    b.declared around = (b.segments here around).map fun g => (g.info.routine, g.around) := by
  induction b generalizing here around with
  | nil => rfl
  | cons _ _ _ _ ih₁ ih₂ =>
    simp only [declared, segments, map_append, map_cons]
    rw [ih₁ here, ih₂ _ around]
    rfl

theorem ids_eq (b : Blocks) (here : Nat) (around : List Level) : b.ids = (b.segments here around).map Segment.id := by
  rw [← map_declared around, b.declared_eq here, map_map]
  rfl

end Blocks

namespace ProgramTree

/-- The segments of a program, which stand after the call of the program and the end. -/
def segments (t : ProgramTree) : List Segment := t.blocks.segments origin []

/-- The instructions of a program: the call of the main body, the end, and the segments. -/
theorem instrs_code (t : ProgramTree) : instrs t.code = Opcode.call.withTarget (t.entries t.main) :: { op := .halt } ::
      t.segments.flatMap (Segment.code t.entries) := by
  rw [code, instrs_append, instrs_emitAt, Blocks.instrs_code _ _ _ []]
  rfl

theorem contiguous_segments (t : ProgramTree) : Contiguous origin t.segments t.code.length := by
  have := t.blocks.contiguous_segments origin []
  have hlength : t.code.length = origin + t.blocks.size := by
    rw [code, length_append, Blocks.length_code_eq_size]
    rfl
  rwa [hlength]

theorem getElem?_code (t : ProgramTree) {g : Segment} (hg : g ∈ t.segments) {i : Nat} (hi : i < g.size) :
    (instrs t.code)[g.start + i]? = (g.code t.entries)[i]? := by
  obtain ⟨hle, heq⟩ := t.contiguous_segments.getElem? t.entries hg hi
  unfold origin at hle heq
  rw [t.instrs_code, ← heq, show g.start + i = g.start - 2 + i + 1 + 1 by omega]
  rfl

end ProgramTree

end MiniPascal
