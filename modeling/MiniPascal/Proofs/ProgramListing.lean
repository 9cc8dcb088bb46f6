import Mathlib.Data.List.FinRange
import MiniPascal.Program.Listing

/-!
# Listings of arbitrary programs

A listing is cut into sections. There is one for each line of the source, with the instructions that come from the line,
and one more for instructions whose line the source does not have. The lines of a program may be any numbers in any
order: each of its instructions belongs to one section and is shown there.
-/

namespace MiniPascal.Program

open List

open Text

/-! ## The lines of a source -/

/-- The lines of a source hold no newline and give the source back if each is ended by one. Only the last line of a source
need not be ended; nothing comes after a newline at the end. -/
structure LinesOf (source : Text) (lines : List Text) : Prop where
  single : ∀ line ∈ lines, 10 ∉ line
  joined : lines.flatMap (· ++ newline) = source ++ if source.getLast?.getD 10 = 10 then [] else newline

theorem splitLines_joined (t : Text) : t.splitLines.flatMap (· ++ newline) = t ++ newline := by
  induction t with
  | nil => rfl
  | cons b t ih =>
    rw [splitLines]
    split
    · next hb => rw [flatMap_cons, ih, hb]; rfl
    · split
      · next hnil => exact absurd hnil (splitLines_ne_nil t)
      · next piece pieces hpieces =>
        rw [hpieces, flatMap_cons] at ih
        rw [flatMap_cons, cons_append, cons_append, ih, cons_append]

theorem splitLines_single (t : Text) : ∀ line ∈ t.splitLines, 10 ∉ line := by
  induction t with
  | nil => simp [splitLines]
  | cons b t ih =>
    rw [splitLines]
    split
    · exact forall_mem_cons.mpr ⟨not_mem_nil, ih⟩
    · next hb =>
      split
      · simpa using Ne.symm hb
      · next piece pieces hpieces =>
        rw [hpieces] at ih
        obtain ⟨hpiece, hrest⟩ := forall_mem_cons.mp ih
        exact forall_mem_cons.mpr ⟨by simpa using ⟨Ne.symm hb, hpiece⟩, hrest⟩

theorem linesOf_sourceLines (source : Text) : LinesOf source (sourceLines source) := by
  have hsingle := splitLines_single source
  have hjoined := splitLines_joined source
  unfold sourceLines
  obtain ⟨before, last, hpieces⟩ :=
    (eq_nil_or_concat' source.splitLines).resolve_left (splitLines_ne_nil source)
  rw [hpieces] at hsingle hjoined ⊢
  -- The source is made of ended lines and of the last piece, which may be empty.
  have hsource : source = before.flatMap (· ++ newline) ++ last := by
    simpa [flatMap_append, ← append_assoc] using hjoined.symm
  dsimp only
  rw [List.getLast?_concat, dropLast_concat]
  split
  · next hlast =>
    rw [Option.some.inj hlast, append_nil] at hsource
    have hend : source.getLast?.getD 10 = 10 := by
      rw [hsource]
      obtain rfl | ⟨ended, line, rfl⟩ := eq_nil_or_concat' before
      · rfl
      · simp [newline]
    exact ⟨fun line hline => hsingle line (by simp [hline]), by rw [if_pos hend, append_nil, ← hsource]⟩
  · next hlast =>
    have hend : source.getLast?.getD 10 ≠ 10 := by
      obtain rfl | ⟨start, b, rfl⟩ := eq_nil_or_concat' last
      · exact absurd rfl hlast
      · have hb := hsingle (start ++ [b]) (by simp)
        rw [hsource, ← append_assoc, List.getLast?_concat]
        simp only [mem_append, mem_singleton, not_or] at hb
        exact Ne.symm hb.2
    exact ⟨hsingle, by rw [if_neg hend, hjoined]⟩

/-! ## The sections of a listing -/

variable (p : Program)

/-- The addresses whose lines satisfy a condition, in ascending order. -/
def addresses (on : Int → Bool) : List (Fin p.code.size) :=
  (List.finRange p.code.size).filter fun a => (p.lines[(a : Nat)]?).any on

/-- The disassembly of the instructions at some addresses, one a line, each after a tab. -/
def shown (addresses : List (Fin p.code.size)) : Text :=
  addresses.flatMap fun a => byte '\t' :: p.code[a].disassemble a

/-- Whether a number is not that of one of the first so many lines. -/
def outside (count : Nat) (line : Int) : Bool := line < 1 || (count : Int) < line

variable {p}

theorem numberFrom_eq (a : Nat) (code : List Instr) : numberFrom a code = (code.zipIdx a).map Prod.swap := by
  induction code generalizing a with
  | nil => rfl
  | cons x rest ih => rw [numberFrom, ih, zipIdx_cons, map_cons, Prod.swap_prod_mk]

/-- Every instruction stands at its address with its line. -/
theorem located_eq (h : p.lines.size = p.code.size) :
    p.located = (List.finRange p.code.size).map fun a : Fin p.code.size => (p.lines[(a : Nat)], (a : Nat), p.code[a]) := by
  refine ext_getElem (by simp [located, numbered, numberFrom_eq, h]) fun i hi hi' => ?_
  simp [located, numbered, numberFrom_eq]

theorem codeSection_filter (h : p.lines.size = p.code.size) (on : Int → Bool) :
    codeSection (p.located.filter fun c => on c.1) = p.shown (p.addresses on) := by
  have hon (a : Fin p.code.size) : (p.lines[(a : Nat)]?).any on = on p.lines[(a : Nat)] := by simp [h]
  simp only [located_eq h, codeSection, shown, addresses, filter_map, flatMap_map, Function.comp_def, hon]

theorem listFrom_eq (h : p.lines.size = p.code.size) (number : Nat) (lines : List Text) :
    p.listFrom number lines = (lines.mapIdx fun i line =>
      p.heading (number + i) line ++ p.shown (p.addresses (· = ((number + i : Nat) : Int)))).flatten := by
  induction lines generalizing number with
  | nil => rfl
  | cons line rest ih =>
    rw [listFrom, ih (number + 1), mapIdx_cons, flatten_cons, Nat.add_zero]
    congr 1
    · exact congrArg (p.heading number line ++ ·) (codeSection_filter h (· = (number : Int)))
    · simp only [Nat.add_assoc, Nat.add_comm 1]

/-- No address is lost where the addresses are told apart by their lines, and none is there twice. -/
theorem addresses_perm (h : p.lines.size = p.code.size) (count : Nat) :
    ((List.range count).flatMap (fun i => p.addresses (· = ((1 + i : Nat) : Int))) ++ p.addresses (outside count)).Perm
      (List.finRange p.code.size) := by
  have hat (a : Fin p.code.size) : p.lines[(a : Nat)]? = some p.lines[(a : Nat)] := by simp [h]
  induction count with
  | zero =>
    refine .of_eq (filter_eq_self.mpr fun a _ => ?_)
    simp only [hat, Option.any_some, outside, Bool.or_eq_true, decide_eq_true_eq]
    omega
  | succ count ih =>
    -- What was outside is now on the next line, or still outside.
    have hnext : (p.addresses (· = ((1 + count : Nat) : Int)) ++ p.addresses (outside (count + 1))).Perm
        (p.addresses (outside count)) := by
      refine .trans (.of_eq ?_) (filter_append_perm (fun a : Fin p.code.size =>
        (p.lines[(a : Nat)]?).any (· = ((1 + count : Nat) : Int))) (p.addresses (outside count)))
      simp only [addresses, filter_filter, hat, Option.any_some]
      congr 1 <;> refine filter_congr fun a _ => ?_
      all_goals
        rw [Bool.eq_iff_iff]
        simp only [outside, Bool.and_eq_true, Bool.or_eq_true, Bool.not_eq_true', decide_eq_true_eq,
          decide_eq_false_iff_not]
        omega
    rw [range_succ, flatMap_append, flatMap_singleton, append_assoc]
    exact (hnext.append_left _).trans ih

/-- A program with a line for each instruction has a listing, whatever its lines are. It is added to the text before it
and shows every source line with its heading and the instructions of that line, in ascending order of their addresses;
and then, if there are any, the instructions that come from no source line, under a heading of their own. So every
instruction is shown, and none is shown twice. -/
theorem render_shows_all (before : Text) (h : p.lines.size = p.code.size) : ∃ lines, LinesOf p.source lines ∧
    (Listable.program p).render before = .ok (before ++
      (lines.mapIdx fun i line => p.heading (1 + i) line ++ p.shown (p.addresses (· = ((1 + i : Nat) : Int)))).flatten ++
      if ∃ l ∈ p.lines, outside lines.length l then
        p.name ++ ofString ": ?" ++ newline ++ p.shown (p.addresses (outside lines.length)) else []) ∧
    ((List.range lines.length).flatMap (fun i => p.addresses (· = ((1 + i : Nat) : Int))) ++
      p.addresses (outside lines.length)).Perm (List.finRange p.code.size) := by
  refine ⟨sourceLines p.source, linesOf_sourceLines _, ?_, addresses_perm h _⟩
  have hstrays : p.strays (sourceLines p.source).length = [] ↔
      ¬∃ l ∈ p.lines, outside (sourceLines p.source).length l := by
    have hlines : p.lines.toList = p.located.map Prod.fst :=
      (List.map_fst_zip (by simp [numbered, numberFrom_eq, h])).symm
    simp only [← Array.mem_toList_iff, hlines]
    simp [strays, outside]
  have htail : codeSection (p.strays (sourceLines p.source).length) = _ := codeSection_filter h (outside _)
  simp only [Listable.render, listing, ne_eq, h, not_true_eq_false, if_false, Except.map, listFrom_eq h, List.append_assoc,
    List.isEmpty_iff, hstrays, htail, ite_not]

/-- Two lines of source, and five instructions: two of them from the second line, and three from no line. -/
def scattered : Program :=
  { name := [112], source := [97, 10, 98], code := .replicate 5 ⟨.writeln, 0, .integer 0⟩, lines := #[2, 0, 7, 2, -3] }

theorem render_shows_all_scattered : scattered.lines.size = scattered.code.size ∧
    (Listable.program scattered).render [62] = .ok (ofChars (">p:1: a\np:2: b\n\t    0: writeln\n\t    3: writeln\n" ++
      "p: ?\n\t    1: writeln\n\t    2: writeln\n\t    4: writeln\n").toList) ∧
    ∃ lines, LinesOf scattered.source lines ∧
      ((List.range lines.length).flatMap (fun i => scattered.addresses (· = ((1 + i : Nat) : Int))) ++
        scattered.addresses (outside lines.length)).Perm (List.finRange 5) := by
  obtain ⟨lines, hlines, -, hperm⟩ := render_shows_all (p := scattered) [62] rfl
  exact ⟨rfl, by decide +kernel, lines, hlines, hperm⟩

end MiniPascal.Program
