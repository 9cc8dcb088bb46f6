import MiniPascal.Proofs.Scopes
import MiniPascal.Proofs.Tree.Sites

/-!
# Level operands

An address and a call carry the number of static links that lead to the frame they mean. The number is how many blocks
further out the name is declared than it is used, and the instruction has eight bits for it: up to 127 links the operand
is the number, and beyond that it is another one.
-/

namespace MiniPascal

open List

/-! ## Instructions of programs -/

theorem Blocks.exists_enclosing (b : Blocks) (here : Nat) (around : List Level) {g : Segment}
    (hg : g ∈ b.segments here around) {levels : List Level} (h : levels <:+ g.levels) :
    levels <:+ around ∨ ∃ f ∈ b.segments here around, f.levels = levels := by
  induction b generalizing here around with
  | nil => cases hg
  | cons _ _ _ _ ih₁ ih₂ =>
    simp only [segments, mem_append, mem_cons] at hg ⊢
    have own {G : Segment} (h : levels <:+ G.levels) (haround : G.around = around) :
        levels <:+ around ∨ levels = G.levels := by
      rcases suffix_cons_iff.mp h with h | h
      · exact .inr h
      · exact .inl (haround ▸ h)
    rcases hg with hg | rfl | hg
    · rcases ih₁ _ _ hg with h | ⟨f, hf, heq⟩
      · rcases own h rfl with h | rfl
        · exact .inl h
        · exact .inr ⟨_, .inr (.inl rfl), rfl⟩
      · exact .inr ⟨f, .inl hf, heq⟩
    · rcases own h rfl with h | rfl
      · exact .inl h
      · exact .inr ⟨_, .inr (.inl rfl), rfl⟩
    · rcases ih₂ _ _ hg with h | ⟨f, hf, heq⟩
      · exact .inl h
      · exact .inr ⟨f, .inr (.inr hf), heq⟩

namespace ProgramTree

/-- An instruction of a segment means the frame of the block that is a number of blocks further out. An address is that
of a variable or a result of this block, and the subprogram at the target of a call is declared in it. -/
inductive Refers (t : ProgramTree) (g : Segment) (x : Instr) (k : Nat) : Prop
  | address {f : Segment} {offset : Int64} (hop : x.op = .pushVar) (hf : f ∈ t.segments)
      (hlevels : f.levels = g.levels.drop k) (harg : x.arg = .integer offset) (hnames : f.level.Names offset)
  | call {f : Segment} (hop : x.op = .call) (hf : f ∈ t.segments) (hk : k ≤ g.levels.length)
      (haround : f.around = g.levels.drop k) (harg : x.arg = .integer (Int64.ofNat f.start))

variable {t : ProgramTree} {types : TypeTable} {exact : Prop} {g : Segment} {x : Instr}

/-- Every address and every call of a segment means a frame of a block around. -/
theorem WellTyped.exists_refers (h : t.WellTyped types exact) (hg : g ∈ t.segments) (hx : x ∈ g.code t.entries)
    (hop : x.op = .pushVar ∨ x.op = .call) : ∃ k : Nat, t.Refers g x k ∧ x.level = Int8.ofInt k := by
  obtain ⟨before, after, hcode⟩ := append_of_mem hx
  have hleads := h.leading hg hcode
  rcases hop with hop | hop
  · obtain ⟨k, l, offset, hlevel, harg, hl, hnames⟩ := hleads.address hop
    obtain ⟨hlt, -⟩ := List.getElem?_eq_some_iff.mp hl
    rcases t.blocks.exists_enclosing _ _ hg (drop_suffix k g.levels) with hnil | ⟨f, hf, hlevels⟩
    · have hlength := hnil.length_le
      rw [length_drop] at hlength
      exact absurd hlt (Nat.not_lt.mpr (Nat.sub_eq_zero_iff_le.mp (Nat.le_zero.mp hlength)))
    · refine ⟨k, .address hop hf hlevels harg ?_, hlevel⟩
      have hhead : f.levels.head? = some l := by rw [hlevels, List.head?_drop]; exact hl
      exact Option.some.inj hhead ▸ hnames
  · obtain ⟨c, -, r, ⟨k, hhops, hk, hid, -, hknown⟩, -, rfl, -⟩ := hleads.call hop
    obtain ⟨f, hf, rfl, haround⟩ := exists_segment_of_declared hknown
    refine ⟨k, .call hop hf hk haround ?_, congrArg Int8.ofInt hhops⟩
    show Datum.integer (Int64.ofNat (t.entries c.routine)) = _
    rw [hid, ← Segment.id, entries_of_mem hf h.unique]

end ProgramTree

/-- A number of links is its own cut exactly up to 127. -/
theorem toInt_ofInt_eq_iff (k : Nat) : (Int8.ofInt k).toInt = k ↔ k ≤ 127 := by
  rw [Int8.toInt_ofInt, show Int8.size = 256 from rfl, Int.bmod_def]
  have hnonneg := Int.natCast_nonneg k
  split <;> omega

namespace Parser

/-! ## Names -/

/-- A name is declared in a frame that is a number of frames further out, and in none before. -/
def DeclaredAt (frames : List Frame) (name : Text) (e : Scope.Entry Declaration) (k : Nat) : Prop :=
  ∃ inner f outer, frames = inner ++ f :: outer ∧ inner.length = k ∧ Scope.first? f name = some e ∧
    ∀ g ∈ inner, Scope.first? g name = none

/-- What is made of a name at a place counts a number of links: a variable, a call, and the result of a function, which
lies in the frame inside the one where its name is declared. -/
structure CountsLinks (s : State) (e : Scope.Entry Declaration) (k : Nat) : Prop where
  address : ∀ offset type, (variableAt e offset type s).1.hops = k
  call : ∀ r, (callOf expression e r s).1.1.hops = k
  result : ∀ r, s.current.token = .becomes → s.enclosing.contains r.id = true →
    ∃ value conversion line, (resultStatement e r s).1 = .assign (.result (k - 1) s.line) value conversion line

theorem Nested.level_eq {level : Int} {inner : List Frame} {f : Frame} {outer : List Frame}
    (h : Nested level (inner ++ f :: outer)) : ∀ e ∈ f, e.level = level - inner.length := by
  induction inner generalizing level with
  | nil => simpa using h.1
  | cons g inner ih =>
    intro e he
    rw [ih h.2 e he, length_cons]
    omega

/-- A name that is found at a place is declared further out by as many blocks as its uses there count links. -/
theorem Inside.exists_declaredAt {source : Text} {n : Nat} {frames : List Frame} {s : State}
    (h : Inside source n frames s.level s) {name : Text} {e : Scope.Entry Declaration}
    (he : s.scope.lookup? name = some e) : ∃ k : Nat, DeclaredAt frames name e k ∧ CountsLinks s e k := by
  have hlookup := h.framed.nested.lookup? name
  rw [← h.framed.names] at hlookup
  obtain ⟨inner, f, outer, hframes, hfirst, hinner⟩ := List.findSome?_eq_some_iff.mp (hlookup.symm.trans he)
  have hlevel : s.level - e.level = inner.length := by
    have hnested := h.framed.nested
    rw [hframes] at hnested
    rw [hnested.level_eq e (mem_of_find?_eq_some hfirst)]
    omega
  refine ⟨inner.length, ⟨inner, f, outer, hframes, rfl, hfirst, hinner⟩, fun _ _ => hlevel, fun r => ?_,
    fun r htoken henclosing => ?_⟩
  · have hsame := (((arguments_reads (n := 0) expression_reads r.params).bind fun args =>
      require_reads (p := .argumentCount e.name r.params.length args.length)
        (decide (args.length = r.params.length)) rfl) s).2.level
    exact (congrArg (· - e.level) hsame).trans hlevel
  · have hinside : (s.current.token = .becomes && s.enclosing.contains r.id) = true := by
      rw [htoken, henclosing]
      rfl
    rw [← hlevel]
    change ∃ value conversion line, ((if (s.current.token = .becomes && s.enclosing.contains r.id) = true then _ else _ :
      Parser Stmt) s).1 = .assign _ value conversion line
    rw [if_pos hinside]
    exact ⟨_, _, _, rfl⟩

end Parser

/-- **Level operands count static links.** In the code of an accepted source every address and every call of a block means
a frame a number of blocks further out, and its level is that number exactly up to 127 links: beyond that the eight bits of
the operand hold another one. At every place of the source this number is how many blocks further out than the use the
name is declared, and one less for the result of a function. -/
theorem compile_levels {source : Text} {p : Program} (h : (compile source).result = .ok p) :
    p.code.toList = Opcode.call.withTarget ((analyse source).1.entries (analyse source).1.main) :: { op := .halt } ::
        (analyse source).1.segments.flatMap (Segment.code (analyse source).1.entries) ∧
    (∀ g ∈ (analyse source).1.segments, ∀ x ∈ g.code (analyse source).1.entries, x.op = .pushVar ∨ x.op = .call →
      ∃ k : Nat, (analyse source).1.Refers g x k ∧ x.level = Int8.ofInt k ∧ (x.level.toInt = k ↔ k ≤ 127)) ∧
    ∀ n frames s, Parser.Inside source n frames s.level s → ∀ name e, s.scope.lookup? name = some e →
      ∃ k : Nat, Parser.DeclaredAt frames name e k ∧ Parser.CountsLinks s e k := by
  obtain ⟨haccepted, hcode⟩ := compile_ok h
  have htyped := Parser.analyse_wellTyped False haccepted False.elim False.elim False.elim
  refine ⟨by rw [hcode, ProgramTree.instrs_code], fun g hg x hx hop => ?_, fun n frames s hs name e he => ?_⟩
  · obtain ⟨k, hrefers, hlevel⟩ := htyped.exists_refers hg hx hop
    exact ⟨k, hrefers, hlevel, by rw [hlevel, toInt_ofInt_eq_iff]⟩
  · exact hs.exists_declaredAt he

/-- A variable of a program, which is changed in the innermost of some procedures inside one another. -/
def deepSource (depth : Nat) : Text := Text.ofChars
  ("program p;var x:integer;".toList ++ (List.replicate depth "procedure q;".toList).flatten ++
    "begin x:=1 end".toList ++ (List.replicate depth ";begin end".toList).flatten ++ ['.'])

/-- Two blocks further out, the variable is found after two links. -/
theorem compile_levels_near : ∃ p, (compile (deepSource 2)).result = .ok p ∧
    ∃ g ∈ (analyse (deepSource 2)).1.segments, ∃ x ∈ g.code (analyse (deepSource 2)).1.entries,
      x.level.toInt = 2 ∧ ∃ k : Nat, (analyse (deepSource 2)).1.Refers g x k ∧ x.level = Int8.ofInt k := by
  have hfacts : (∃ p ∈ (compile (deepSource 2)).result.toOption, 0 < p.code.size) ∧
      ∃ g ∈ (analyse (deepSource 2)).1.segments, ∃ x ∈ g.code (analyse (deepSource 2)).1.entries,
        x.op = .pushVar ∧ x.level.toInt = 2 := by decide +kernel
  obtain ⟨⟨p, hp, -⟩, g, hg, x, hx, hop, hlevel⟩ := hfacts
  obtain ⟨k, hrefers, hk, -⟩ := (compile_levels (compile_of_mem hp)).2.1 g hg x hx (.inl hop)
  exact ⟨p, compile_of_mem hp, g, hg, x, hx, hlevel, k, hrefers, hk⟩

/-- After 128 links the level has become negative. -/
theorem compile_level_negative : ∃ p, (compile (deepSource 128)).result = .ok p ∧
    ∃ x ∈ p.code, x.op = .pushVar ∧ x.level.toInt = -128 := by
  have hfacts : ∃ p ∈ (compile (deepSource 128)).result.toOption, ∃ x ∈ p.code.toList,
      x.op = .pushVar ∧ x.level.toInt = -128 := by decide +kernel
  obtain ⟨p, hp, x, hx, hlevel⟩ := hfacts
  exact ⟨p, compile_of_mem hp, x, Array.mem_toList_iff.mp hx, hlevel⟩

end MiniPascal
