import MiniPascal.Proofs.Run.Live

/-!
# Runs of compiled programs

The program of a source that is accepted, has no pointers and is not too large is one whose runs are described by
activities, whatever the extents of the machine are.
-/

namespace MiniPascal

/-- An accepted source without pointers. Its types and frames have less than `2 ^ 31` words, and its subprograms are
nested at most 126 deep. -/
structure Moderate (source : Text) : Prop where
  accepted : (analyse source).2.diagnostics = []
  pointerless : ∀ l ∈ Lexeme.scan source, l.token ≠ .caret
  types : (analyse source).2.types.Small
  frames : ∀ g ∈ (analyse source).1.segments,
    (analyse source).2.types.total g.info.routine.params < 2 ^ 31 ∧ (analyse source).2.types.total g.info.vars < 2 ^ 31
  nesting : ∀ g ∈ (analyse source).1.segments, g.levels.length ≤ 127
  /-- Neither the source nor its code is longer than a memory can be. -/
  lengths : source.length < 2 ^ 48 ∧ (analyse source).1.code.length ≤ 2 ^ 48

theorem moderate_iff {source : Text} : Moderate source ↔ (analyse source).2.diagnostics = [] ∧
    (∀ l ∈ Lexeme.scan source, l.token ≠ .caret) ∧
    (∀ d ∈ (analyse source).2.types.descs.toList, (analyse source).2.types.total d.fields < 2 ^ 31) ∧
    (∀ g ∈ (analyse source).1.segments, ((analyse source).2.types.total g.info.routine.params < 2 ^ 31 ∧
      (analyse source).2.types.total g.info.vars < 2 ^ 31) ∧ g.levels.length ≤ 127) ∧
    source.length < 2 ^ 48 ∧ (analyse source).1.code.length ≤ 2 ^ 48 := by
  constructor
  · intro h
    refine ⟨h.accepted, h.pointerless, fun d hd => ?_, fun g hg => ⟨h.frames g hg, h.nesting g hg⟩, h.lengths⟩
    obtain ⟨i, hi⟩ := List.mem_iff_getElem?.mp hd
    rw [Array.getElem?_toList] at hi
    exact h.types i d hi
  · rintro ⟨haccepted, hpointerless, hrecords, hsegments, hlengths⟩
    refine ⟨haccepted, hpointerless, fun i d hd => ?_, fun g hg => (hsegments g hg).1, fun g hg => (hsegments g hg).2,
      hlengths⟩
    exact hrecords d (Array.mem_toList_iff.mpr (Array.mem_of_getElem? hd))

instance (source : Text) : Decidable (Moderate source) := decidable_of_iff _ moderate_iff.symm

/-- The words of the stack and the heap can be addressed; no memory has more of them. -/
def Machine.Config.Addressable (c : Machine.Config) : Prop :=
  c.normalize.stackSize.toInt + c.normalize.heapSize.toInt ≤ 2 ^ 62

instance (c : Machine.Config) : Decidable c.Addressable := inferInstanceAs (Decidable (_ ≤ _))

open Machine Activity

variable {source : Text}

theorem Moderate.runnable (h : Moderate source) : (analyse source).1.Runnable (analyse source).2.types := by
  have htyped := Parser.analyse_wellTyped True h.accepted (fun _ => h.pointerless) (fun _ => h.types)
    fun _ => h.lengths.1
  exact htyped.runnable h.frames h.nesting h.lengths.2

theorem fresh_ofCode {config : Config} (hc : config.Addressable) (code : Array Instr) : Fresh (ofCode config code) := by
  have hstack := config.lt_stackSize
  have hheap := config.heapSize_pos
  unfold Config.Addressable at hc
  refine ⟨rfl, rfl, rfl, hstack, ?_, ?_⟩
  · show config.normalize.stackSize.toInt ≤ 2 ^ 62
    omega
  · show config.normalize.stackSize.toInt ≤ (Array.replicate _ _).size
    rw [Array.size_replicate, Word.toInt_add]
    · omega
    · constructor <;> omega

/-- A run of a program starts without activities. -/
theorem Moderate.live (h : Moderate source) {p : Program} (hp : (compile source).result = .ok p) {config : Config}
    (hc : config.Addressable) : Live (analyse source).1 (analyse source).2.types [] (ofCode config p.code) := by
  obtain ⟨q, hq, hcode⟩ := compile_instrs h.accepted
  obtain rfl : p = q := Except.ok.inj (hp.symm.trans hq)
  refine ⟨hcode, .inl ⟨fresh_ofCode hc p.code, fun a d hd => ?_⟩⟩
  have hmem : (Array.replicate _ (Datum.integer 0))[a]? = some d := hd
  rw [Array.getElem?_replicate] at hmem
  split at hmem
  · obtain rfl := Option.some.inj hmem
    exact ⟨by decide, by decide⟩
  · cases hmem

/-- A recursive procedure around a recursive function, which uses the variables of all three blocks. -/
def nestedSource : Text := Text.ofChars
  (["program p; type v = array[0..3] of integer; ", "var a: v; s: integer; ",
    "procedure q(n: integer); var i: integer; ", "function f(k: integer): integer; ",
    "begin s := s + k; if k = 0 then f := n ", "else f := f(k - 1) + i end; ",
    "begin i := n; a[n] := f(n); if n > 0 then q(n - 1) end; ",
    "begin s := 0; q(3); writeln(s: 4) end."].flatMap String.toList)

theorem moderate_nestedSource : Moderate nestedSource := by decide +kernel

end MiniPascal
