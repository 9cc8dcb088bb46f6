import MiniPascal.Proofs.Compile
import MiniPascal.Proofs.Parser.Pointers

/-!
# Diagnostics in source order

A problem is recorded at the lexeme in view, unless the problem before it was recorded there too. The analysis
remembers one position for that, which is enough: lexemes are read once, and their positions grow. So the problems of
a source stand at lexemes in order, one for each lexeme at most. Only pointers whose bases turn out to be no types are
reported later, at the end of their type section, each at its own name.
-/

namespace MiniPascal

open List

namespace Parser

open State

/-- The lexemes for which problems were recorded are among those of the source. -/
theorem State.Reports.sublist {all : List Lexeme} {s : State} (h : s.Reports all) :
    (s.reported.map Diagnostic.place).Sublist (all.map Lexeme.place) := by
  obtain ⟨read, rfl, hsub⟩ := h
  refine hsub.trans (List.Sublist.map _ (List.Sublist.append_left ?_ read))
  split
  · exact (nil_sublist _).cons_cons _
  · exact nil_sublist _

theorem State.Awaits.sublist {all : List Lexeme} {s : State} (h : s.Awaits all) :
    s.baseless.Sublist ((all.filter (·.token = .identifier)).map Lexeme.lacking) := by
  obtain ⟨-, read, rfl, hsub⟩ := h
  exact (sublist_append_left _ _).trans (hsub.trans (((sublist_append_left _ _).filter _).map _))

/-- The analysis starts with no diagnostics, and its parts keep them in order. -/
theorem analyse_reports (source : Text) :
    (analyse source).2.Reports (Lexeme.scan source) ∧ (analyse source).2.Awaits (Lexeme.scan source) := by
  obtain ⟨l, rest, hscan, hadv, hsame⟩ := ofSource_start (n := 0) source
  have hprogram := program_moves (n := 0) (ofSource source)
  have hended : Ended { current := l, rest } := by
    obtain ⟨last, hlast, htoken⟩ := Lexeme.scan_getLast source
    rw [hscan] at hlast
    exact ⟨last, hlast, htoken⟩
  have hreports := hadv.reports (l :: rest) ⟨[], rfl, nil_sublist _⟩
  have hawaits := (hsame.develops hadv.lexemes).awaits (l :: rest) ⟨hended, [], rfl, .slnil⟩
  rw [analyse_run, hscan]
  exact ⟨hprogram.1.reports _ hreports, hprogram.2.awaits _ hawaits⟩

/-- A type section ends with a diagnostic for each pointer that its entries leave without a base, and for no other. -/
theorem typeSection_diagnostics (s : State) :
    let t := (typeEntries { s.next with forward := [] }).2
    (typeSection s).2.diagnostics =
      t.diagnostics ++ (t.forward.filter (unresolved t.scope)).map Forward.diagnostic :=
  congrArg State.diagnostics (settlement_run _)

end Parser

open MiniPascal.Parser

/-- Problems are recorded at most once for each lexeme, the end of the file included, in the order of the lexemes, whose
positions grow and whose lines do not decrease. All other diagnostics are of pointers without a base: they stand at
identifiers of the source, each at its own, and every type section adds one for each pointer whose base is no type when
the section ends. -/
theorem diagnostics_in_source_order {source : Text} {ds : List Diagnostic} (h : (compile source).result = .error ds) :
    let reported := ds.filter fun d => !d.problem.isPointerBase
    let baseless := ds.filter fun d => d.problem.isPointerBase
    ((reported.map Diagnostic.place).Sublist ((Lexeme.scan source).map Lexeme.place) ∧
      reported.Pairwise (fun d d' => d.pos < d'.pos ∧ d.line ≤ d'.line) ∧
      reported.length ≤ (Lexeme.scan source).length) ∧
    (baseless.Sublist (((Lexeme.scan source).filter (·.token = .identifier)).map Lexeme.lacking) ∧
      baseless.Pairwise fun d d' => d.pos < d'.pos ∧ d.line ≤ d'.line) ∧
    ∀ s, let t := (typeEntries { State.next s with forward := [] }).2
      (typeSection s).2.diagnostics =
        t.diagnostics ++ (t.forward.filter (unresolved t.scope)).map Forward.diagnostic := by
  obtain rfl : (analyse source).2.diagnostics = ds := by
    by_cases hnone : (analyse source).2.diagnostics = []
    · obtain ⟨e, -, -, -, hok⟩ := compile_accepted hnone
      exact nomatch h.symm.trans hok
    · exact Except.error.inj ((compile_refused hnone).symm.trans h)
  obtain ⟨hreports, hawaits⟩ := analyse_reports source
  have hplaces := hreports.sublist
  have hnames := hawaits.sublist
  have hsorted := Lexeme.scan_sorted source
  refine ⟨⟨hplaces, ?_, ?_⟩, ⟨hnames, ?_⟩, typeSection_diagnostics⟩
  · have hmapped : ((Lexeme.scan source).map Lexeme.place).Pairwise fun p q => p.1 < q.1 ∧ p.2 ≤ q.2 :=
      pairwise_map.mpr hsorted
    exact pairwise_map.mp (hmapped.sublist hplaces)
  · have hlength := hplaces.length_le
    rwa [length_map, length_map] at hlength
  · refine List.Pairwise.sublist hnames (pairwise_map.mpr ?_)
    exact hsorted.sublist filter_sublist

/-- A source with three problems, and a pointer without a base before the first of them. -/
def troubledSource : Text := Text.ofChars "program p;type t=^u;a=1..;begin x end.".toList

theorem diagnostics_in_source_order_troubled :
    ∃ ds, (compile troubledSource).result = .error ds ∧ ds.map Diagnostic.pos = [25, 18, 32, 34] ∧
      (ds.filter fun d => !d.problem.isPointerBase).Pairwise fun d d' => d.pos < d'.pos ∧ d.line ≤ d'.line := by
  have hpositions : (analyse troubledSource).2.diagnostics.map Diagnostic.pos = [25, 18, 32, 34] := by decide +kernel
  have h := @compile_refused troubledSource fun hnone => by simp [hnone] at hpositions
  exact ⟨_, h, hpositions, (diagnostics_in_source_order h).1.2.1⟩

end MiniPascal
