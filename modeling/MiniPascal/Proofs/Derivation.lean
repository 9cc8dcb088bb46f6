import MiniPascal.Proofs.Compile
import MiniPascal.Proofs.Grammar.Declaration

/-!
# Accepted sources are sentences

Whatever the analysis does to go on after a problem, no error in the syntax of a source goes unreported: the
tokens of an accepted source can be derived from the grammar.
-/

namespace MiniPascal

theorem Cursor.lexemes_endOfFile {fuel : Nat} {c : Cursor} {before after : List Token}
    (h : (lexemes fuel c).map (·.token) = before ++ .endOfFile :: after) : after = [] := by
  induction fuel generalizing c before with
  | zero =>
    unfold lexemes at h
    cases before with
    | nil => exact (List.cons.inj h).2.symm
    | cons t before => simp at h
  | succ fuel ih =>
    unfold lexemes at h
    dsimp only at h
    cases before with
    | nil =>
      split at h
      · exact (List.cons.inj h).2.symm
      · next hne => exact absurd (List.cons.inj h).1 hne
    | cons t before =>
      split at h
      · simp at h
      · exact ih (List.cons.inj h).2

namespace Parser

open State Ebnf

/-- The analysis of a source starts with all its tokens, unless one of the first is reported. -/
theorem ofSource_viable (source : Text) : (ofSource source).Viable := by
  obtain ⟨l, rest, hscan, hadv, hsame⟩ := ofSource_start (n := 0) source
  refine Viable.reads (viable_builtins rfl ?_ rfl rfl) hadv hsame
  unfold Ended
  rw [show ({ current := l, rest } : State).lexemes = Lexeme.scan source from hscan.symm]
  exact Lexeme.scan_getLast source

theorem tokens_ofSource {source : Text} (hclean : (ofSource source).Clean) :
    (ofSource source).tokens = (Lexeme.scan source).map (·.token) := by
  obtain ⟨l, rest, hscan, -⟩ := ofSource_start (n := 0) source
  unfold ofSource at hclean ⊢
  rw [hscan] at hclean ⊢
  exact congrArg (List.map (·.token)) (lexemes_view (fun _ => rfl) hclean.diagnostics)

/-- If nothing is wrong with a source, its tokens are a program and the end of the file. -/
theorem analyse_derivable {source : Text} (h : (analyse source).2.diagnostics = []) :
    ∃ w, (Lexeme.scan source).map (·.token) = w ++ [.endOfFile] ∧ Derives (rule .program) w := by
  have hexhausted := analyse_not_exhausted source
  rw [analyse_run] at h hexhausted
  have hclean : (program (ofSource source)).2.Clean := ⟨h, hexhausted⟩
  have hstart := tokens_ofSource ((program_moves (n := 0) (ofSource source)).1.clean hclean)
  obtain ⟨-, hhead, w, hw, hd⟩ :=
    (program_ensures (K := fun l => l = (Lexeme.scan source).map (·.token))).holds _ (ofSource_viable source) hstart hclean
  refine ⟨w, ?_, hd⟩
  obtain ⟨after, hleft⟩ := List.head?_eq_some_iff.mp hhead
  rw [hleft] at hw
  rw [← hw, Cursor.lexemes_endOfFile hw.symm]

end Parser

/-- The tokens of an accepted source are a program of the grammar and the end of the file. -/
theorem compile_derivable {source : Text} {p : Program} (h : (compile source).result = .ok p) :
    ∃ w, (Lexeme.scan source).map (·.token) = w ++ [.endOfFile] ∧ Derives (.rule .program) w := by
  refine Parser.analyse_derivable ?_
  by_contra hne
  rw [compile_refused hne] at h
  cases h

/-- A source with sections without entries, a sign before a string and a semicolon after the last field. -/
def sparseSource : Text := Text.ofChars
  (["program p(input, output); const type var const c = +'x'; ", "type t = record a, b: ^t; d: array['a'..c] of char; end; ",
    "var v: t; begin v.d['b'] := c; if v.a = nil then begin end else; ", "repeat until true end."].flatMap String.toList)

theorem compile_derivable_sparse : ∃ p, (compile sparseSource).result = .ok p ∧
    ∃ w, (Lexeme.scan sparseSource).map (·.token) = w ++ [.endOfFile] ∧ Derives (.rule .program) w := by
  have haccepted : (analyse sparseSource).2.diagnostics = [] := by decide +kernel
  obtain ⟨e, -, -, -, hresult⟩ := compile_accepted haccepted
  exact ⟨_, hresult, compile_derivable hresult⟩

end MiniPascal
