import MiniPascal.Proofs.Lexeme.Spelling

/-!
# Scanning reaches the end

Every lexeme but the end of the file takes at least one byte, so the length of a source bounds its
lexemes, and the list of them ends with the end of the file. Each of them starts further on than those before it.
-/

namespace MiniPascal

open List

namespace Cursor

/-- The next lexeme lies ahead. Nothing is left at the end of the file; before it the lexeme takes a byte. -/
theorem next_progress (c : Cursor) : c.pos ≤ c.next.1.pos ∧ c.line ≤ c.next.1.line ∧ c.next.1.line ≤ c.next.2.line ∧
    (c.next.1.token = .endOfFile ∨ c.next.2.rest.length < c.rest.length ∧ c.next.1.pos < c.next.2.pos) := by
  have h := next_reads c
  generalize c.next = r at h ⊢
  cases h with
  | unclosed gap hrest _ =>
    have hlength := congrArg List.length hrest
    rw [length_append, length_cons] at hlength
    exact ⟨by dsimp only; omega, Nat.le_add_right _ _, Nat.le_refl _, .inr ⟨by simp; omega, by dsimp only; omega⟩⟩
  | ended gap hrest => exact ⟨Nat.le_add_right _ _, Nat.le_add_right _ _, Nat.le_refl _, .inl rfl⟩
  | found gap hrest hspells hpos hline =>
    have hlength := congrArg List.length hrest
    have htaken := length_pos_iff.mpr hspells.ne_nil
    rw [length_append, length_append] at hlength
    exact ⟨by dsimp only; omega, by dsimp only; omega, Nat.le_refl _, .inr ⟨by dsimp only; omega, by dsimp only; omega⟩⟩

theorem lexemes_sorted (fuel : Nat) (c : Cursor) : (∀ l ∈ lexemes fuel c, c.pos ≤ l.pos ∧ c.line ≤ l.line) ∧
    (lexemes fuel c).Pairwise fun l l' => l.pos < l'.pos ∧ l.line ≤ l'.line := by
  induction fuel generalizing c with
  | zero => exact ⟨forall_mem_singleton.mpr ⟨(next_progress c).1, (next_progress c).2.1⟩, pairwise_singleton ..⟩
  | succ fuel ih =>
    obtain ⟨hpos, hline, hline', hmore⟩ := next_progress c
    unfold lexemes
    dsimp only
    split
    · exact ⟨forall_mem_singleton.mpr ⟨hpos, hline⟩, pairwise_singleton ..⟩
    · next ht =>
      obtain ⟨hall, hsorted⟩ := ih c.next.2
      have hpos' := (hmore.resolve_left ht).2
      exact ⟨forall_mem_cons.mpr ⟨⟨hpos, hline⟩, fun l hl => by have := hall l hl; omega⟩,
        pairwise_cons.mpr ⟨fun l hl => by have := hall l hl; omega, hsorted⟩⟩

theorem lexemes_getLast (fuel : Nat) (c : Cursor) (h : c.rest.length ≤ fuel) :
    ∃ l ∈ (lexemes fuel c).getLast?, l.token = .endOfFile := by
  induction fuel generalizing c with
  | zero =>
    refine ⟨c.next.1, rfl, ?_⟩
    exact (next_progress c).2.2.2.resolve_right (by omega)
  | succ fuel ih =>
    unfold lexemes
    dsimp only
    split
    · next ht => exact ⟨c.next.1, rfl, ht⟩
    · next ht =>
      have hlt := ((next_progress c).2.2.2.resolve_left ht).1
      obtain ⟨l, hl, hend⟩ := ih c.next.2 (by omega)
      refine ⟨l, ?_, hend⟩
      rw [List.getLast?_cons, Option.mem_def.mp hl]
      rfl

end Cursor

theorem Lexeme.scan_getLast (source : Text) : ∃ l ∈ (scan source).getLast?, l.token = .endOfFile :=
  Cursor.lexemes_getLast source.length { rest := source } (Nat.le_refl _)

theorem Lexeme.scan_sorted (source : Text) : (scan source).Pairwise fun l l' => l.pos < l'.pos ∧ l.line ≤ l'.line :=
  (Cursor.lexemes_sorted source.length { rest := source }).2

end MiniPascal
