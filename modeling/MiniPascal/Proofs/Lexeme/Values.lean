import MiniPascal.Proofs.Lexeme.Progress
import MiniPascal.Proofs.Parser.Grounded

/-!
# Values of lexemes

A lexeme that is a number carries its value, and integers are at most the largest integer. There are no
more lexemes than bytes, the end of the file apart.
-/

namespace MiniPascal

namespace Lexeme

/-- A number carries its value. -/
theorem Spells.valued {bytes text : Text} {token : Token} {value : Option Datum} (h : Spells bytes (token, text, value)) :
    (token = .integerLiteral → ∃ n ≤ maxInteger, value = some (.integer (Int64.ofNat n))) ∧
      (token = .realLiteral → ∃ x, value = some (.real x)) := by
  have hword : ∀ t ∈ Token.identifier :: Token.words, t ≠ .integerLiteral ∧ t ≠ .realLiteral := by decide
  have hsymbol : ∀ t ∈ Token.symbols, t ≠ .integerLiteral ∧ t ≠ .realLiteral := by decide
  cases h with
  | word =>
    obtain ⟨hinteger, hreal⟩ := hword _ (Token.ofWord_mem _)
    exact ⟨fun h => absurd h hinteger, fun h => absurd h hreal⟩
  | number n =>
    unfold Numeral.found
    split
    · split
      · next hle => exact ⟨fun _ => ⟨_, hle, rfl⟩, nofun⟩
      · exact ⟨nofun, nofun⟩
    · exact ⟨nofun, fun _ => ⟨_, rfl⟩⟩
  | symbol ht => exact ⟨fun h => absurd h (hsymbol _ ht).1, fun h => absurd h (hsymbol _ ht).2⟩
  | _ => exact ⟨nofun, nofun⟩

end Lexeme

namespace Cursor

theorem next_regular {exact : Prop} (c : Cursor) (h : exact → c.next.1.token ≠ .caret) : c.next.1.Regular exact := by
  suffices hvalue : (c.next.1.token = .integerLiteral →
      ∃ n ≤ Lexeme.maxInteger, c.next.1.value = some (.integer (Int64.ofNat n))) ∧
      (c.next.1.token = .realLiteral → ∃ x, c.next.1.value = some (.real x)) by
    refine ⟨fun ht => ?_, fun ht => ?_, h⟩
    · obtain ⟨n, hn, hv⟩ := hvalue.1 ht
      unfold Lexeme.maxInteger at hn
      refine ⟨Int64.ofNat n, by rw [hv]; rfl, ?_⟩
      show -2 ^ 48 < (Int64.ofNat n).toInt ∧ (Int64.ofNat n).toInt < 2 ^ 48
      rw [Word.toInt_ofNat (by omega)]
      omega
    · obtain ⟨x, hv⟩ := hvalue.2 ht
      exact ⟨x, by rw [hv]; rfl⟩
  have hreads := next_reads c
  generalize c.next = r at hreads ⊢
  cases hreads with
  | found _ _ hspells => exact hspells.valued
  | _ => exact ⟨nofun, nofun⟩

theorem lexemes_regular {exact : Prop} (fuel : Nat) (c : Cursor)
    (h : exact → ∀ l ∈ lexemes fuel c, l.token ≠ .caret) : ∀ l ∈ lexemes fuel c, l.Regular exact := by
  induction fuel generalizing c with
  | zero =>
    intro l hl
    rw [lexemes, List.mem_singleton] at hl
    exact hl ▸ next_regular c fun hx => h hx _ (by simp [lexemes])
  | succ fuel ih =>
    unfold lexemes at h ⊢
    dsimp only at h ⊢
    split
    · next ht =>
      rw [if_pos ht] at h
      intro l hl
      rw [List.mem_singleton] at hl
      exact hl ▸ next_regular c fun hx => h hx _ (by simp)
    · next ht =>
      rw [if_neg ht] at h
      intro l hl
      rcases List.mem_cons.mp hl with rfl | hl
      · exact next_regular c fun hx => h hx _ (by simp)
      · exact ih c.next.2 (fun hx l hl => h hx l (List.mem_cons_of_mem _ hl)) l hl

theorem length_lexemes (fuel : Nat) (c : Cursor) : (lexemes fuel c).length ≤ fuel + 1 := by
  induction fuel generalizing c with
  | zero => simp [lexemes]
  | succ fuel ih =>
    unfold lexemes
    dsimp only
    split
    · simp
    · have := ih c.next.2
      simp only [List.length_cons]
      omega

end Cursor

/-- The lexemes of a source are regular, and exact if none of them is a caret. -/
theorem Lexeme.scan_regular {exact : Prop} {source : Text}
    (h : exact → ∀ l ∈ scan source, l.token ≠ .caret) : ∀ l ∈ scan source, l.Regular exact :=
  Cursor.lexemes_regular _ _ h

theorem Lexeme.length_scan (source : Text) : (scan source).length ≤ source.length + 1 :=
  Cursor.length_lexemes _ _

end MiniPascal
