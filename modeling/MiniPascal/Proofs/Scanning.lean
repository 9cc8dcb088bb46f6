import Mathlib.Algebra.GroupWithZero.Nat
import MiniPascal.Proofs.Lexeme.Progress
import MiniPascal.Proofs.Lexeme.Written

/-!
# The scanner tiles the source

Every call of the scanner takes blanks and closed comments and then the bytes of one lexeme, so that the calls cut the
source into pieces without a rest. The line of a lexeme counts the newlines before it. A number is taken to its end: no
longer start of what is left to read is a number.
-/

namespace MiniPascal

open List

open Lexeme

theorem Lexeme.Spells.oneLine {bytes : Text} {r : Token × Text × Option Datum} (h : Spells bytes r) : 10 ∉ bytes := by
  have hsymbol : ∀ t ∈ Token.symbols, 10 ∉ Text.ofChars t.spelling := by decide
  have hdoubled {contents : Text} (h : 10 ∉ contents) : 10 ∉ doubled contents := by
    simp only [doubled, mem_flatMap, not_exists, not_and]
    intro b hb hmem
    split at hmem
    · simp at hmem
    · exact h (mem_singleton.mp hmem ▸ hb)
  cases h with
  | word hfirst hrest =>
    refine not_mem_cons_of_ne_of_not_mem ?_ fun h => absurd (hrest 10 h) (by decide)
    rintro rfl
    exact absurd hfirst (by decide)
  | number n => exact fun h => absurd (Numeral.mem_text h) (by decide)
  | string h => simpa using hdoubled h
  | openString h => exact not_mem_cons_of_ne_of_not_mem (by decide) (hdoubled h)
  | symbol ht => exact hsymbol _ ht
  | stray hb =>
    rw [mem_singleton]
    rintro rfl
    exact absurd hb.notBlank (by decide)

theorem Lexeme.Spells.token_ne {bytes text : Text} {token : Token} {value : Option Datum}
    (h : Spells bytes (token, text, value)) : token ≠ .endOfFile ∧ token ≠ .unclosedComment := by
  have hword : ∀ t ∈ Token.identifier :: Token.words, t ≠ .endOfFile ∧ t ≠ .unclosedComment := by decide
  have hsymbol : ∀ t ∈ Token.symbols, t ≠ .endOfFile ∧ t ≠ .unclosedComment := by decide
  cases h with
  | word => exact hword _ (Token.ofWord_mem _)
  | number n =>
    unfold Numeral.found
    split
    · split <;> exact ⟨nofun, nofun⟩
    · exact ⟨nofun, nofun⟩
  | symbol ht => exact hsymbol _ ht
  | _ => exact ⟨nofun, nofun⟩

namespace Cursor

variable {source before : Text} {c : Cursor}

/-- A place in a source. What comes before it counts in its position and in its line. -/
structure Within (source before : Text) (c : Cursor) : Prop where
  text : source = before ++ c.rest
  pos : c.pos = before.length
  line : c.line = 1 + before.count 10

theorem Within.next (h : Within source before c) : ∃ before, Within source before c.next.2 := by
  obtain ⟨htext, hpos, hline⟩ := h
  have hreads := next_reads c
  generalize c.next = r at hreads ⊢
  cases hreads with
  | unclosed | ended =>
    exact ⟨source, (append_nil _).symm, by simp [htext, hpos], by simp [htext, hline, count_append, Nat.add_assoc]⟩
  | found gap hrest hspells hlpos hlline =>
    rename_i bytes tail l
    refine ⟨before ++ (gap.flatMap Piece.text ++ bytes), by simp [htext, hrest], ?_, ?_⟩
    · rw [length_append, length_append, ← Nat.add_assoc, ← hpos, ← hlpos]
    · rw [count_append, count_append, count_eq_zero.mpr hspells.oneLine, Nat.add_zero, ← Nat.add_assoc,
        ← hline, ← hlline]

theorem after_within (h : Within source before c) (n : Nat) : ∃ before, Within source before (after n c) := by
  induction n generalizing before c with
  | zero => exact ⟨before, h⟩
  | succ n ih =>
    obtain ⟨before, h⟩ := h.next
    exact ih h

/-- What a call of the scanner takes from a source at a place. -/
structure Tiles (source before : Text) (c : Cursor) (l : Lexeme) (c' : Cursor) : Prop where
  within : Within source before c
  bounded : c'.pos ≤ source.length
  /-- Blanks and closed comments, then the bytes of the lexeme. -/
  covers : l.token ≠ .unclosedComment → ∃ (gap : List Piece) (bytes : Text),
    c.rest = gap.flatMap Piece.text ++ (bytes ++ c'.rest) ∧ l.pos = c.pos + (gap.flatMap Piece.text).length ∧
    c'.pos = l.pos + bytes.length ∧ l.line = 1 + (before ++ gap.flatMap Piece.text).count 10 ∧
    if l.token = .endOfFile then bytes = [] ∧ c'.rest = [] else bytes ≠ [] ∧ Spells bytes l.reading
  unclosed : l.token = .unclosedComment ↔
    ∃ (gap : List Piece) (body : Text), c.rest = gap.flatMap Piece.text ++ 123 :: body ∧ 125 ∉ body
  exhausts : l.token = .unclosedComment → c'.rest = [] ∧ c'.pos = source.length

theorem skip_unclosed {body : Text} (h : 125 ∉ body) (pos line : Nat) : (skip true body pos line).1 = true := by
  induction body generalizing pos line with
  | nil => rfl
  | cons b body ih =>
    have hb : b ≠ 125 := fun heq => h (heq ▸ mem_cons_self)
    simpa [skip, hb] using ih (fun hmem => h (mem_cons_of_mem b hmem)) _ _

theorem next_unclosed {gap : List Piece} {body : Text} (hrest : c.rest = gap.flatMap Piece.text ++ 123 :: body)
    (h : 125 ∉ body) : c.next.1.token = .unclosedComment := by
  obtain ⟨pos, line, hskip⟩ := skip_pieces gap (123 :: body) c.pos c.line
  have hcomment : skip false (123 :: body) pos line = skip true body (pos + 1) line := by simp [skip]
  unfold next
  rw [hrest, hskip, hcomment]
  dsimp only
  rw [if_pos (skip_unclosed h _ _)]

theorem Within.tiles (h : Within source before c) : Tiles source before c c.next.1 c.next.2 := by
  have hunclosed (gap : List Piece) (body : Text) (hrest : c.rest = gap.flatMap Piece.text ++ 123 :: body)
      (hbody : 125 ∉ body) := next_unclosed hrest hbody
  have hreads := next_reads c
  have hlength : source.length = c.pos + c.rest.length := by rw [h.text, length_append, h.pos]
  have hcount (t : Text) : c.line + t.count 10 = 1 + (before ++ t).count 10 := by
    rw [count_append, ← Nat.add_assoc, h.line]
  generalize c.next = r at hreads hunclosed ⊢
  cases hreads with
  | unclosed gap hrest hbody =>
    exact ⟨h, Nat.le_of_eq hlength.symm, fun hne => absurd rfl hne, ⟨fun _ => ⟨gap, _, hrest, hbody⟩, fun _ => rfl⟩,
      fun _ => ⟨rfl, hlength.symm⟩⟩
  | ended gap hrest =>
    refine ⟨h, Nat.le_of_eq hlength.symm, fun _ => ⟨gap, [], ?_, ?_, rfl, ?_, rfl, rfl⟩,
      ⟨nofun, fun ⟨gap, body, hrest, hbody⟩ => hunclosed gap body hrest hbody⟩, nofun⟩
    · simpa using hrest
    · dsimp only
      rw [hrest]
    · dsimp only
      rw [hcount, hrest]
  | found gap hrest hspells hpos hline =>
    obtain ⟨hend, hcomment⟩ := hspells.token_ne
    refine ⟨h, ?_, fun _ => ⟨gap, _, hrest, hpos, rfl, hline.trans (hcount _), ?_⟩,
      ⟨fun h => absurd h hcomment, fun ⟨gap, body, hrest, hbody⟩ => hunclosed gap body hrest hbody⟩,
      fun h => absurd h hcomment⟩
    · rw [hlength, hrest, length_append, length_append]
      dsimp only
      omega
    · rw [if_neg hend]
      exact ⟨hspells.ne_nil, hspells⟩

theorem after_add (m n : Nat) (c : Cursor) : after (m + n) c = after n (after m c) := by
  induction m generalizing c with
  | zero => rw [Nat.zero_add]; rfl
  | succ m ih => rw [Nat.add_right_comm]; exact ih c.next.2

theorem next_after_of_end (h : c.next.1.token = .endOfFile) (n : Nat) : (after n c).next = c.next := by
  induction n generalizing c with
  | zero => rfl
  | succ n ih =>
    have hend : c.next.2.next = c.next := by
      have hreads := next_reads c
      generalize c.next = r at h hreads ⊢
      cases hreads with
      | unclosed => cases h
      | ended gap hrest => rfl
      | found _ _ hspells => exact absurd h hspells.token_ne.1
    exact (ih (by rw [hend]; exact h)).trans hend

theorem exists_end (c : Cursor) : ∃ n ≤ c.rest.length, (∀ k < n, (after k c).next.1.token ≠ .endOfFile) ∧
    (after n c).next.1.token = .endOfFile := by
  generalize hlength : c.rest.length = size
  induction size using Nat.strongRecOn generalizing c with
  | ind size ih =>
    by_cases h : c.next.1.token = .endOfFile
    · exact ⟨0, Nat.zero_le _, nofun, h⟩
    · have hlt := ((next_progress c).2.2.2.resolve_left h).1
      obtain ⟨n, hn, hbefore, hend⟩ := ih _ (hlength ▸ hlt) c.next.2 rfl
      refine ⟨n + 1, by omega, fun k hk => ?_, hend⟩
      cases k with
      | zero => exact h
      | succ k => exact hbefore k (by omega)

/-- The calls of the scanner tile a source, and after no more of them than there are bytes each gives the end of the file. -/
theorem scanner_tiles (source : Text) :
    (∀ n, ∃ before, Tiles source before (after n { rest := source }) (after n { rest := source }).next.1
      (after (n + 1) { rest := source })) ∧
    ∃ n ≤ source.length, (∀ k < n, (after k { rest := source }).next.1.token ≠ .endOfFile) ∧
      ∀ k, (after (n + k) { rest := source }).next.1 = (after n { rest := source }).next.1 ∧
        (after (n + k) { rest := source }).next.1.token = .endOfFile := by
  constructor
  · intro n
    obtain ⟨before, h⟩ := @after_within source [] { rest := source } ⟨rfl, rfl, rfl⟩ n
    refine ⟨before, ?_⟩
    rw [after_add]
    exact h.tiles
  · obtain ⟨n, hn, hbefore, hend⟩ := exists_end { rest := source }
    refine ⟨n, hn, hbefore, fun k => ?_⟩
    rw [after_add, next_after_of_end hend]
    exact ⟨rfl, hend⟩

/-! ## Numbers -/

theorem next_number {gap : List Piece} {b : UInt8} {rest : Text} (hrest : c.rest = gap.flatMap Piece.text ++ b :: rest)
    (hb : Text.isDigit b = true) : ∃ n : Numeral, b :: rest = n.text ++ c.next.2.rest ∧
      (matchNumber (b :: rest)).length = n.text.length ∧ c.next.1.reading = (n.found.token, n.text, n.found.value) := by
  obtain ⟨n, tail, htext, hfound⟩ := exists_numeral hb rest
  obtain ⟨pos, line, hskip⟩ := skip_pieces gap (b :: rest) c.pos c.line
  obtain ⟨hblank, hcomment⟩ := not_blank_of_letter_or_digit (.inr hb)
  have hstart : skip false (b :: rest) pos line = (false, ⟨b :: rest, pos, line⟩) := by simp [skip, hblank, hcomment]
  have hdrop : (b :: rest).drop n.text.length = tail := by rw [← htext, drop_left]
  refine ⟨n, ?_, by rw [hfound, n.found_length], ?_⟩
  all_goals
    unfold next
    rw [hrest, hskip, hstart]
    dsimp only
    rw [if_neg Bool.false_ne_true, matchAt_digit hb, hfound]
  · rw [n.found_length, hdrop, htext]
  · rw [reading, n.found_text]

/-- Where digits are followed neither by a fraction nor by an exponent, they are all there is of a number. -/
theorem matchNumber_digits (d : Digits) {tail : Text} (hdigit : ¬StartsWithDigit tail)
    (hfraction : ∀ f : Digits, ¬46 :: f.text <+: tail) (hexponent : ∀ e : Exponent, ¬e.text <+: tail) :
    (matchNumber (d.text ++ tail)).length = d.text.length := by
  have hwhole : ((d.text ++ tail).takeWhile Text.isDigit).length = d.text.length :=
    (Nat.eq_or_lt_of_le (digits_le d tail).1).elim Eq.symm fun h => absurd ((digits_le d tail).2 h) hdigit
  have hnofraction : fractionLength tail = 0 := by
    obtain ⟨_ | f, htext, hlength⟩ := exists_fraction tail
    · exact hlength.symm
    · exact absurd ⟨_, htext⟩ (hfraction f)
  have hnoexponent : exponentLength tail = 0 := by
    obtain ⟨_ | e, htext, hlength⟩ := exists_exponent tail
    · exact hlength.symm
    · exact absurd ⟨_, htext⟩ (hexponent e)
  rw [matchNumber_length, hwhole, drop_left, hnofraction, Nat.add_zero, drop_left, hnoexponent, Nat.add_zero]

/-- A number is the longest start of what is left to read that is one. It is real if it has a fraction or an exponent, and
an integer if its value is not too large. Where digits are followed by neither, what follows is left to read. -/
theorem number_longest {gap : List Piece} {b : UInt8} {rest : Text}
    (hrest : c.rest = gap.flatMap Piece.text ++ b :: rest) (hb : Text.isDigit b = true) :
    ∃ n : Numeral, b :: rest = n.text ++ c.next.2.rest ∧ c.next.1.text = n.text ∧
      (∀ m : Numeral, m.text <+: b :: rest → m.text.length ≤ n.text.length) ∧
      (c.next.1.token = .realLiteral ↔ n.fraction.isSome = true ∨ n.exponent.isSome = true) ∧
      (n.fraction = none → n.exponent = none →
        if Text.digitsValue n.text ≤ 2 ^ 31 - 1 then
          c.next.1.token = .integerLiteral ∧ c.next.1.value = some (.integer (Int64.ofNat (Text.digitsValue n.text)))
        else c.next.1.token = .unknown) ∧
      ∀ (d : Digits) (tail : Text), b :: rest = d.text ++ tail → ¬StartsWithDigit tail →
        (∀ f : Digits, ¬46 :: f.text <+: tail) → (∀ e : Exponent, ¬e.text <+: tail) → c.next.2.rest = tail := by
  obtain ⟨n, htext, hlength, hreading⟩ := next_number hrest hb
  simp only [reading, Prod.mk.injEq] at hreading
  obtain ⟨htoken, hn, hvalue⟩ := hreading
  refine ⟨n, htext, hn, ?_, ?_, ?_, ?_⟩
  · rintro m ⟨tail, hm⟩
    rw [← hlength, ← hm]
    exact m.length_le tail
  · have hwhole : n.isWhole = true ↔ ¬(n.fraction.isSome = true ∨ n.exponent.isSome = true) := by simp [Numeral.isWhole]
    rw [htoken, Numeral.found]
    split
    · next h => split <;> exact iff_of_false (by simp) (hwhole.mp h)
    · next h => exact iff_of_true rfl (Decidable.not_not.mp (mt hwhole.mpr h))
  · intro hf he
    have hwhole : n.isWhole = true := by simp [Numeral.isWhole, hf, he]
    rw [htoken, hvalue, Numeral.found, if_pos hwhole]
    show if Text.digitsValue n.text ≤ maxInteger then _ else _
    split
    · exact ⟨rfl, rfl⟩
    · rfl
  · intro d tail hd hdigit hfraction hexponent
    rw [hd, matchNumber_digits d hdigit hfraction hexponent] at hlength
    exact (append_inj (htext.symm.trans hd) hlength.symm).2

/-- A fraction is taken, and the mark of an exponent without digits is left. -/
theorem number_longest_cut :
    let c : Cursor := { rest := Text.ofString " 7.5e-x" }
    c.rest = [Piece.blank 32 rfl].flatMap Piece.text ++ 55 :: Text.ofString ".5e-x" ∧ Text.isDigit 55 = true ∧
      c.next.2.rest = Text.ofString "e-x" ∧ ∃ n : Numeral, 55 :: Text.ofString ".5e-x" = n.text ++ c.next.2.rest ∧
        ∀ m : Numeral, m.text <+: 55 :: Text.ofString ".5e-x" → m.text.length ≤ n.text.length := by
  intro c
  have hrest : c.rest = [Piece.blank 32 rfl].flatMap Piece.text ++ 55 :: Text.ofString ".5e-x" := by decide
  obtain ⟨n, htext, -, hlongest, -⟩ := number_longest (b := 55) hrest (by decide)
  exact ⟨hrest, by decide, by decide, n, htext, hlongest⟩

end Cursor

end MiniPascal
