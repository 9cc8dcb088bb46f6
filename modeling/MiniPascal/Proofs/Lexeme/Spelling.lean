import MiniPascal.Proofs.Lexeme.Numbers

/-!
# What is read at a place

From a place in a source the scanner goes over blanks and closed comments. Then it finds a lexeme in one of its
spellings, a comment that is never closed, or the end of the file.
-/

namespace MiniPascal

open List Text Token

theorem Token.ofWord_mem (word : Text) : ofWord word ∈ identifier :: words := by
  unfold ofWord
  cases h : words.find? fun t => ofChars t.spelling == word with
  | none => exact mem_cons_self
  | some t => exact mem_cons_of_mem _ (mem_of_find?_eq_some h)

namespace Lexeme

/-- What may stand between lexemes. -/
inductive Piece where
  | blank (b : UInt8) (isBlank : isBlank b = true)
  | comment (body : Text) (notClosed : 125 ∉ body)

def Piece.text : Piece → Text
  | .blank b _ => [b]
  | .comment body _ => 123 :: body ++ [125]

/-- Contents of a string with every quote written twice. -/
def doubled (contents : Text) : Text := contents.flatMap fun b => if b = 39 then [39, 39] else [b]

def reading (l : Lexeme) : Token × Text × Option Datum := (l.token, l.text, l.value)

/-- A byte with which no lexeme starts, and that cannot be skipped. -/
structure Stray (b : UInt8) : Prop where
  notBlank : isBlank b = false
  notComment : b ≠ 123
  notWord : isLetter b = false
  notNumber : isDigit b = false
  notString : b ≠ 39
  notSymbol : ∀ t ∈ symbols, (ofChars t.spelling).head? ≠ some b

/-- The bytes of a lexeme, and what they stand for. -/
inductive Spells : Text → Token × Text × Option Datum → Prop
  | word {first : UInt8} {rest : Text} (isLetter : isLetter first = true)
      (isLetterOrDigit : ∀ b ∈ rest, (Text.isLetter b || Text.isDigit b) = true) :
      Spells (first :: rest) (ofWord ((first :: rest).map toLower), (first :: rest).map toLower, none)
  | number (n : Numeral) : Spells n.text (n.found.token, n.text, n.found.value)
  | string {contents : Text} (oneLine : 10 ∉ contents) :
      Spells (39 :: doubled contents ++ [39]) (.stringLiteral, contents, none)
  | openString {contents : Text} (oneLine : 10 ∉ contents) : Spells (39 :: doubled contents) (.unknown, contents, none)
  | symbol {t : Token} (isSymbol : t ∈ symbols) : Spells (ofChars t.spelling) (t, [], none)
  | stray {b : UInt8} (isStray : Stray b) : Spells [b] (.unknown, encodeByte b, none)

theorem Spells.ne_nil {bytes : Text} {r : Token × Text × Option Datum} (h : Spells bytes r) : bytes ≠ [] := by
  have hsymbol : ∀ t ∈ symbols, ofChars t.spelling ≠ [] := by decide
  cases h with
  | number n => exact fun h => n.whole.ne_nil (append_eq_nil_iff.mp h).1
  | symbol ht => exact hsymbol _ ht
  | _ => exact cons_ne_nil _ _

/-! ## Lexemes -/

/-- A match takes bytes from the start of a text that spell what is found. -/
def Match.Taken (m : Match) (t : Text) : Prop :=
  ∃ bytes rest, t = bytes ++ rest ∧ m.length = bytes.length ∧ Spells bytes (m.token, m.text, m.value)

variable {b : UInt8} {t rest : Text}

theorem matchWord_taken (h : isLetter b = true) (rest : Text) : (matchWord (b :: rest)).Taken (b :: rest) := by
  have hrun : ((b :: rest).takeWhile fun b => isLetter b || isDigit b) =
      b :: rest.takeWhile fun b => isLetter b || isDigit b := takeWhile_cons_of_pos (by rw [h]; rfl)
  refine ⟨_, _, (takeWhile_append_drop _ (b :: rest)).symm, rfl, ?_⟩
  unfold matchWord
  dsimp only
  rw [hrun]
  exact .word h (all_eq_true.mp all_takeWhile)

theorem matchNumber_taken (h : isDigit b = true) (rest : Text) : (matchNumber (b :: rest)).Taken (b :: rest) := by
  obtain ⟨n, tail, htext, hfound⟩ := exists_numeral h rest
  rw [hfound]
  exact ⟨n.text, tail, htext.symm, n.found_length, n.found_text ▸ .number n⟩

/-- The inside of a string is its contents, up to the end of the line or with the closing quote. -/
theorem stringContents_taken (t : Text) : ∃ rest, 10 ∉ (stringContents t).2.1 ∧
    t = doubled (stringContents t).2.1 ++ (if (stringContents t).1 then [39] else []) ++ rest ∧
    (stringContents t).2.2 = (doubled (stringContents t).2.1 ++ if (stringContents t).1 then [39] else []).length := by
  fun_induction stringContents t with
  | case1 => exact ⟨[], by simp [doubled]⟩
  | case2 rest closed contents n h ih =>
    rw [h] at ih
    obtain ⟨tail, hline, htext, hlength⟩ := ih
    refine ⟨tail, by simpa using hline, ?_, ?_⟩
    · simp only [doubled, flatMap_cons] at htext ⊢
      simp [← htext]
    · simp only [doubled, flatMap_cons] at hlength ⊢
      simp [hlength]
  | case3 rest => exact ⟨rest, by simp [doubled]⟩
  | case4 rest => exact ⟨10 :: rest, by simp [doubled]⟩
  | case5 b rest hb hquote hnewline closed contents n h ih =>
    rw [h] at ih
    obtain ⟨tail, hline, htext, hlength⟩ := ih
    refine ⟨tail, by simpa using ⟨Ne.symm hnewline, hline⟩, ?_, ?_⟩
    · simp only [doubled, flatMap_cons, if_neg hquote] at htext ⊢
      simp [← htext]
    · simp only [doubled, flatMap_cons, if_neg hquote] at hlength ⊢
      simp [hlength]

theorem matchString_taken (rest : Text) : (matchString rest).Taken (39 :: rest) := by
  obtain ⟨tail, hline, htext, hlength⟩ := stringContents_taken rest
  refine ⟨39 :: (doubled _ ++ _), tail, congrArg (39 :: ·) htext, congrArg (· + 1) hlength, ?_⟩
  unfold matchString
  dsimp only
  split
  · exact .string hline
  · rw [append_nil]
    exact .openString hline

theorem eq_byte_of_char {c : Char} (h : Char.ofNat b.toNat = c) : b = byte c := by
  have hlt := b.toNat_lt
  subst h
  rw [Char.ofNat, dif_pos (.inl (by omega))]
  exact UInt8.ofNat_toNat.symm

theorem matchSymbol_taken (h : (∀ t ∈ symbols, (ofChars t.spelling).head? ≠ some b) → Stray b)
    (rest : Text) : (matchSymbol b rest).Taken (b :: rest) := by
  have hfirst : ∀ t ∈ symbols, ∀ b ∈ (ofChars t.spelling).head?,
      Char.ofNat b.toNat ∈ "+-*/=()[],;^:.><".toList := by decide +kernel
  have one {t : Token} (ht : t ∈ symbols) (hb : [b] = ofChars t.spelling) :
      Match.Taken { token := t } (b :: rest) := ⟨[b], rest, rfl, rfl, hb ▸ .symbol ht⟩
  have two {t : Token} {c : UInt8} {m : Match} (ht : t ∈ symbols) (hb : [b, c] = ofChars t.spelling)
      (hm : m.Taken (b :: rest)) :
      (if rest.head? = some c then { token := t, length := 2 } else m : Match).Taken (b :: rest) := by
    split
    · next hhead =>
      obtain ⟨rest, rfl⟩ := List.head?_eq_some_iff.mp hhead
      exact ⟨[b, c], rest, rfl, rfl, hb ▸ .symbol ht⟩
    · exact hm
  unfold matchSymbol
  dsimp only
  split
  case h_17 =>
    refine ⟨[b], rest, rfl, rfl, .stray (h fun t ht hhead => ?_)⟩
    have := hfirst t ht b hhead
    simp_all
  all_goals
    next hb =>
      obtain rfl := eq_byte_of_char hb
      first
        | exact one (by decide) rfl
        | exact two (by decide) rfl (one (by decide) rfl)
        | exact two (by decide) rfl (two (by decide) rfl (one (by decide) rfl))

theorem matchAt_taken (h : isBlank b = false ∧ b ≠ 123) (rest : Text) : (matchAt b rest).Taken (b :: rest) := by
  unfold matchAt
  split
  · next hletter => exact matchWord_taken hletter rest
  split
  · next hdigit => exact matchNumber_taken hdigit rest
  split
  · next hquote => exact hquote ▸ matchString_taken rest
  · next hletter hdigit hquote =>
    exact matchSymbol_taken (⟨h.1, h.2, by simpa using hletter, by simpa using hdigit, hquote, ·⟩) rest

end Lexeme

namespace Cursor

open Lexeme

variable {t : Text} {pos line : Nat} {r : Bool × Cursor}

/-! ## Blanks and comments -/

/-- What is skipped from a place on: blanks and comments, up to something else or into a comment that is never closed. -/
def Skips (t : Text) (pos line : Nat) (r : Bool × Cursor) : Prop :=
  ∃ gap : List Piece,
    (∃ body, t = gap.flatMap Piece.text ++ 123 :: body ∧ 125 ∉ body ∧
      r = (true, ⟨[], pos + t.length, line + t.count 10⟩)) ∨
    ∃ rest, t = gap.flatMap Piece.text ++ rest ∧ (∀ b ∈ rest.head?, isBlank b = false ∧ b ≠ 123) ∧
      r = (false, ⟨rest, pos + (gap.flatMap Piece.text).length, line + (gap.flatMap Piece.text).count 10⟩)

theorem Skips.piece (p : Piece) (h : Skips t (pos + p.text.length) (line + p.text.count 10) r) :
    Skips (p.text ++ t) pos line r := by
  obtain ⟨gap, ⟨body, rfl, hbody, rfl⟩ | ⟨rest, rfl, hrest, rfl⟩⟩ := h
  · exact ⟨p :: gap, .inl ⟨body, by simp, hbody, by simp [count_append, Nat.add_assoc]⟩⟩
  · exact ⟨p :: gap, .inr ⟨rest, by simp, hrest, by simp [count_append, Nat.add_assoc]⟩⟩

theorem skip_skips (t : Text) (pos line : Nat) : Skips t pos line (skip false t pos line) := by
  -- Inside a comment the part of it that was read so far comes before the text.
  suffices h : Skips t pos line (skip false t pos line) ∧ ∀ read : Text, 125 ∉ read →
      Skips (123 :: read ++ t) pos line (skip true t (pos + 1 + read.length) (line + read.count 10)) from h.1
  induction t generalizing pos line with
  | nil =>
    refine ⟨⟨[], .inr ⟨[], rfl, nofun, rfl⟩⟩, fun read hread => ⟨[], .inl ⟨read, append_nil _, hread, ?_⟩⟩⟩
    simp [skip, Nat.add_assoc, Nat.add_comm 1]
  | cons b t ih =>
    have hnewline (n : Nat) (u : Text) : (if b = 10 then n + 1 else n) + u.count 10 = n + (b :: u).count 10 := by
      rw [count_cons]
      split <;> simp_all
      omega
    refine ⟨?_, fun read hread => ?_⟩
    · unfold skip
      dsimp only
      rw [if_neg Bool.false_ne_true]
      split
      · next hb =>
        subst hb
        exact (ih pos line).2 [] not_mem_nil
      split
      · next hb => exact .piece (.blank b hb) (hnewline line [] ▸ (ih (pos + 1) _).1)
      · next hcomment hblank =>
        refine ⟨[], .inr ⟨b :: t, rfl, ?_, rfl⟩⟩
        rintro _ ⟨⟩
        exact ⟨Bool.eq_false_iff.mpr hblank, hcomment⟩
    · unfold skip
      dsimp only
      rw [if_pos rfl]
      by_cases hb : b = 125
      · subst hb
        have hpiece := @Skips.piece _ pos line _ (.comment read hread) (ih _ _).1
        simpa [Piece.text, count_cons, Nat.add_assoc, Nat.add_left_comm] using hpiece
      · have hmore := (ih pos line).2 (read ++ [b]) (by simp [hread, Ne.symm hb])
        rw [length_append, count_append, ← Nat.add_assoc, ← Nat.add_assoc, ← hnewline _ [], ← cons_append,
          append_assoc] at hmore
        rw [decide_eq_true hb]
        exact hmore

/-! ## The next lexeme -/

/-- What the scanner comes to from a place. -/
inductive Reads (c : Cursor) : Lexeme × Cursor → Prop
  | unclosed (gap : List Piece) {body : Text} (rest : c.rest = gap.flatMap Piece.text ++ 123 :: body)
      (notClosed : 125 ∉ body) :
      Reads c
        ({ token := .unclosedComment, pos := c.pos + c.rest.length - 1, line := c.line + c.rest.count 10 },
          ⟨[], c.pos + c.rest.length, c.line + c.rest.count 10⟩)
  | ended (gap : List Piece) (rest : c.rest = gap.flatMap Piece.text) :
      Reads c
        ({ token := .endOfFile, pos := c.pos + c.rest.length, line := c.line + c.rest.count 10 },
          ⟨[], c.pos + c.rest.length, c.line + c.rest.count 10⟩)
  | found (gap : List Piece) {bytes tail : Text} {l : Lexeme} (rest : c.rest = gap.flatMap Piece.text ++ (bytes ++ tail))
      (spells : Spells bytes l.reading) (pos : l.pos = c.pos + (gap.flatMap Piece.text).length)
      (line : l.line = c.line + (gap.flatMap Piece.text).count 10) :
      Reads c (l, ⟨tail, l.pos + bytes.length, l.line⟩)

theorem next_reads (c : Cursor) : Reads c c.next := by
  obtain ⟨gap, ⟨body, hrest, hbody, hskip⟩ | ⟨u, hrest, hhead, hskip⟩⟩ := skip_skips c.rest c.pos c.line
  · have hnext := Reads.unclosed gap hrest hbody
    unfold next
    rw [hskip]
    exact hnext
  · unfold next
    rw [hskip]
    cases u with
    | nil =>
      rw [append_nil] at hrest
      have hnext := Reads.ended gap hrest
      rw [hrest] at hnext
      exact hnext
    | cons b u =>
      obtain ⟨bytes, tail, htext, hlength, hspells⟩ := matchAt_taken (hhead b rfl) u
      have hdrop : (b :: u).drop (matchAt b u).length = tail := by rw [htext, hlength, drop_left]
      dsimp only
      rw [if_neg Bool.false_ne_true, hdrop, hlength]
      exact .found gap (htext ▸ hrest) hspells rfl rfl

end Cursor

end MiniPascal
