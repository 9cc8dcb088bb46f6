import MiniPascal.Proofs.Lexeme.Spelling

/-!
# Reading what was written

A source can be written down lexeme by lexeme: every lexeme in one of its spellings, and blanks and closed
comments before, between and after them. Reading such a source gives back the lexemes that were written, and
then the end of the file for ever.
-/

namespace MiniPascal

open List Text

/-! ## Spellings -/

variable {t : Text}

namespace Lexeme

/-- A lexeme with one of its spellings. Words are in any case, integers have any number of leading zeros,
and strings are given by their contents. -/
inductive Item where
  | symbol (t : Token) (isSymbol : t ∈ Token.symbols)
  | word (t : Token) (letters : Text) (isWord : t ∈ Token.words)
      (spells : letters.map toLower = ofChars t.spelling)
  | identifier (first : UInt8) (rest : Text) (isLetter : isLetter first = true)
      (isLetterOrDigit : ∀ b ∈ rest, (Text.isLetter b || Text.isDigit b) = true)
      (notWord : ∀ t ∈ Token.words, ofChars t.spelling ≠ (first :: rest).map toLower)
  | integer (zeros n : Nat) (le : n ≤ maxInteger)
  | real (whole fraction : Digits) (exponent : Option Exponent)
  | string (contents : Text) (oneLine : 10 ∉ contents)

def realText (whole fraction : Digits) (exponent : Option Exponent) : Text :=
  whole.text ++ 46 :: fraction.text ++ exponent.elim [] Exponent.text

namespace Item

def text : Item → Text
  | .symbol t _ => ofChars t.spelling
  | .word _ letters _ _ => letters
  | .identifier first rest _ _ _ => first :: rest
  | .integer zeros n _ => List.replicate zeros 48 ++ ofNat n
  | .real whole fraction exponent => realText whole fraction exponent
  | .string contents _ => 39 :: doubled contents ++ [39]

/-- What a lexeme stands for: its class, its text and its value. -/
def reading : Item → Token × Text × Option Datum
  | .symbol t _ => (t, [], none)
  | .word t _ _ _ => (t, ofChars t.spelling, none)
  | .identifier first rest _ _ _ => (.identifier, (first :: rest).map toLower, none)
  | .integer zeros n _ =>
    (.integerLiteral, List.replicate zeros 48 ++ ofNat n, some (.integer (Int64.ofNat n)))
  | .real whole fraction exponent =>
    (.realLiteral, realText whole fraction exponent,
      some (.real (Binary64.ofLiteral (realText whole fraction exponent))))
  | .string contents _ => (.stringLiteral, contents, none)

end Item

/-- Blanks and comments, one at least. -/
structure Gap where
  first : Piece
  rest : List Piece

def Gap.text (g : Gap) : Text := g.first.text ++ g.rest.flatMap Piece.text

/-- Lexemes written one after the other with gaps before, between and after them. -/
def written (gap : Gap) (items : List (Item × Gap)) : Text :=
  gap.text ++ items.flatMap fun (item, gap) => item.text ++ gap.text

/-! ## Where a lexeme ends -/

/-- What may follow a lexeme: a blank, a comment, or nothing. -/
def Stops (t : Text) : Prop := ∀ b ∈ t.head?, isBlank b = true ∨ b = 123

theorem Gap.stops (g : Gap) (t : Text) : Stops (g.text ++ t) := by
  rcases g with ⟨⟨b, hb⟩ | ⟨body, hbody⟩, rest⟩
  · rintro _ ⟨⟩
    exact .inl hb
  · rintro _ ⟨⟩
    exact .inr rfl

variable {b : UInt8}

/-- A byte that ends a lexeme is part of none. -/
theorem not_letter_or_digit_of_stop (h : isBlank b = true ∨ b = 123) :
    isLetter b = false ∧ isDigit b = false := by
  simp only [isBlank, Bool.or_eq_true, decide_eq_true_eq] at h
  rcases h with ((((rfl | rfl) | rfl) | rfl) | rfl) | rfl <;> decide

theorem Stops.ne (h : Stops t) (hb : isBlank b = false) (hne : b ≠ 123) : t.head? ≠ some b := by
  intro heq
  rcases h b heq with hblank | rfl
  · rw [hb] at hblank
    cases hblank
  · exact hne rfl

variable {run : Text}

/-- A run of bytes ends where its condition fails. -/
theorem takeWhile_append_of_head {p : UInt8 → Bool} (hrun : ∀ b ∈ run, p b = true) (ht : ∀ b ∈ t.head?, p b = false) :
    (run ++ t).takeWhile p = run := by
  rw [takeWhile_append_of_pos hrun]
  cases t with
  | nil => simp
  | cons b t => simp [ht b rfl]

/-! ## Words -/

theorem isLetter_of_toLower (h : isLetter (toLower b) = true) : isLetter b = true := by
  unfold toLower at h
  split at h
  · next hupper =>
    simp only [isLetter, Bool.or_eq_true]
    exact .inl (.inr hupper)
  · exact h

theorem words_spelling : ∀ t ∈ Token.words, Token.ofWord (ofChars t.spelling) = t ∧
    t.spelling ≠ [] ∧ ∀ b ∈ ofChars t.spelling, isLetter b = true := by
  decide +kernel

theorem matchWord_append (hrun : ∀ b ∈ run, (isLetter b || isDigit b) = true) (ht : Stops t) :
    matchWord (run ++ t) =
      { token := Token.ofWord (run.map toLower), text := run.map toLower, length := run.length } := by
  have hword : ((run ++ t).takeWhile fun b => isLetter b || isDigit b) = run :=
    takeWhile_append_of_head hrun fun b hb => by
      obtain ⟨hletter, hdigit⟩ := not_letter_or_digit_of_stop (ht b hb)
      rw [hletter, hdigit]
      rfl
  rw [matchWord, hword]

theorem ofWord_eq_identifier {word : Text} (h : ∀ t ∈ Token.words, ofChars t.spelling ≠ word) :
    Token.ofWord word = .identifier := by
  have hnone : Token.words.find? (fun t => ofChars t.spelling == word) = none :=
    List.find?_eq_none.mpr fun t ht => by simpa using h t ht
  rw [Token.ofWord, hnone]
  rfl

/-! ## Numbers -/

/-- What may follow a lexeme is no part of a number. -/
theorem Stops.not_numeric (h : Stops t) : ∀ b ∈ t.head?, isDigit b = false ∧ b ∉ [46, 101, 69, 43, 45] := by
  refine fun b hb => ⟨(not_letter_or_digit_of_stop (h b hb)).2, fun hmem => ?_⟩
  have hpart : ∀ b ∈ [46, 101, 69, 43, 45], isBlank b = false ∧ b ≠ 123 := by simp [isBlank]
  exact h.ne (hpart b hmem).1 (hpart b hmem).2 hb

theorem matchNumber_integer (hne : run ≠ []) (hrun : ∀ b ∈ run, isDigit b = true)
    (hle : digitsValue run ≤ maxInteger) (ht : Stops t) : matchNumber (run ++ t) =
      { token := .integerLiteral, text := run, length := run.length,
        value := some (.integer (Int64.ofNat (digitsValue run))) } := by
  have htext : (⟨⟨run, hne, hrun⟩, none, none⟩ : Numeral).text = run := append_nil run
  have hfound := matchNumber_append ⟨⟨run, hne, hrun⟩, none, none⟩ ht.not_numeric
  rw [Numeral.found, htext] at hfound
  exact hfound.trans ((if_pos rfl).trans (if_pos hle))

theorem matchNumber_real (whole fraction : Digits) (exponent : Option Exponent) (ht : Stops t) :
    matchNumber (realText whole fraction exponent ++ t) =
      { token := .realLiteral, text := realText whole fraction exponent,
        length := (realText whole fraction exponent).length,
        value := some (.real (Binary64.ofLiteral (realText whole fraction exponent))) } := by
  have htext : (⟨whole, some fraction, exponent⟩ : Numeral).text = realText whole fraction exponent :=
    (append_assoc ..).symm
  have hfound := matchNumber_append ⟨whole, some fraction, exponent⟩ ht.not_numeric
  rw [Numeral.found, htext] at hfound
  exact hfound.trans (if_neg Bool.false_ne_true)

theorem byte_toDigits {n : Nat} {c : Char} (hc : c ∈ Nat.toDigits 10 n) :
    (byte c).toNat = c.toNat ∧ isDigit (byte c) = true := by
  have hdigit := Nat.isDigit_of_mem_toDigits (by decide) (by decide) hc
  simp only [Char.isDigit, Bool.and_eq_true, decide_eq_true_eq, UInt32.le_iff_toNat_le] at hdigit
  obtain ⟨hlower, hupper⟩ : 48 ≤ c.toNat ∧ c.toNat ≤ 57 := hdigit
  have hbyte : (byte c).toNat = c.toNat := Nat.mod_eq_of_lt (by omega)
  refine ⟨hbyte, ?_⟩
  simp only [isDigit, Bool.and_eq_true, decide_eq_true_eq, UInt8.le_iff_toNat_le, hbyte]
  exact ⟨hlower, hupper⟩

theorem digitsValue_ofNat (zeros n : Nat) : digitsValue (List.replicate zeros 48 ++ ofNat n) = n := by
  have hzeros : (List.replicate zeros 48).foldl (fun n (b : UInt8) => 10 * n + (b.toNat - 48)) 0 = 0 := by
    induction zeros with
    | zero => rfl
    | succ zeros ih => exact ih
  have hfold : ∀ (cs : List Char) (start : Nat), (∀ c ∈ cs, (byte c).toNat = c.toNat) →
      cs.foldl (fun n c => 10 * n + ((byte c).toNat - 48)) start = Nat.ofDigitChars 10 cs start := by
    intro cs
    induction cs with
    | nil => exact fun _ _ => rfl
    | cons c cs ih =>
      intro start hcs
      rw [foldl_cons, hcs c (by simp), ih _ fun c hc => hcs c (by simp [hc])]
      rfl
  rw [digitsValue, foldl_append, hzeros, ofNat, foldl_map, hfold _ _ fun c hc => (byte_toDigits hc).1]
  exact Nat.ofDigitChars_toDigits (by decide) (by decide)

theorem isDigit_ofNat (zeros n : Nat) : ∀ b ∈ List.replicate zeros 48 ++ ofNat n, isDigit b = true := by
  intro b hb
  rcases mem_append.mp hb with hb | hb
  · rw [eq_of_mem_replicate hb]
    rfl
  · obtain ⟨c, hc, rfl⟩ := mem_map.mp hb
    exact (byte_toDigits hc).2

/-! ## Strings and symbols -/

theorem stringContents_doubled {contents : Text} (hline : 10 ∉ contents) (ht : t.head? ≠ some 39) :
    stringContents (doubled contents ++ 39 :: t) = (true, contents, (doubled contents).length + 1) := by
  induction contents with
  | nil =>
    show stringContents (39 :: t) = _
    unfold stringContents
    split
    · contradiction
    · next heq =>
      rw [List.cons.injEq] at heq
      exact absurd (by rw [heq.2]; rfl) ht
    · next b rest _ heq =>
      rw [List.cons.injEq] at heq
      rw [if_pos heq.1.symm]
      rfl
  | cons b contents ih =>
    have hrest := ih fun h => hline (mem_cons_of_mem b h)
    have hb : b ≠ 10 := fun h => hline (h ▸ mem_cons_self)
    by_cases hquote : b = 39
    · subst hquote
      show stringContents (39 :: 39 :: (doubled contents ++ 39 :: t)) = _
      rw [stringContents, hrest]
      rfl
    · have hcons : doubled (b :: contents) = b :: doubled contents := by
        simp [doubled, flatMap_cons, hquote]
      rw [hcons, cons_append, stringContents, hrest]
      · simp [hquote, hb]
      · rintro rest ⟨rfl⟩
        exact absurd rfl hquote

/-- Every operator and mark of punctuation is read as itself where the text ends after it. -/
theorem symbols_spelling : ∀ t ∈ Token.symbols,
    let b := (ofChars t.spelling).headD 0
    let rest := (ofChars t.spelling).tail
    ofChars t.spelling = b :: rest ∧ rest.length ≤ 1 ∧
      matchSymbol b rest = { token := t, length := t.spelling.length } ∧ isBlank b = false ∧ b ≠ 123 ∧
      isLetter b = false ∧ isDigit b = false ∧ b ≠ 39 := by
  decide

variable {rest : Text}

theorem matchSymbol_append (b : UInt8) {tail : Text} (hrest : rest.length ≤ 1) (ht : Stops tail) :
    matchSymbol b (rest ++ tail) = matchSymbol b rest := by
  have hequal : tail.head? ≠ some 61 := ht.ne (by decide) (by decide)
  have hgreater : tail.head? ≠ some 62 := ht.ne (by decide) (by decide)
  have hperiod : tail.head? ≠ some 46 := ht.ne (by decide) (by decide)
  cases rest with
  | nil => simp [matchSymbol, hequal, hgreater, hperiod]
  | cons c rest => rfl

/-! ## One lexeme -/

def Item.found (i : Item) : Match :=
  { token := i.reading.1, text := i.reading.2.1, value := i.reading.2.2, length := i.text.length }

theorem not_blank_of_letter_or_digit (h : isLetter b = true ∨ isDigit b = true) :
    isBlank b = false ∧ b ≠ 123 := by
  rw [← Bool.not_eq_true]
  constructor <;> intro hstop
  · obtain ⟨hletter, hdigit⟩ := not_letter_or_digit_of_stop (.inl hstop)
    simp [hletter, hdigit] at h
  · obtain ⟨hletter, hdigit⟩ := not_letter_or_digit_of_stop (.inr hstop)
    simp [hletter, hdigit] at h

theorem not_letter_of_digit (h : isDigit b = true) : isLetter b = false := by
  simp only [isDigit, Bool.and_eq_true, decide_eq_true_eq, UInt8.le_iff_toNat_le] at h
  obtain ⟨hlower, hupper⟩ : 48 ≤ b.toNat ∧ b.toNat ≤ 57 := h
  rw [← Bool.not_eq_true]
  simp only [isLetter, Bool.or_eq_true, Bool.and_eq_true, decide_eq_true_eq, UInt8.le_iff_toNat_le,
    ← UInt8.toNat_inj, UInt8.reduceToNat]
  omega

theorem matchAt_letter (h : isLetter b = true) : matchAt b rest = matchWord (b :: rest) := by
  rw [matchAt, if_pos h]

theorem matchAt_digit (h : isDigit b = true) : matchAt b rest = matchNumber (b :: rest) := by
  rw [matchAt, if_neg (by simp [not_letter_of_digit h]), if_pos h]

/-- A text of letters and digits that starts with a letter is found as a word. -/
theorem matchAt_word (hb : isLetter b = true) (hrest : ∀ c ∈ rest, (isLetter c || isDigit c) = true)
    (ht : Stops t) : matchAt b (rest ++ t) =
      { token := Token.ofWord ((b :: rest).map toLower), text := (b :: rest).map toLower,
        length := (b :: rest).length } := by
  rw [matchAt_letter hb, ← cons_append]
  refine matchWord_append (fun c hc => ?_) ht
  rcases mem_cons.mp hc with rfl | hc
  · rw [hb]
    rfl
  · exact hrest c hc

/-- A lexeme that is written down starts with no blank and no comment, and all of it is found. -/
theorem Item.matchAt_text (i : Item) (ht : Stops t) :
    ∃ b rest, i.text = b :: rest ∧ isBlank b = false ∧ b ≠ 123 ∧ matchAt b (rest ++ t) = i.found := by
  cases i with
  | symbol s hs =>
    obtain ⟨hsplit, hlength, hmatch, hblank, hcomment, hletter, hdigit, hquote⟩ := symbols_spelling s hs
    refine ⟨_, _, hsplit, hblank, hcomment, ?_⟩
    rw [matchAt, if_neg (Bool.eq_false_iff.mp hletter), if_neg (Bool.eq_false_iff.mp hdigit), if_neg hquote,
      matchSymbol_append _ hlength ht, hmatch]
    simp [found, reading, text, ofChars]
  | word w letters hw hletters =>
    obtain ⟨htoken, hne, hspelling⟩ := words_spelling w hw
    have hletter : ∀ c ∈ letters, isLetter c = true := fun c hc =>
      isLetter_of_toLower (hspelling _ (hletters ▸ mem_map_of_mem hc))
    cases letters with
    | nil =>
      rw [map_nil, ofChars, eq_comm, map_eq_nil_iff] at hletters
      exact absurd hletters hne
    | cons b rest =>
      have hb := hletter b (by simp)
      obtain ⟨hblank, hcomment⟩ := not_blank_of_letter_or_digit (.inl hb)
      refine ⟨b, rest, rfl, hblank, hcomment, ?_⟩
      rw [matchAt_word hb (fun c hc => by simp [hletter c (by simp [hc])]) ht, hletters, htoken]
      rfl
  | identifier b rest hb hrest hnot =>
    obtain ⟨hblank, hcomment⟩ := not_blank_of_letter_or_digit (.inl hb)
    refine ⟨b, rest, rfl, hblank, hcomment, ?_⟩
    rw [matchAt_word hb hrest ht, ofWord_eq_identifier hnot]
    rfl
  | integer zeros n hle =>
    have hdigits := isDigit_ofNat zeros n
    have hne : List.replicate zeros 48 ++ ofNat n ≠ [] := fun h =>
      Nat.toDigits_ne_nil (map_eq_nil_iff.mp (append_eq_nil_iff.mp h).2)
    obtain ⟨b, rest, hsplit⟩ := exists_cons_of_ne_nil hne
    have hb := hdigits b (by simp [hsplit])
    obtain ⟨hblank, hcomment⟩ := not_blank_of_letter_or_digit (.inr hb)
    refine ⟨b, rest, hsplit, hblank, hcomment, ?_⟩
    rw [matchAt_digit hb, ← cons_append, ← hsplit,
      matchNumber_integer hne hdigits (by rw [digitsValue_ofNat]; exact hle) ht, digitsValue_ofNat]
    rfl
  | real whole fraction exponent =>
    obtain ⟨b, rest, hwhole⟩ := exists_cons_of_ne_nil whole.ne_nil
    have hb := whole.isDigit b (by simp [hwhole])
    have hsplit : realText whole fraction exponent =
        b :: (rest ++ 46 :: fraction.text ++ exponent.elim [] Exponent.text) := by
      simp [realText, hwhole]
    obtain ⟨hblank, hcomment⟩ := not_blank_of_letter_or_digit (.inr hb)
    refine ⟨b, _, hsplit, hblank, hcomment, ?_⟩
    rw [matchAt_digit hb, ← cons_append, ← hsplit, matchNumber_real whole fraction exponent ht]
    rfl
  | string contents hline =>
    refine ⟨39, doubled contents ++ [39], rfl, by decide, by decide, ?_⟩
    rw [matchAt, if_neg (by decide), if_neg (by decide), if_pos rfl, matchString, append_assoc,
      singleton_append, stringContents_doubled hline (ht.ne (by decide) (by decide))]
    simp [found, reading, text]

end Lexeme

/-! ## Whole sources -/

namespace Cursor

open Lexeme

theorem skip_comment {body : Text} (h : 125 ∉ body) (t : Text) (pos line : Nat) :
    ∃ pos' line', skip true (body ++ 125 :: t) pos line = skip false t pos' line' := by
  induction body generalizing pos line with
  | nil => exact ⟨_, _, rfl⟩
  | cons b body ih =>
    have hb : b ≠ 125 := fun heq => h (heq ▸ mem_cons_self)
    obtain ⟨pos', line', hskip⟩ := ih (fun hmem => h (mem_cons_of_mem b hmem)) (pos + 1)
      (if b = 10 then line + 1 else line)
    refine ⟨pos', line', ?_⟩
    rw [← hskip]
    simp [skip, hb]

theorem skip_piece (p : Piece) (t : Text) (pos line : Nat) :
    ∃ pos' line', skip false (p.text ++ t) pos line = skip false t pos' line' := by
  cases p with
  | blank b hb =>
    have hopen : b ≠ 123 := by rintro rfl; revert hb; decide
    refine ⟨pos + 1, if b = 10 then line + 1 else line, ?_⟩
    show skip false (b :: t) pos line = _
    simp [skip, hopen, hb]
  | comment body hbody =>
    obtain ⟨pos', line', hskip⟩ := skip_comment hbody t (pos + 1) line
    refine ⟨pos', line', ?_⟩
    rw [← hskip]
    show skip false (123 :: ((body ++ [125]) ++ t)) pos line = _
    simp [skip]

theorem skip_pieces (pieces : List Piece) (t : Text) (pos line : Nat) :
    ∃ pos' line', skip false (pieces.flatMap Piece.text ++ t) pos line = skip false t pos' line' := by
  induction pieces generalizing pos line with
  | nil => exact ⟨pos, line, rfl⟩
  | cons p pieces ih =>
    rw [flatMap_cons, append_assoc]
    obtain ⟨pos₁, line₁, hpiece⟩ := skip_piece p (pieces.flatMap Piece.text ++ t) pos line
    obtain ⟨pos₂, line₂, hpieces⟩ := ih pos₁ line₁
    exact ⟨pos₂, line₂, hpiece.trans hpieces⟩

theorem skip_gap (g : Gap) (t : Text) (pos line : Nat) :
    ∃ pos' line', skip false (g.text ++ t) pos line = skip false t pos' line' :=
  skip_pieces (g.first :: g.rest) t pos line

/-- After a gap the next lexeme is the one that is written there, and all of it is taken. -/
theorem next_gap_item (g : Gap) (i : Item) (ht : Stops t) (pos line : Nat) :
    ∃ l pos' line', next ⟨g.text ++ (i.text ++ t), pos, line⟩ = (l, ⟨t, pos', line'⟩) ∧ l.reading = i.reading := by
  obtain ⟨pos', line', hskip⟩ := skip_gap g (i.text ++ t) pos line
  obtain ⟨b, rest, htext, hblank, hcomment, hmatch⟩ := i.matchAt_text ht
  have hstart : skip false (g.text ++ (i.text ++ t)) pos line = (false, ⟨b :: (rest ++ t), pos', line'⟩) := by
    rw [hskip, htext]
    simp [skip, hblank, hcomment]
  have hdrop : (b :: (rest ++ t)).drop i.found.length = t := by
    rw [← cons_append, ← htext]
    exact drop_left
  refine ⟨{ token := i.reading.1, text := i.reading.2.1, pos := pos', line := line', value := i.reading.2.2 },
    pos' + i.found.length, line', ?_, rfl⟩
  simp only [next, hstart, Bool.false_eq_true, if_false, hmatch, hdrop]
  rfl

theorem next_gap_end (g : Gap) (pos line : Nat) :
    ∃ l pos' line', next ⟨g.text, pos, line⟩ = (l, ⟨[], pos', line'⟩) ∧ l.reading = (.endOfFile, [], none) := by
  obtain ⟨pos', line', hskip⟩ := skip_gap g [] pos line
  rw [append_nil] at hskip
  refine ⟨{ token := .endOfFile, pos := pos', line := line' }, pos', line', ?_, rfl⟩
  simp [next, hskip, skip]

def after : Nat → Cursor → Cursor
  | 0, c => c
  | n + 1, c => after n c.next.2

theorem next_after_end (n pos line : Nat) : (after n ⟨[], pos, line⟩).next.1.reading = (.endOfFile, [], none) := by
  induction n with
  | zero => rfl
  | succ n ih => exact ih

/-- The lexemes of a source are those that were written, in their order, and then the end of the file for
ever. -/
theorem next_after_written (gap : Gap) (items : List (Item × Gap)) (n : Nat) :
    (after n { rest := written gap items }).next.1.reading =
      (items[n]?.map fun item => item.1.reading).getD (.endOfFile, [], none) := by
  suffices ∀ pos line, (after n ⟨written gap items, pos, line⟩).next.1.reading =
      (items[n]?.map fun item => item.1.reading).getD (.endOfFile, [], none) from this 0 1
  intro pos line
  induction items generalizing gap n pos line with
  | nil =>
    obtain ⟨l, pos', line', hnext, hreading⟩ := next_gap_end gap pos line
    rw [written, flatMap_nil, append_nil]
    cases n with
    | zero =>
      rw [after, hnext]
      exact hreading
    | succ n =>
      rw [after, hnext]
      exact next_after_end n pos' line'
  | cons item items ih =>
    obtain ⟨item, following⟩ := item
    have hsplit : written gap ((item, following) :: items) =
        gap.text ++ (item.text ++ written following items) := by
      simp [written]
    have hstops : Stops (written following items) := following.stops _
    obtain ⟨l, pos', line', hnext, hreading⟩ := next_gap_item gap item hstops pos line
    rw [hsplit]
    cases n with
    | zero =>
      rw [after, hnext]
      exact hreading
    | succ n =>
      rw [after, hnext]
      exact ih following n pos' line'

/-- A word in mixed case, a comment, a symbol, leading zeros, and a quote in a string. -/
theorem next_after_written_mixed :
    let gap : Gap := ⟨.blank 32 rfl, []⟩
    let items : List (Item × Gap) :=
      [(.word .kwBegin (ofString "BeGin") (by decide) (by decide), ⟨.comment [46] (by decide), []⟩),
        (.symbol .range (by decide), gap), (.integer 2 7 (by decide), gap),
        (.string (ofString "it's") (by decide), gap)]
    let source := ofString " BeGin\x7b.\x7d.. 007 'it''s' "
    written gap items = source ∧
      (after 0 { rest := source }).next.1.reading = (.kwBegin, ofString "begin", none) ∧
      (after 1 { rest := source }).next.1.reading = (.range, [], none) ∧
      (after 2 { rest := source }).next.1.reading = (.integerLiteral, ofString "007", some (.integer 7)) ∧
      (after 3 { rest := source }).next.1.reading = (.stringLiteral, ofString "it's", none) ∧
      (after 9 { rest := source }).next.1.reading = (.endOfFile, [], none) := by
  intro gap items source
  have hsource : written gap items = source := by decide
  rw [← hsource]
  exact ⟨rfl, next_after_written gap items 0, next_after_written gap items 1, next_after_written gap items 2,
    next_after_written gap items 3, next_after_written gap items 9⟩

end Cursor

end MiniPascal
