import MiniPascal.Lexeme

/-!
# Numbers are read to their ends

A number is made of digits, an optional fraction and an optional exponent. What is read at the start of a text is such
a number, and no longer start of the text is one.
-/

namespace MiniPascal.Lexeme

open List Text

/-- One or more decimal digits. -/
structure Digits where
  text : Text
  ne_nil : text ≠ []
  isDigit : ∀ b ∈ text, isDigit b = true

/-- The exponent of a real number: a letter `e`, an optional sign, and digits. -/
structure Exponent where
  mark : UInt8
  sign : Option UInt8
  digits : Digits
  isMark : mark = 101 ∨ mark = 69
  isSign : ∀ b ∈ sign, b = 43 ∨ b = 45

def Exponent.text (e : Exponent) : Text := e.mark :: e.sign.toList ++ e.digits.text

def fractionText (f : Option Digits) : Text := f.elim [] fun d => 46 :: d.text

def exponentText (e : Option Exponent) : Text := e.elim [] Exponent.text

/-- A number: digits, an optional fraction and an optional exponent. -/
structure Numeral where
  whole : Digits
  fraction : Option Digits
  exponent : Option Exponent

def Numeral.text (n : Numeral) : Text := n.whole.text ++ (fractionText n.fraction ++ exponentText n.exponent)

variable {t tail : Text} {b : UInt8}

/-! ## Parts of numbers -/

theorem exists_digits (t : Text) (h : (t.takeWhile isDigit).length ≠ 0) :
    ∃ d : Digits, d.text = t.takeWhile isDigit :=
  ⟨⟨_, fun hnil => h (congrArg _ hnil), all_eq_true.mp all_takeWhile⟩, rfl⟩

theorem takeWhile_append_drop (p : UInt8 → Bool) (t : Text) : t.takeWhile p ++ t.drop (t.takeWhile p).length = t := by
  conv => rhs; rw [← take_append_drop (t.takeWhile p).length t]
  rw [← prefix_iff_eq_take.mp ( takeWhile_prefix p)]

theorem exists_fraction (t : Text) : ∃ f, fractionText f ++ t.drop (fractionLength t) = t ∧
    (fractionText f).length = fractionLength t := by
  unfold fractionLength
  split
  · next rest =>
    split
    · exact ⟨none, rfl, rfl⟩
    · next n hn =>
      obtain ⟨d, hd⟩ := exists_digits rest fun h => hn h
      exact ⟨some d, congrArg (46 :: ·) (hd ▸ takeWhile_append_drop _ rest), by simp [fractionText, hd]⟩
  · exact ⟨none, rfl, rfl⟩

theorem exists_signed (t : Text) (h : signedLength t ≠ 0) : ∃ (sign : Option UInt8) (d : Digits),
    (∀ b ∈ sign, b = 43 ∨ b = 45) ∧ sign.toList ++ d.text ++ t.drop (signedLength t) = t ∧
      (sign.toList ++ d.text).length = signedLength t := by
  unfold signedLength at h ⊢
  split at h
  · exact absurd rfl h
  · next b rest =>
    split at h
    · next hb =>
      split at h
      · exact absurd rfl h
      · next n hn =>
        obtain ⟨d, hd⟩ := exists_digits rest hn
        rw [if_pos hb]
        refine ⟨some b, d, ?_, congrArg (b :: ·) (hd ▸ takeWhile_append_drop _ rest), by simp [hd]⟩
        rintro _ ⟨⟩
        simpa using hb
    · next hb =>
      obtain ⟨d, hd⟩ := exists_digits (b :: rest) h
      rw [if_neg hb]
      exact ⟨none, d, nofun, hd ▸ takeWhile_append_drop _ (b :: rest), by simp [hd]⟩

theorem exists_exponent (t : Text) : ∃ e, exponentText e ++ t.drop (exponentLength t) = t ∧
    (exponentText e).length = exponentLength t := by
  unfold exponentLength
  split
  · exact ⟨none, rfl, rfl⟩
  · next b rest =>
    split
    · next hb =>
      split
      · exact ⟨none, rfl, rfl⟩
      · next n hn =>
        obtain ⟨sign, d, hsign, hrest, hlength⟩ := exists_signed rest hn
        exact ⟨some ⟨b, sign, d, by simpa using hb, hsign⟩, congrArg (b :: ·) hrest, congrArg (· + 1) hlength⟩
    · exact ⟨none, rfl, rfl⟩

def StartsWithDigit (t : Text) : Prop := ∃ b ∈ t.head?, isDigit b = true

theorem digits_le (d : Digits) (tail : Text) : d.text.length ≤ ((d.text ++ tail).takeWhile isDigit).length ∧
    (d.text.length < ((d.text ++ tail).takeWhile isDigit).length → StartsWithDigit tail) := by
  rw [takeWhile_append_of_pos d.isDigit, length_append]
  refine ⟨Nat.le_add_right _ _, fun h => ?_⟩
  cases tail with
  | nil => simp at h
  | cons b tail =>
    refine ⟨b, rfl, Decidable.byContradiction fun hb => ?_⟩
    simp [hb] at h

theorem fraction_le (f : Option Digits) (tail : Text) : (fractionText f).length ≤ fractionLength (fractionText f ++ tail) ∧
    ((fractionText f).length < fractionLength (fractionText f ++ tail) → StartsWithDigit tail ∨ tail.head? = some 46) := by
  cases f with
  | none =>
    refine ⟨Nat.zero_le _, fun h => .inr ?_⟩
    show tail.head? = _
    change 0 < fractionLength tail at h
    unfold fractionLength at h
    split at h
    · rfl
    · exact absurd h (Nat.lt_irrefl 0)
  | some d =>
    obtain ⟨hle, hlt⟩ := digits_le d tail
    have hpos := length_pos_iff.mpr d.ne_nil
    have hlength : fractionLength (fractionText (some d) ++ tail) = ((d.text ++ tail).takeWhile isDigit).length + 1 := by
      show fractionLength (46 :: (d.text ++ tail)) = _
      rw [fractionLength]
      split
      · omega
      · rfl
    rw [hlength]
    exact ⟨Nat.succ_le_succ hle, fun h => .inl (hlt (Nat.lt_of_succ_lt_succ h))⟩

theorem ne_sign_of_digit (h : isDigit b = true) : (b = 43 || b = 45) = false := by
  simp only [Bool.or_eq_false_iff, decide_eq_false_iff_not]
  constructor <;> rintro rfl <;> revert h <;> decide

theorem signedLength_eq (e : Exponent) (tail : Text) : signedLength (e.sign.toList ++ (e.digits.text ++ tail)) =
    e.sign.toList.length + ((e.digits.text ++ tail).takeWhile isDigit).length := by
  have hle := (digits_le e.digits tail).1
  have hpos := length_pos_iff.mpr e.digits.ne_nil
  cases hsign : e.sign with
  | none =>
    obtain ⟨b, rest, hb⟩ := exists_cons_of_ne_nil e.digits.ne_nil
    have hno := ne_sign_of_digit (e.digits.isDigit b (by simp [hb]))
    rw [hb] at hle ⊢
    show (if (b = 43 || b = 45) = true then _ else _) = _
    rw [hno]
    exact (Nat.zero_add _).symm
  | some b =>
    have hyes : (b = 43 || b = 45) = true := by simpa using e.isSign b hsign
    rw [Option.toList_some, singleton_append, signedLength, if_pos hyes]
    split
    · omega
    · exact Nat.add_comm _ _

theorem exponent_le (e : Option Exponent) (tail : Text) :
    (exponentText e).length ≤ exponentLength (exponentText e ++ tail) := by
  cases e with
  | none => exact Nat.zero_le _
  | some e =>
    have hmark : (e.mark = 101 || e.mark = 69) = true := by simpa using e.isMark
    have hle := (digits_le e.digits tail).1
    have hpos := length_pos_iff.mpr e.digits.ne_nil
    have htext : exponentText (some e) ++ tail = e.mark :: (e.sign.toList ++ (e.digits.text ++ tail)) := by
      simp [exponentText, Exponent.text]
    rw [htext, exponentLength, if_pos hmark, signedLength_eq]
    simp only [exponentText, Option.elim_some, Exponent.text, length_append, length_cons]
    split <;> omega

/-! ## Whole numbers -/

theorem matchNumber_length (t : Text) : (matchNumber t).length =
    (t.takeWhile isDigit).length + fractionLength (t.drop (t.takeWhile isDigit).length) +
      exponentLength (t.drop ((t.takeWhile isDigit).length +
        fractionLength (t.drop (t.takeWhile isDigit).length))) := by
  unfold matchNumber
  dsimp only
  split
  · split <;> rfl
  · rfl

theorem exponentText_head {e : Option Exponent} (h : StartsWithDigit (exponentText e ++ tail) ∨
    (exponentText e ++ tail).head? = some 46) : e = none := by
  cases e with
  | none => rfl
  | some e =>
    exfalso
    rcases h with ⟨_, ⟨⟩, h⟩ | h
    · rcases e.isMark with hmark | hmark <;> rw [hmark] at h <;> revert h <;> decide
    · have h : e.mark = 46 := Option.some.inj h
      rcases e.isMark with hmark | hmark <;> rw [hmark] at h <;> revert h <;> decide

theorem Numeral.length_le (n : Numeral) (tail : Text) : n.text.length ≤ (matchNumber (n.text ++ tail)).length := by
  have hsplit : n.text ++ tail = n.whole.text ++ (fractionText n.fraction ++ (exponentText n.exponent ++ tail)) := by
    simp [text]
  obtain ⟨hwhole, hmore⟩ := digits_le n.whole (fractionText n.fraction ++ (exponentText n.exponent ++ tail))
  obtain ⟨hfraction, hmore'⟩ := fraction_le n.fraction (exponentText n.exponent ++ tail)
  have hexponent := exponent_le n.exponent tail
  rw [matchNumber_length, hsplit, text, length_append, length_append]
  rcases Nat.eq_or_lt_of_le hwhole with heq | hlt
  · rw [← heq, drop_left, ← drop_drop, drop_left]
    rcases Nat.eq_or_lt_of_le hfraction with heq' | hlt'
    · rw [← heq', drop_left]
      omega
    · rw [exponentText_head (hmore' hlt')] at *
      show _ + (_ + 0) ≤ _
      omega
  · -- A digit follows, so that the number has neither a fraction nor an exponent.
    have hdigit := hmore hlt
    have hnone : fractionText n.fraction ++ exponentText n.exponent = [] := by
      cases hf : n.fraction with
      | none =>
        rw [hf] at hdigit
        rw [exponentText_head (.inl hdigit)]
        rfl
      | some d =>
        rw [hf] at hdigit
        obtain ⟨_, ⟨⟩, h⟩ := hdigit
        exact absurd h (by decide)
    have := congrArg List.length hnone
    rw [length_append, length_nil] at this
    omega

def Numeral.isWhole (n : Numeral) : Bool := n.fraction.isNone && n.exponent.isNone

/-- What a number is read as. A whole number that is too large is no integer literal. -/
def Numeral.found (n : Numeral) : Match :=
  if n.isWhole then
    if digitsValue n.text ≤ maxInteger then
      { token := .integerLiteral, text := n.text, length := n.text.length,
        value := some (.integer (Int64.ofNat (digitsValue n.text))) }
    else { token := .unknown, text := n.text, length := n.text.length }
  else
    { token := .realLiteral, text := n.text, length := n.text.length, value := some (.real (Binary64.ofLiteral n.text)) }

theorem Numeral.isWhole_iff (n : Numeral) :
    n.isWhole = true ↔ (fractionText n.fraction).length + (exponentText n.exponent).length = 0 := by
  obtain ⟨whole, _ | d, _ | e⟩ := n <;> simp [isWhole, fractionText, exponentText, Exponent.text]

theorem exists_numeral (hb : isDigit b = true) (rest : Text) :
    ∃ (n : Numeral) (tail : Text), n.text ++ tail = b :: rest ∧ matchNumber (b :: rest) = n.found := by
  generalize ht : b :: rest = t
  obtain ⟨whole, hwhole⟩ := exists_digits t (by simp [← ht, hb])
  obtain ⟨f, hf, hflength⟩ := exists_fraction (t.drop whole.text.length)
  obtain ⟨e, he, helength⟩ := exists_exponent ((t.drop whole.text.length).drop (fractionText f).length)
  rw [← hflength] at hf
  rw [← helength] at he
  have htext : (⟨whole, f, e⟩ : Numeral).text ++
      ((t.drop whole.text.length).drop (fractionText f).length).drop (exponentText e).length = t := by
    rw [Numeral.text, append_assoc, append_assoc, he, hf, hwhole, takeWhile_append_drop]
  refine ⟨⟨whole, f, e⟩, _, htext, ?_⟩
  have hlength : (⟨whole, f, e⟩ : Numeral).text.length =
      whole.text.length + (fractionText f).length + (exponentText e).length := by
    simp only [Numeral.text, length_append]
    omega
  have htake : t.take (⟨whole, f, e⟩ : Numeral).text.length = (⟨whole, f, e⟩ : Numeral).text := by
    conv => lhs; rw [← htext]
    exact take_left
  simp only [matchNumber, ← hwhole, ← hflength, ← drop_drop, ← helength, ← hlength, htake, Numeral.found,
    Numeral.isWhole_iff]

/-- A byte of a number is a digit, a period, the mark of an exponent or a sign. -/
theorem Numeral.mem_text {n : Numeral} (hb : b ∈ n.text) : isDigit b = true ∨ b ∈ [46, 101, 69, 43, 45] := by
  obtain ⟨whole, f, e⟩ := n
  rw [text, mem_append, mem_append] at hb
  rcases hb with hb | hb | hb
  · exact .inl (whole.isDigit b hb)
  · cases f with
    | none => cases hb
    | some d => exact (mem_cons.mp hb).elim (fun h => .inr (by simp [h])) fun h => .inl (d.isDigit b h)
  · cases e with
    | none => cases hb
    | some e =>
      simp only [exponentText, Option.elim_some, Exponent.text, cons_append, mem_cons, mem_append,
        Option.mem_toList] at hb
      rcases hb with rfl | hb | hb
      · rcases e.isMark with h | h <;> simp [h]
      · rcases e.isSign b hb with h | h <;> simp [h]
      · exact .inl (e.digits.isDigit b hb)

theorem Numeral.isWhole_iff_digits (n : Numeral) : n.isWhole = true ↔ ∀ b ∈ n.text, isDigit b = true := by
  obtain ⟨whole, _ | d, _ | e⟩ := n
  · simpa [isWhole, text, fractionText, exponentText] using whole.isDigit
  all_goals
    refine iff_of_false (by simp [isWhole]) fun h => ?_
  · have := h e.mark (by simp [text, exponentText, Exponent.text])
    rcases e.isMark with hmark | hmark <;> rw [hmark] at this <;> exact absurd this (by decide)
  all_goals exact absurd (h 46 (by simp [text, fractionText])) (by decide)

theorem Numeral.found_congr {n n' : Numeral} (h : n.text = n'.text) : n.found = n'.found := by
  have hwhole : n.isWhole = n'.isWhole := by rw [Bool.eq_iff_iff, isWhole_iff_digits, isWhole_iff_digits, h]
  rw [found, found, h, hwhole]

@[simp]
theorem Numeral.found_length (n : Numeral) : n.found.length = n.text.length := by
  unfold found
  split
  · split <;> rfl
  · rfl

@[simp]
theorem Numeral.found_text (n : Numeral) : n.found.text = n.text := by
  unfold found
  split
  · split <;> rfl
  · rfl

/-- A number is read as itself where what follows cannot be part of one. -/
theorem matchNumber_append (n : Numeral) (h : ∀ b ∈ tail.head?, isDigit b = false ∧ b ∉ [46, 101, 69, 43, 45]) :
    matchNumber (n.text ++ tail) = n.found := by
  obtain ⟨b, rest, hsplit⟩ := exists_cons_of_ne_nil n.whole.ne_nil
  obtain ⟨n', tail', htext, hfound⟩ := exists_numeral (n.whole.isDigit b (by simp [hsplit]))
    (rest ++ (fractionText n.fraction ++ exponentText n.exponent) ++ tail)
  rw [← cons_append, ← cons_append, ← hsplit, ← Numeral.text] at htext hfound
  have hle := n.length_le tail
  rw [hfound, Numeral.found_length] at hle
  rw [hfound]
  obtain ⟨more, htail, hmore⟩ | ⟨more, hmore, htail⟩ := append_eq_append_iff.mp htext
  · obtain rfl : more = [] := eq_nil_of_length_eq_zero (by rw [htail, length_append] at hle; omega)
    exact Numeral.found_congr (by simpa using htail.symm)
  · cases more with
    | nil => exact Numeral.found_congr (by simpa using hmore)
    | cons c more =>
      obtain ⟨hdigit, hnot⟩ := h c (by rw [htail]; rfl)
      have := Numeral.mem_text (n := n') (b := c) (by simp [hmore])
      simp [hdigit, hnot] at this

end MiniPascal.Lexeme
