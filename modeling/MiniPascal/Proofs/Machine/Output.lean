import MiniPascal.Machine.Step
import MiniPascal.Proofs.Machine.Operation

/-!
# The length of output

The text of a value is short, apart from the places that were asked for, so that a width of 49 bits never
asks for too many blanks. The bounds are generous: only their order of magnitude matters.
-/

namespace MiniPascal

open List Text

variable {n : Nat}

namespace Binary64

theorem tenTo_mono {m : Nat} (h : m ≤ n) : tenTo m ≤ tenTo n := Nat.pow_le_pow_right (by decide) h

theorem tenTo_succ (n : Nat) : tenTo (n + 1) = tenTo n * 10 := Nat.pow_succ 10 n

theorem one_le_tenTo (n : Nat) : 1 ≤ tenTo n := Nat.one_le_pow n 10 (by decide)

theorem twoTo_le (e : Nat) : twoTo e ≤ tenTo e := Nat.pow_le_pow_left (by decide) e

theorem mul_le_tenTo {a b m : Nat} (ha : a ≤ tenTo m) (hb : b ≤ tenTo n) : a * b ≤ tenTo (m + n) :=
  calc a * b ≤ tenTo m * tenTo n := Nat.mul_le_mul ha hb
    _ = tenTo (m + n) := (Nat.pow_add 10 m n).symm

theorem length_toDigits_le {k : Nat} (h : n < tenTo k) (hk : 0 < k) : (Nat.toDigits 10 n).length ≤ k :=
  (Nat.length_toDigits_le_iff (by decide) hk).mpr h

end Binary64

open Binary64

theorem Text.length_ofNat_le {k : Nat} (h : n < tenTo k) (hk : 0 < k) : (ofNat n).length ≤ k := by
  rw [ofNat, length_map]
  exact length_toDigits_le h hk

theorem Text.length_ofInt_le {n : Int} {k : Nat} (h : n.natAbs < tenTo k) (hk : 0 < k) :
    (ofInt n).length ≤ k + 1 := by
  cases n with
  | ofNat n => exact Nat.le_succ_of_le (length_ofNat_le h hk)
  | negSucc n => exact Nat.succ_le_succ (length_ofNat_le h hk)

namespace Binary64

variable {significand : Nat} {exponent : Int}

/-- The parts of a double. -/
theorem ofBits_finite {bits : UInt64} {negative : Bool} (h : ofBits bits = .finite negative significand exponent) :
    4 * significand ≤ tenTo 54 ∧ exponent.natAbs ≤ 1074 := by
  have hfraction : bits.toNat % hiddenBit < hiddenBit := Nat.mod_lt _ (by decide)
  have hbiased : bits.toNat / hiddenBit % twoTo 11 < twoTo 11 := Nat.mod_lt _ (by decide)
  have hhidden : 4 * (hiddenBit + hiddenBit) ≤ tenTo 54 := by decide
  have hbias : twoTo 11 = 2048 := rfl
  unfold ofBits at h
  dsimp only at h
  split at h
  · split at h <;> cases h
  · next hspecial =>
    split at h
    · cases h
      exact ⟨by omega, by decide⟩
    · cases h
      refine ⟨by omega, ?_⟩
      unfold leastExponent
      omega

theorem ratio_le (n : Nat) (e : Int) : (ratio n e).1 ≤ n * tenTo e.natAbs ∧ (ratio n e).2 ≤ tenTo e.natAbs := by
  cases e with
  | ofNat e => exact ⟨Nat.mul_le_mul_left n (twoTo_le e), one_le_tenTo e⟩
  | negSucc e => exact ⟨Nat.le_mul_of_pos_right n (one_le_tenTo (e + 1)), twoTo_le (e + 1)⟩

theorem interval_le (hs : 4 * significand ≤ tenTo 54) (he : exponent.natAbs ≤ 1074) :
    (interval significand exponent).value ≤ tenTo 1200 ∧ (interval significand exponent).denominator ≤ tenTo 1200 := by
  have hvalue := (ratio_le (4 * significand) (exponent - 2)).1
  have hdenominator := (ratio_le 1 (exponent - 2)).2
  constructor
  · exact Nat.le_trans hvalue (Nat.le_trans (mul_le_tenTo hs (Nat.le_refl _)) (tenTo_mono (by omega)))
  · exact Nat.le_trans hdenominator (tenTo_mono (by omega))

theorem Interval.leading_le {i : Interval} (hvalue : i.value ≤ tenTo 1200)
    (hdenominator : i.denominator ≤ tenTo 1200) : i.leading.natAbs ≤ 1201 := by
  have hpos := one_le_tenTo 1200
  have hten : tenTo 1201 = tenTo 1200 * 10 := tenTo_succ 1200
  unfold leading
  split
  · have hquotient : i.value / i.denominator ≤ i.value := Nat.div_le_self _ _
    have := length_toDigits_le (n := i.value / i.denominator) (k := 1201) (by omega) (by decide)
    omega
  · dsimp only
    have hinverse : (i.denominator + i.value - 1) / i.value ≤ i.denominator + i.value - 1 :=
      Nat.div_le_self _ _
    have := length_toDigits_le (n := (i.denominator + i.value - 1) / i.value - 1) (k := 1201) (by omega) (by decide)
    omega

theorem Interval.nearest?_lt {i : Interval} (hvalue : i.value ≤ tenTo 1200) {k : Int} (hk : k.natAbs ≤ 1300)
    (h : i.nearest? k = some n) : n < tenTo 2501 := by
  have hnum : i.value * tenTo (-k).toNat ≤ tenTo 2500 :=
    mul_le_tenTo hvalue (n := 1300) (tenTo_mono (by omega))
  have hbelow := Nat.le_trans (Nat.div_le_self _ (i.denominator * tenTo k.toNat)) hnum
  have hpos := one_le_tenTo 2500
  have hten : tenTo 2501 = tenTo 2500 * 10 := tenTo_succ 2500
  unfold nearest? at h
  dsimp only at h
  split at h
  · cases h
    split <;> omega
  · cases h
    omega
  · cases h
    omega
  · cases h

theorem shortestFrom_lt {i : Interval} (hvalue : i.value ≤ tenTo 1200) {leading : Int}
    (hleading : leading.natAbs ≤ 1201) {more digits : Nat} (hmore : more + digits ≤ 17) :
    (shortestFrom i leading more digits).digits < tenTo 2501 ∧
      (shortestFrom i leading more digits).exponent.natAbs ≤ 1300 := by
  induction more generalizing digits with
  | zero =>
    have hpos := one_le_tenTo 2500
    have hten : tenTo 2501 = tenTo 2500 * 10 := tenTo_succ 2500
    have hnum : i.value * tenTo (-(leading - digits)).toNat ≤ tenTo 2500 :=
      mul_le_tenTo hvalue (n := 1300) (tenTo_mono (by omega))
    have hquotient := Nat.le_trans (Nat.div_le_self _ (i.denominator * tenTo (leading - digits).toNat)) hnum
    exact ⟨by show _ / _ < _; omega, by show (leading - digits).natAbs ≤ _; omega⟩
  | succ more ih =>
    unfold shortestFrom
    dsimp only
    split
    · next n hn =>
      exact ⟨Interval.nearest?_lt hvalue (by omega) hn, by show (leading - digits).natAbs ≤ _; omega⟩
    · exact ih (by omega)

theorem dropZeros_le (fuel : Nat) (d : Decimal) : (dropZeros fuel d).digits ≤ d.digits ∧
    (dropZeros fuel d).exponent.natAbs ≤ d.exponent.natAbs + fuel := by
  induction fuel generalizing d with
  | zero => exact ⟨Nat.le_refl _, Nat.le_refl _⟩
  | succ fuel ih =>
    unfold dropZeros
    split
    · obtain ⟨hdigits, hexponent⟩ := ih ⟨d.digits / 10, d.exponent + 1⟩
      refine ⟨Nat.le_trans hdigits (Nat.div_le_self _ _), ?_⟩
      dsimp only at hexponent
      omega
    · exact ⟨Nat.le_refl _, by omega⟩

/-- The digits and the leading exponent of the shortest decimal of a double. -/
theorem shortest_le (hs : 4 * significand ≤ tenTo 54) (he : exponent.natAbs ≤ 1074) :
    (ofNat (shortest significand exponent).digits).length ≤ 2501 ∧
      (shortest significand exponent).leading.natAbs ≤ 3900 := by
  obtain ⟨hvalue, hdenominator⟩ := interval_le hs he
  have hdepth : 17 + 0 ≤ 17 := Nat.le_refl _
  obtain ⟨hdigits, hexponent⟩ := shortestFrom_lt hvalue (Interval.leading_le hvalue hdenominator) hdepth
  obtain ⟨hdropped, hmoved⟩ := dropZeros_le 18 (shortestFrom (interval significand exponent)
    (interval significand exponent).leading 17 0)
  have hlt : (shortest significand exponent).digits < tenTo 2501 := Nat.lt_of_le_of_lt hdropped hdigits
  have hexp : (shortest significand exponent).exponent.natAbs ≤ 1318 := Nat.le_trans hmoved (by omega)
  have hlength := length_toDigits_le hlt (by decide)
  refine ⟨length_ofNat_le hlt (by decide), ?_⟩
  unfold Decimal.leading
  omega

theorem length_plain_le (digits : Text) (leading : Int) :
    (plain digits leading).length ≤ digits.length + leading.natAbs + 3 := by
  have hpoint : (ofString "0.").length = 2 := by decide
  unfold plain
  split
  · simp only [length_append, length_replicate, hpoint]
    omega
  · dsimp only
    split
    · simp only [length_append, length_replicate]
      omega
    · simp only [length_append, length_take, length_drop, length_replicate, length_singleton]
      omega

theorem length_scientific_le (digits : Text) (leading : Int) :
    (scientific digits leading).length ≤ digits.length + leading.natAbs + 6 := by
  have hexponent : (ofNat leading.natAbs).length ≤ leading.natAbs + 1 :=
    length_ofNat_le (Nat.lt_of_lt_of_le (Nat.lt_pow_self (by decide)) (tenTo_mono (Nat.le_succ _)))
      (Nat.succ_pos _)
  unfold scientific
  dsimp only
  split
  · simp only [length_append, length_cons, length_replicate, length_nil]
    omega
  · simp only [length_append, length_cons, length_replicate, length_nil]
    omega

theorem length_sign_le (negative : Bool) : (sign negative).length ≤ 1 := by
  cases negative <;> decide

theorem length_special_le (x : Binary64) : (special x).length ≤ 4 := by
  cases x with
  | infinite negative => cases negative <;> decide
  | _ => exact (by decide : (ofString "NaN").length ≤ 4)

theorem length_print_le (x : Float) : (print (ofFloat x)).length ≤ 10000 := by
  cases hx : ofFloat x with
  | finite negative significand exponent =>
    obtain ⟨hs, he⟩ := ofBits_finite hx
    obtain ⟨hdigits, hleading⟩ := shortest_le hs he
    have hsign := length_sign_le negative
    rw [print]
    split
    · rw [length_append, length_singleton]
      omega
    · dsimp only
      rw [length_append]
      split
      · have := length_plain_le (ofNat (shortest significand exponent).digits)
          (shortest significand exponent).leading
        omega
      · have := length_scientific_le (ofNat (shortest significand exponent).digits)
          (shortest significand exponent).leading
        omega
  | infinite negative => exact Nat.le_trans (length_special_le (.infinite negative)) (by decide)
  | notANumber => exact Nat.le_trans (length_special_le .notANumber) (by decide)

theorem roundHalfEven_le (num den : Nat) : roundHalfEven num den ≤ num + 1 := by
  have hbelow : num / den ≤ num := Nat.div_le_self _ _
  unfold roundHalfEven
  dsimp only
  split
  · omega
  · split
    · omega
    · split <;> omega

theorem length_printFixed_le (places : Nat) (x : Float) : (printFixed places (ofFloat x)).length ≤ places + 10000 := by
  cases hx : ofFloat x with
  | finite negative significand exponent =>
    obtain ⟨hs, he⟩ := ofBits_finite hx
    have hsign := length_sign_le negative
    have hnum : (ratio significand exponent).1 * tenTo places ≤ tenTo (1200 + places) := by
      refine mul_le_tenTo (Nat.le_trans (ratio_le _ _).1 ?_) (Nat.le_refl _)
      exact Nat.le_trans (mul_le_tenTo (m := 54) (by omega) (Nat.le_refl _)) (tenTo_mono (by omega))
    have hrounded := roundHalfEven_le ((ratio significand exponent).1 * tenTo places) (ratio significand exponent).2
    have hpos := one_le_tenTo (1200 + places)
    have hten := tenTo_succ (1200 + places)
    have hdigits := length_ofNat_le (n := roundHalfEven ((ratio significand exponent).1 * tenTo places)
      (ratio significand exponent).2) (k := 1200 + places + 1) (by omega) (Nat.succ_pos _)
    rw [printFixed]
    dsimp only
    simp only [length_append, length_take, length_replicate]
    split
    · rw [length_nil]
      omega
    · simp only [length_cons, length_drop, length_append, length_replicate]
      omega
  | infinite negative => exact Nat.le_trans (length_special_le (.infinite negative)) (by omega)
  | notANumber => exact Nat.le_trans (length_special_le .notANumber) (by omega)

end Binary64

namespace Machine

theorem length_outputText_le (places : Option Nat) (d : Datum) :
    (outputText places d).length ≤ places.getD 0 + 10000 := by
  have hword (v : Int64) : (ofInt v.toInt).length ≤ 20 := by
    refine length_ofInt_le (k := 19) ?_ (by decide)
    have hlower := v.le_toInt
    have hupper := v.toInt_lt
    have : tenTo 19 = 10000000000000000000 := by decide
    omega
  cases d with
  | integer v => exact Nat.le_trans (hword v) (by omega)
  | boolean b =>
    refine Nat.le_trans (?_ : (Datum.textOfBool b).length ≤ 5) (by omega)
    cases b <;> decide
  | character c => exact Nat.le_trans (Nat.le_refl 1) (by omega)
  | real x =>
    cases places with
    | none => exact Binary64.length_print_le x
    | some p => exact Binary64.length_printFixed_le p x
  | address a => exact Nat.le_trans (Nat.succ_le_succ (hword a)) (by omega)

theorem blanks_le {width : Int64} {places : Option Nat} {d : Datum} (hwidth : (Datum.integer width).Narrow)
    (hplaces : places.getD 0 < 2 ^ 48) : width - Int64.ofNat (outputText places d).length ≤ maxBlanks := by
  have hlength := length_outputText_le places d
  obtain ⟨hlower, hupper⟩ := hwidth
  have htext : (Int64.ofNat (outputText places d).length).toInt = (outputText places d).length :=
    Word.toInt_ofNat (by omega)
  rw [Int64.le_iff_toInt_le, Word.sub_eq rfl htext (by omega)]
  show _ ≤ (281474976710656 : Int)
  omega

end Machine

end MiniPascal
