import Mathlib.Algebra.Group.Int.Defs
import Mathlib.Algebra.GroupWithZero.Nat
import MiniPascal.Datum.Basic

/-!
# Words without wrapping

Sums, differences and products of 64-bit words are those of their values as long as these fit.
-/

namespace MiniPascal.Word

/-- A number that a word can hold. -/
def Fits (n : Int) : Prop := -2 ^ 63 ≤ n ∧ n < 2 ^ 63

theorem fits_toInt (a : Int64) : Fits a.toInt := ⟨a.le_toInt, a.toInt_lt⟩

theorem bmod_eq {n : Int} (h : Fits n) : n.bmod (2 ^ 64) = n := Int.bmod_eq_of_le h.1 h.2

variable {a b : Int64}

theorem toInt_add (h : Fits (a.toInt + b.toInt)) : (a + b).toInt = a.toInt + b.toInt := by
  rw [Int64.toInt_add, bmod_eq h]

theorem toInt_sub (h : Fits (a.toInt - b.toInt)) : (a - b).toInt = a.toInt - b.toInt := by
  rw [Int64.toInt_sub, bmod_eq h]

theorem toInt_mul (h : Fits (a.toInt * b.toInt)) : (a * b).toInt = a.toInt * b.toInt := by
  rw [Int64.toInt_mul, bmod_eq h]

theorem toInt_neg (h : Fits (-a.toInt)) : (-a).toInt = -a.toInt := by
  rw [Int64.toInt_neg, bmod_eq h]

theorem toInt_ofNat {n : Nat} (h : (n : Int) < 2 ^ 63) : (Int64.ofNat n).toInt = n :=
  Int64.toInt_ofNat_of_lt (by omega)

theorem toInt_zero : (0 : Int64).toInt = 0 := rfl

theorem toInt_one : (1 : Int64).toInt = 1 := rfl

theorem toInt_two : (2 : Int64).toInt = 2 := rfl

/-- The sum of two words of given values. -/
theorem add_eq {x y : Int} (ha : a.toInt = x) (hb : b.toInt = y) (h : -2 ^ 63 ≤ x + y ∧ x + y < 2 ^ 63) :
    (a + b).toInt = x + y := by
  subst ha hb
  exact toInt_add h

/-- The difference of two words of given values. -/
theorem sub_eq {x y : Int} (ha : a.toInt = x) (hb : b.toInt = y) (h : -2 ^ 63 ≤ x - y ∧ x - y < 2 ^ 63) :
    (a - b).toInt = x - y := by
  subst ha hb
  exact toInt_sub h

theorem add_one (h : a.toInt + 1 < 2 ^ 63) : (a + 1).toInt = a.toInt + 1 := by
  have hlower := a.le_toInt
  exact add_eq rfl toInt_one ⟨by omega, h⟩

theorem sub_one (h : -2 ^ 63 ≤ a.toInt - 1) : (a - 1).toInt = a.toInt - 1 := by
  have hupper := a.toInt_lt
  exact sub_eq rfl toInt_one ⟨h, by omega⟩

end MiniPascal.Word
