import Mathlib.Algebra.GroupWithZero.Nat
import MiniPascal.Proofs.Meaning.Value

/-!
# Integer arithmetic

Integers are numbers of 32 bits that are kept in words of 64. What the machine computes from them is again such a
number: the exact result reduced to 32 bits, the truncated quotient and its remainder, or the result of the bitwise
operation on the 32 bits.
-/

namespace MiniPascal

open Int32 BinaryOp

/-- The exact result of an operation on one integer. -/
def UnaryOp.ideal? : UnaryOp → Option (Int → Int)
  | .neg => some fun n => -n
  | .abs => some fun n => n.natAbs
  | .sqr => some fun n => n * n
  | .pred => some fun n => n - 1
  | .succ => some fun n => n + 1
  | _ => none

namespace BinaryOp

/-- The exact result of an operation on two integers that is no division. -/
def ideal? : BinaryOp → Option (Int → Int → Int)
  | .add => some fun m n => m + n
  | .sub => some fun m n => m - n
  | .mul => some fun m n => m * n
  | _ => none

/-- The bits of the result of a bitwise operation. A shift goes by a number of places modulo 32. -/
def bitwise? : BinaryOp → Option (BitVec 32 → BitVec 32 → BitVec 32)
  | .band => some fun x y => x &&& y
  | .bor => some fun x y => x ||| y
  | .bxor => some fun x y => x ^^^ y
  | .shl => some fun x y => x <<< (y.toInt % 32).toNat
  | .shr => some fun x y => x.sshiftRight (y.toInt % 32).toNat
  | _ => none

end BinaryOp

def Gives (r : Except Fault Datum) (n : Int32) : Prop := r = .ok (.integer n.toInt64)

/-! ## Exact results -/

theorem UnaryOp.gives_exact {op : UnaryOp} {f : Int → Int} (h : op.ideal? = some f) (x : Int32) :
    ∃ r, Gives (op.apply (.integer x.toInt64)) r ∧ r.toInt = (f x.toInt).bmod (2 ^ 32) := by
  have hneighbour (d : Int32) : Gives (UnaryOp.neighbour d.toInt64 (.integer x.toInt64)) (x + d) := by
    show Except.ok (Datum.integer (x.toInt64 + d.toInt64).toInt32.toInt64) = _
    rw [Int64.toInt32_add, toInt32_toInt64, toInt32_toInt64]
  unfold ideal? at h
  split at h <;> cases h
  case h_1 => exact ⟨-x, Value.apply_neg x, toInt_neg x⟩
  case h_2 =>
    refine ⟨_, Value.apply_abs x, ?_⟩
    have hlower := x.le_toInt
    have hupper := x.toInt_lt
    have hneg : x < 0 ↔ x.toInt < 0 := lt_iff_toInt_lt
    show _ = (x.toInt.natAbs : Int).bmod (2 ^ 32)
    split
    · next hx => rw [toInt_neg, Int.ofNat_natAbs_of_nonpos (Int.le_of_lt (hneg.mp hx))]
    · next hx => rw [Int.natAbs_of_nonneg (Int.not_lt.mp (mt hneg.mpr hx)), Int.bmod_eq_of_le (by omega) (by omega)]
  case h_3 => exact ⟨x * x, Value.apply_sqr x, toInt_mul x x⟩
  case h_4 => exact ⟨x + -1, hneighbour (-1), by rw [toInt_add]; rfl⟩
  case h_5 => exact ⟨x + 1, hneighbour 1, toInt_add x 1⟩

theorem BinaryOp.gives_exact {op : BinaryOp} {f : Int → Int → Int} (h : op.ideal? = some f) (x y : Int32) :
    ∃ r, Gives (op.apply (.integer x.toInt64) (.integer y.toInt64)) r ∧ r.toInt = (f x.toInt y.toInt).bmod (2 ^ 32) := by
  unfold ideal? at h
  split at h <;> cases h
  case h_1 => exact ⟨x + y, apply_add x y, toInt_add x y⟩
  case h_2 => exact ⟨x - y, apply_sub x y, toInt_sub x y⟩
  case h_3 => exact ⟨x * y, apply_mul x y, toInt_mul x y⟩

/-! ## Bitwise results -/

/-- The number of places of a shift. -/
theorem toNat_smod (y : BitVec 32) : (y.smod 32).toNat = (y.toInt % 32).toNat := by
  have hwidth : (32 : BitVec 32).toInt = 32 := by decide
  have hmod : (y.smod 32).toInt = y.toInt % 32 := by
    rw [BitVec.toInt_smod, hwidth, Int.fmod_eq_emod_of_nonneg _ (by decide)]
  rw [BitVec.toInt_eq_toNat_cond] at hmod
  split at hmod <;> omega

theorem BinaryOp.gives_bitwise {op : BinaryOp} {f : BitVec 32 → BitVec 32 → BitVec 32} (h : op.bitwise? = some f)
    (x y : Int32) :
    ∃ r, Gives (op.apply (.integer x.toInt64) (.integer y.toInt64)) r ∧ r.toBitVec = f x.toBitVec y.toBitVec := by
  unfold bitwise? at h
  split at h <;> cases h
  case h_1 => exact ⟨x &&& y, ok_integer (toInt64_and x y).symm, rfl⟩
  case h_2 => exact ⟨x ||| y, ok_integer (toInt64_or x y).symm, rfl⟩
  case h_3 => exact ⟨x ^^^ y, ok_integer (toInt64_xor x y).symm, rfl⟩
  case h_4 =>
    refine ⟨x <<< y, ok_integer (shiftLeft_toInt64 x y), ?_⟩
    rw [Int32.toBitVec_shiftLeft, BitVec.shiftLeft_eq', toNat_smod]
  case h_5 =>
    refine ⟨x >>> y, ok_integer (shiftRight_toInt64 x y), ?_⟩
    rw [Int32.toBitVec_shiftRight, BitVec.sshiftRight_eq', toNat_smod]

/-! ## Division -/

/-- A quotient and a remainder of 32 bits. -/
structure Divides (x y q r : Int32) : Prop where
  quotient : q.toInt = (x.toInt.tdiv y.toInt).bmod (2 ^ 32)
  remainder : r.toInt = x.toInt.tmod y.toInt
  restores : (q.toInt * y.toInt + r.toInt).bmod (2 ^ 32) = x.toInt
  small : r.toInt.natAbs < y.toInt.natAbs
  sign : r = 0 ∨ r.toInt.sign = x.toInt.sign

theorem divides {y : Int32} (hy : y ≠ 0) (x : Int32) : Divides x y (x / y) (x % y) := by
  have hquotient : (x / y).toInt = (x.toInt.tdiv y.toInt).bmod (2 ^ 32) := toInt_div x y
  have hremainder : (x % y).toInt = x.toInt.tmod y.toInt := toInt_mod x y
  have hne : y.toInt ≠ 0 := fun h => hy (toInt_inj.mp h)
  refine ⟨hquotient, hremainder, ?_, ?_, ?_⟩
  · rw [hquotient, hremainder, ← Int.bmod_add_bmod, Int.bmod_mul_bmod, Int.bmod_add_bmod, Int.tdiv_mul_add_tmod]
    exact Int.bmod_eq_of_le x.le_toInt x.toInt_lt
  · rw [hremainder, Int.natAbs_tmod]
    exact Nat.mod_lt _ (Int.natAbs_pos.mpr hne)
  · have hsign := Int.sign_tmod x.toInt y.toInt
    rw [← toInt_inj, hremainder]
    split at hsign
    · exact .inl (Int.sign_eq_zero_iff_zero.mp hsign)
    · exact .inr hsign

theorem onReals_ne_divideByZero {f : Float → Float → Datum} {a b : Datum} : a.onReals f b ≠ .error .divideByZero := by
  unfold Datum.onReals
  split <;> exact nofun

theorem BinaryOp.divideByZero_iff {op : BinaryOp} (hop : op = .div ∨ op = .rem) (a b : Datum) :
    op.apply a b = .error .divideByZero ↔
      a.isNumeric = true ∧ (b = .integer 0 ∨ ∃ z, b = .real z ∧ (z == 0) = true) := by
  have hcheck : Datum.checkDivision a b = .error .divideByZero ↔
      a.isNumeric = true ∧ (b = .integer 0 ∨ ∃ z, b = .real z ∧ (z == 0) = true) := by
    have hzero : b.isNumeric = true ∧ b.isZero = true ↔ (b = .integer 0 ∨ ∃ z, b = .real z ∧ (z == 0) = true) := by
      cases b <;> simp [Datum.isNumeric, Datum.isZero]
    rw [← hzero]
    unfold Datum.checkDivision
    cases a.isNumeric <;> cases b.isNumeric <;> cases b.isZero <;> simp
  have hrest (next : Except Datum.Error Datum) (hnext : next ≠ .error .divideByZero) :
      arithmetic (Datum.checkDivision a b >>= fun _ => next) = .error .divideByZero ↔
        Datum.checkDivision a b = .error .divideByZero := by
    cases Datum.checkDivision a b with
    | ok u =>
      refine iff_of_false ?_ nofun
      match next, hnext with
      | .ok _, _ => exact nofun
      | .error .badKind, _ => exact nofun
      | .error .divideByZero, h => exact absurd rfl h
    | error e =>
      show Except.error (faultOf e) = _ ↔ _
      cases e <;> simp [faultOf]
  rcases hop with rfl | rfl
  · refine (hrest _ ?_).trans hcheck
    split
    · simp
    · exact onReals_ne_divideByZero
  · refine (hrest _ ?_).trans hcheck
    split
    · simp
    · exact onReals_ne_divideByZero

/-- Operations on integers are those of 32 bits. -/
theorem integer_operations_native (x y : Int32) : (∀ op f, UnaryOp.ideal? op = some f →
      ∃ r, Gives (op.apply (.integer x.toInt64)) r ∧ r.toInt = (f x.toInt).bmod (2 ^ 32)) ∧
    (∀ op f, ideal? op = some f → ∃ r, Gives (op.apply (.integer x.toInt64) (.integer y.toInt64)) r ∧
        r.toInt = (f x.toInt y.toInt).bmod (2 ^ 32)) ∧
    (y ≠ 0 → ∃ q r, Gives (div.apply (.integer x.toInt64) (.integer y.toInt64)) q ∧
      Gives (rem.apply (.integer x.toInt64) (.integer y.toInt64)) r ∧ Divides x y q r) ∧
    (∀ op f, bitwise? op = some f →
      ∃ r, Gives (op.apply (.integer x.toInt64) (.integer y.toInt64)) r ∧ r.toBitVec = f x.toBitVec y.toBitVec) ∧
    (∃ r, Gives (UnaryOp.not.apply (.integer x.toInt64)) r ∧ r.toBitVec = ~~~x.toBitVec) ∧
    ∀ op a b, op = div ∨ op = rem → (op.apply a b = .error .divideByZero ↔
      a.isNumeric = true ∧ (b = .integer 0 ∨ ∃ z, b = .real z ∧ (z == 0) = true)) := by
  refine ⟨fun op f h => UnaryOp.gives_exact h x, fun op f h => gives_exact h x y, fun hy => ?_,
    fun op f h => gives_bitwise h x y, ?_, fun op a b h => divideByZero_iff h a b⟩
  · exact ⟨x / y, x % y, (apply_div x y).trans (if_neg hy), (apply_rem x y).trans (if_neg hy),
      divides hy x⟩
  · exact ⟨~~~x, ok_integer (toInt64_complement x).symm, rfl⟩

end MiniPascal
