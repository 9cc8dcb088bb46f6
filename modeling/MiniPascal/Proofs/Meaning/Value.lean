import MiniPascal.Machine.Operation
import MiniPascal.Tree.Selection

/-!
# Values of expressions

The values of integer, boolean and character expressions, and what the operators and functions of the language
make of them. Integers have 32 bits and wrap. The operations of the machine do the same with the data that stand
for the values.
-/

namespace MiniPascal

open Int64 BinaryOp

/-- A number of 32 bits, a truth value or a character. -/
inductive Value where
  | integer (n : Int32)
  | boolean (b : Bool)
  | character (c : UInt8)
deriving DecidableEq, Repr

namespace Value

def datum : Value → Datum
  | integer n => .integer n.toInt64
  | boolean b => .boolean b
  | character c => .character c

def type : Value → TypeId
  | integer _ => .integer
  | boolean _ => .boolean
  | character _ => .char

def kind : Value → TypeKind
  | integer _ => .integer
  | boolean _ => .boolean
  | character _ => .character

def ordinal : Value → Int
  | integer n => n.toInt
  | boolean b => if b then 1 else 0
  | character c => c.toNat

end Value

def Operator.value : Operator → Value → Value → Except Fault Value
  | .add, .integer x, .integer y => .ok (.integer (x + y))
  | .sub, .integer x, .integer y => .ok (.integer (x - y))
  | .mul, .integer x, .integer y => .ok (.integer (x * y))
  | .div, .integer x, .integer y => if y = 0 then .error .divideByZero else .ok (.integer (x / y))
  | .mod, .integer x, .integer y => if y = 0 then .error .divideByZero else .ok (.integer (x % y))
  | .shl, .integer x, .integer y => .ok (.integer (x <<< y))
  | .shr, .integer x, .integer y => .ok (.integer (x >>> y))
  | .and, .integer x, .integer y => .ok (.integer (x &&& y))
  | .or, .integer x, .integer y => .ok (.integer (x ||| y))
  | .xor, .integer x, .integer y => .ok (.integer (x ^^^ y))
  | .and, .boolean x, .boolean y => .ok (.boolean (x && y))
  | .or, .boolean x, .boolean y => .ok (.boolean (x || y))
  | .xor, .boolean x, .boolean y => .ok (.boolean (x ^^ y))
  | _, _, _ => .error .badDataType

/-- Whether a relation holds between two numbers. -/
def Relation.test : Relation → Int → Int → Bool
  | .less, x, y => x < y
  | .lessEqual, x, y => x ≤ y
  | .equal, x, y => x = y
  | .greaterEqual, x, y => y ≤ x
  | .greater, x, y => y < x
  | .notEqual, x, y => x ≠ y

/-- The result of a comparison of two values of one type. -/
def Relation.value (r : Relation) (a b : Value) : Except Fault Value :=
  if a.type = b.type then .ok (.boolean (r.test a.ordinal b.ordinal)) else .error .badDataType

def Value.signed (negative : Bool) : Value → Except Fault Value
  | .integer n => .ok (.integer (if negative then -n else n))
  | _ => .error .badDataType

def Value.complement : Value → Except Fault Value
  | .boolean b => .ok (.boolean (!b))
  | .integer n => .ok (.integer (~~~n))
  | .character _ => .error .badDataType

/-- The value at a distance from another one, if the type has one. Numbers wrap. -/
def Value.neighbour (distance : Int32) : Value → Except Fault Value
  | .integer n => .ok (.integer (n + distance))
  | .boolean b =>
    let n := (if b then 1 else 0) + distance.toInt
    if n = 0 then .ok (.boolean false) else if n = 1 then .ok (.boolean true) else .error .outOfRange
  | .character c =>
    let n := c.toNat + distance.toInt
    if 0 ≤ n ∧ n ≤ 255 then .ok (.character (UInt8.ofNat n.toNat)) else .error .outOfRange

/-- The result of a built-in function of values that have ordinal numbers. -/
def Builtin.value : Builtin → Value → Except Fault Value
  | .abs, .integer n => .ok (.integer (if n < 0 then -n else n))
  | .sqr, .integer n => .ok (.integer (n * n))
  | .odd, .integer n => .ok (.boolean (n.toInt % 2 = 1))
  | .pred, v => v.neighbour (-1)
  | .succ, v => v.neighbour 1
  | .ord, v => .ok (.integer (Int32.ofInt v.ordinal))
  | .chr, .integer n =>
    if 0 ≤ n ∧ n ≤ 255 then .ok (.character (UInt8.ofNat n.toInt.toNat)) else .error .outOfRange
  | _, _ => .error .badDataType

def ResultOf (t : TypeId) : Except Fault Value → Prop
  | .ok v => v.type = t
  | .error f => f = .divideByZero ∨ f = .outOfRange

theorem ResultOf.bind {t t' : TypeId} {r : Except Fault Value} {next : Value → Except Fault Value} (h : ResultOf t r)
    (hnext : ∀ v, r = .ok v → v.type = t → ResultOf t' (next v)) : ResultOf t' (r >>= next) := by
  cases r with
  | ok v => exact hnext v rfl h
  | error f => exact h

theorem ok_integer {m n : Int64} (h : m = n) : (.ok (.integer m) : Except Fault Datum) = .ok (.integer n) := by
  rw [h]

/-! ## Arithmetic of 32 bits in words of 64 -/

theorem toInt32_div (x y : Int32) : (x.toInt64 / y.toInt64).toInt32 = x / y := by
  rw [← Int32.toInt_inj, toInt_toInt32, toInt_div, Int32.toInt_div, Int32.toInt_toInt64, Int32.toInt_toInt64]
  exact Int.bmod_bmod_of_dvd (by decide)

theorem toInt32_mod (x y : Int32) : (x.toInt64 % y.toInt64).toInt32 = x % y := by
  rw [← Int32.toInt64_mod, Int32.toInt32_toInt64]

theorem toInt64_complement (x : Int32) : (~~~x).toInt64 = ~~~x.toInt64 := by
  have hlower := x.le_toInt
  have hupper := x.toInt_lt
  rw [← toInt_inj, Int32.toInt_toInt64, toInt_not, Int32.toInt_not, Int32.toInt_toInt64,
    Int.bmod_eq_of_le (by omega) (by omega), Int.bmod_eq_of_le (by omega) (by omega)]

theorem toInt64_eq_zero {x : Int32} : x.toInt64 = 0 ↔ x = 0 := by
  rw [← toInt_inj, ← Int32.toInt_inj, Int32.toInt_toInt64]
  rfl

theorem toInt_ofNat_byte (c : UInt8) : (Int64.ofNat c.toNat).toInt = c.toNat := by
  have := c.toNat_lt
  exact toInt_ofNat_of_lt (by omega)

/-- The number of places of a shift is taken modulo 32. -/
theorem smod_mask (y : BitVec 32) : (y &&& 31).smod 32 = y.smod 32 := by
  apply BitVec.eq_of_toInt_eq
  have hand : (y &&& 31).toNat = y.toNat % 32 := by
    rw [BitVec.toNat_and]
    exact Nat.and_two_pow_sub_one_eq_mod y.toNat 5
  have hwidth : (32 : BitVec 32).toInt = 32 := by decide
  rw [BitVec.toInt_smod, BitVec.toInt_smod, hwidth, Int.fmod_eq_emod_of_nonneg _ (by decide),
    Int.fmod_eq_emod_of_nonneg _ (by decide), BitVec.toInt_eq_toNat_cond, BitVec.toInt_eq_toNat_cond, hand]
  split <;> split <;> omega

theorem shiftLeft_toInt64 (x y : Int32) : shiftLeft x.toInt64 y.toInt64 = (x <<< y).toInt64 := by
  unfold shiftLeft
  rw [toInt32_and, Int32.toInt32_toInt64, Int32.toInt32_toInt64]
  show (⟨⟨x.toBitVec <<< (y.toBitVec &&& 31).smod 32⟩⟩ : Int32).toInt64 = _
  rw [smod_mask]
  rfl

theorem shiftRight_toInt64 (x y : Int32) : shiftRight x.toInt64 y.toInt64 = (x >>> y).toInt64 := by
  unfold shiftRight
  rw [toInt32_and, Int32.toInt32_toInt64, Int32.toInt32_toInt64]
  show (⟨⟨x.toBitVec.sshiftRight' ((y.toBitVec &&& 31).smod 32)⟩⟩ : Int32).toInt64 = _
  rw [smod_mask]
  rfl

/-! ## Operations of the machine -/

namespace BinaryOp

variable (x y : Int32)

theorem apply_add : add.apply (.integer x.toInt64) (.integer y.toInt64) = .ok (.integer (x + y).toInt64) := by
  show Except.ok (Datum.integer (x.toInt64 + y.toInt64).toInt32.toInt64) = _
  rw [toInt32_add, Int32.toInt32_toInt64, Int32.toInt32_toInt64]

theorem apply_sub : sub.apply (.integer x.toInt64) (.integer y.toInt64) = .ok (.integer (x - y).toInt64) := by
  show Except.ok (Datum.integer (x.toInt64 - y.toInt64).toInt32.toInt64) = _
  rw [toInt32_sub, Int32.toInt32_toInt64, Int32.toInt32_toInt64]

theorem apply_mul : mul.apply (.integer x.toInt64) (.integer y.toInt64) = .ok (.integer (x * y).toInt64) := by
  show Except.ok (Datum.integer (x.toInt64 * y.toInt64).toInt32.toInt64) = _
  rw [toInt32_mul, Int32.toInt32_toInt64, Int32.toInt32_toInt64]

theorem checkDivision_integer : Datum.checkDivision (.integer x.toInt64) (.integer y.toInt64) =
    if y = 0 then .error .divideByZero else .ok () := by
  show (if (y.toInt64 == 0) = true then _ else _) = _
  simp only [beq_iff_eq, toInt64_eq_zero]

theorem apply_div : div.apply (.integer x.toInt64) (.integer y.toInt64) =
    if y = 0 then .error .divideByZero else .ok (.integer (x / y).toInt64) := by
  simp only [apply, Datum.div, checkDivision_integer]
  split
  · rfl
  · show Except.ok (Datum.integer (x.toInt64 / y.toInt64).toInt32.toInt64) = _
    rw [toInt32_div]

theorem apply_rem : rem.apply (.integer x.toInt64) (.integer y.toInt64) =
    if y = 0 then .error .divideByZero else .ok (.integer (x % y).toInt64) := by
  simp only [apply, Datum.rem, checkDivision_integer]
  split
  · rfl
  · show Except.ok (Datum.integer (x.toInt64 % y.toInt64).toInt32.toInt64) = _
    rw [toInt32_mod]

theorem compareWords_eq {a b : Int64} : Datum.compareWords a b = compareOfLessAndEq a.toInt b.toInt := by
  unfold Datum.compareWords compareOfLessAndEq
  simp only [lt_iff_toInt_lt]
  split
  · rfl
  · split
    · rw [if_neg (by omega)]
    · rw [if_pos (by omega)]

end BinaryOp

namespace Operator

variable {a b : Value} {code : List Instr}

theorem onNumbers_values {f : BinaryOp} (h : onNumbers f ⟨a.kind, b.kind⟩ = some code) :
    ∃ x y, a = .integer x ∧ b = .integer y ∧ code = [{ op := .binary f }] := by
  cases a <;> cases b <;> simp [onNumbers, Value.kind, TypeKind.isNumeric, Promotion.ofKinds, Promotion.code] at h
  exact ⟨_, _, rfl, rfl, h.symm⟩

theorem onIntegers_values {f : BinaryOp} (h : onIntegers f ⟨a.kind, b.kind⟩ = some code) :
    ∃ x y, a = .integer x ∧ b = .integer y ∧ code = [{ op := .binary f }] := by
  cases a <;> cases b <;> simp [onIntegers, Value.kind] at h
  exact ⟨_, _, rfl, rfl, h.symm⟩

theorem onLogical_values {f g : BinaryOp} (h : onLogical f g ⟨a.kind, b.kind⟩ = some code) :
    (∃ x y, a = .boolean x ∧ b = .boolean y ∧ code = [{ op := .binary f }]) ∨
      ∃ x y, a = .integer x ∧ b = .integer y ∧ code = [{ op := .binary g }] := by
  cases a <;> cases b <;> simp [onLogical, Value.kind] at h
  · exact .inr ⟨_, _, rfl, rfl, h.symm⟩
  · exact .inl ⟨_, _, rfl, rfl, h.symm⟩

theorem apply_select {op : Operator} (hop : op ≠ .divide) (h : op.select ⟨a.kind, b.kind⟩ = some code) :
    ResultOf (op.resultType ⟨a.kind, b.kind⟩) (op.value a b) ∧
      ∃ f : BinaryOp, code = [{ op := .binary f }] ∧ f.apply a.datum b.datum = (op.value a b).map Value.datum := by
  cases op with
  | divide => exact absurd rfl hop
  | add =>
    obtain ⟨x, y, rfl, rfl, rfl⟩ := onNumbers_values h
    exact ⟨rfl, _, rfl, apply_add x y⟩
  | sub =>
    obtain ⟨x, y, rfl, rfl, rfl⟩ := onNumbers_values h
    exact ⟨rfl, _, rfl, apply_sub x y⟩
  | mul =>
    obtain ⟨x, y, rfl, rfl, rfl⟩ := onNumbers_values h
    exact ⟨rfl, _, rfl, apply_mul x y⟩
  | div =>
    obtain ⟨x, y, rfl, rfl, rfl⟩ := onIntegers_values h
    refine ⟨?_, _, rfl, (apply_div x y).trans ?_⟩
    · simp only [value]
      split
      · exact .inl rfl
      · rfl
    · simp only [value]
      split <;> rfl
  | mod =>
    obtain ⟨x, y, rfl, rfl, rfl⟩ := onIntegers_values h
    refine ⟨?_, _, rfl, (apply_rem x y).trans ?_⟩
    · simp only [value]
      split
      · exact .inl rfl
      · rfl
    · simp only [value]
      split <;> rfl
  | shl =>
    obtain ⟨x, y, rfl, rfl, rfl⟩ := onIntegers_values h
    exact ⟨rfl, _, rfl, ok_integer (shiftLeft_toInt64 x y)⟩
  | shr =>
    obtain ⟨x, y, rfl, rfl, rfl⟩ := onIntegers_values h
    exact ⟨rfl, _, rfl, ok_integer (shiftRight_toInt64 x y)⟩
  | and =>
    obtain ⟨x, y, rfl, rfl, rfl⟩ | ⟨x, y, rfl, rfl, rfl⟩ := onLogical_values h
    · exact ⟨rfl, _, rfl, rfl⟩
    · exact ⟨rfl, _, rfl, ok_integer (Int32.toInt64_and x y).symm⟩
  | or =>
    obtain ⟨x, y, rfl, rfl, rfl⟩ | ⟨x, y, rfl, rfl, rfl⟩ := onLogical_values h
    · exact ⟨rfl, _, rfl, rfl⟩
    · exact ⟨rfl, _, rfl, ok_integer (Int32.toInt64_or x y).symm⟩
  | xor =>
    obtain ⟨x, y, rfl, rfl, rfl⟩ | ⟨x, y, rfl, rfl, rfl⟩ := onLogical_values h
    · refine ⟨rfl, _, rfl, ?_⟩
      cases x <;> cases y <;> rfl
    · exact ⟨rfl, _, rfl, ok_integer (Int32.toInt64_xor x y).symm⟩

end Operator

theorem Relation.holds_compare (r : Relation) (x y : Int) : r.holds (compareOfLessAndEq x y) = r.test x y := by
  unfold compareOfLessAndEq
  split
  · cases r <;> simp [holds, test] <;> omega
  · split
    · cases r <;> simp [holds, test] <;> omega
    · cases r <;> simp [holds, test] <;> omega

theorem Value.compare_datum {a b : Value} (h : a.kind = b.kind) :
    a.datum.compare b.datum = .ok (compareOfLessAndEq a.ordinal b.ordinal) := by
  have hwords {x y : Int64} {i j : Int} (hx : x.toInt = i) (hy : y.toInt = j) :
      Except.ok (Datum.compareWords x y) = (.ok (compareOfLessAndEq i j) : Except Datum.Error Ordering) := by
    rw [compareWords_eq, hx, hy]
  have hbool (b : Bool) : (Datum.ordOfBool b).toInt = if b then 1 else 0 := by cases b <;> rfl
  cases a <;> cases b <;> cases h
  · exact hwords (Int32.toInt_toInt64 _) (Int32.toInt_toInt64 _)
  · exact hwords (hbool _) (hbool _)
  · exact hwords (toInt_ofNat_byte _) (toInt_ofNat_byte _)

theorem Relation.apply_compare (r : Relation) {a b : Value} (h : a.kind = b.kind) : ResultOf .boolean (r.value a b) ∧
      (compare r).apply a.datum b.datum = (r.value a b).map Value.datum := by
  have htype : a.type = b.type := by cases a <;> cases b <;> first | rfl | cases h
  unfold Relation.value
  rw [if_pos htype]
  refine ⟨rfl, ?_⟩
  show ((a.datum.compare b.datum).mapError _).map _ = _
  rw [Value.compare_datum h]
  exact congrArg (fun b => Except.ok (Datum.boolean b)) (r.holds_compare _ _)

theorem Value.apply_neg (x : Int32) : UnaryOp.neg.apply (.integer x.toInt64) = .ok (.integer (-x).toInt64) := by
  show Except.ok (Datum.integer (-x.toInt64).toInt32.toInt64) = _
  rw [toInt32_neg, Int32.toInt32_toInt64]

theorem Value.apply_abs (x : Int32) :
    UnaryOp.abs.apply (.integer x.toInt64) = .ok (.integer (if x < 0 then -x else x).toInt64) := by
  have hneg : x.toInt64 < 0 ↔ x < 0 := Int32.toInt64_lt (b := 0)
  show Except.ok (Datum.integer (if x.toInt64 < 0 then -x.toInt64 else x.toInt64).toInt32.toInt64) = _
  simp only [hneg, apply_ite Int64.toInt32, toInt32_neg, Int32.toInt32_toInt64]

theorem Value.apply_sqr (x : Int32) : UnaryOp.sqr.apply (.integer x.toInt64) = .ok (.integer (x * x).toInt64) := by
  show Except.ok (Datum.integer (x.toInt64 * x.toInt64).toInt32.toInt64) = _
  rw [toInt32_mul, Int32.toInt32_toInt64]

theorem Value.apply_complement {v : Value} (h : v.kind = .boolean ∨ v.kind = .integer) :
    ResultOf v.type v.complement ∧ UnaryOp.not.apply v.datum = v.complement.map Value.datum := by
  cases v with
  | integer n => exact ⟨rfl, ok_integer (toInt64_complement n).symm⟩
  | boolean b => exact ⟨rfl, rfl⟩
  | character c =>
    rcases h with h | h
    · cases h
    · cases h

theorem odd_toInt64 (x : Int32) : x.toInt64 &&& 1 ≠ 0 ↔ x.toInt % 2 = 1 := by
  have hand : (x.toBitVec &&& 1).toNat = x.toBitVec.toNat % 2 := by
    rw [BitVec.toNat_and]
    exact Nat.and_two_pow_sub_one_eq_mod x.toBitVec.toNat 1
  have hone : x.toInt64 &&& 1 = (x &&& 1).toInt64 := (Int32.toInt64_and x 1).symm
  have hint : x.toInt = x.toBitVec.toInt := rfl
  rw [hone, ne_eq, toInt64_eq_zero, ← Int32.toBitVec_inj, ← BitVec.toNat_inj, Int32.toBitVec_and, hint,
    BitVec.toInt_eq_toNat_cond]
  show ¬(x.toBitVec &&& 1).toNat = 0 ↔ _
  rw [hand]
  split <;> omega

namespace Value

theorem apply_neighbour {d : Int64} {e : Int32} (hd : d = e.toInt64) (he : e = 1 ∨ e = -1) (v : Value) :
    ResultOf v.type (v.neighbour e) ∧ UnaryOp.neighbour d v.datum = (v.neighbour e).map datum := by
  subst hd
  cases v with
  | integer n =>
    refine ⟨rfl, ?_⟩
    show Except.ok (Datum.integer (n.toInt64 + e.toInt64).toInt32.toInt64) = _
    rw [toInt32_add, Int32.toInt32_toInt64, Int32.toInt32_toInt64]
    rfl
  | boolean b =>
    rcases he with rfl | rfl
    · cases b
      · exact ⟨rfl, rfl⟩
      · exact ⟨.inr rfl, rfl⟩
    · cases b
      · exact ⟨.inr rfl, rfl⟩
      · exact ⟨rfl, rfl⟩
  | character c =>
    have hc := c.toNat_lt
    have he' : e.toInt = 1 ∨ e.toInt = -1 := by
      rcases he with rfl | rfl
      · exact .inl rfl
      · exact .inr rfl
    have hsum : (Int64.ofNat c.toNat + e.toInt64).toInt = c.toNat + e.toInt := by
      rw [toInt_add, toInt_ofNat_byte, Int32.toInt_toInt64]
      exact Int.bmod_eq_of_le (by omega) (by omega)
    have hlimit : (255 : Int64).toInt = 255 := rfl
    have hzero : (0 : Int64).toInt = 0 := rfl
    simp only [neighbour, UnaryOp.neighbour, datum, Bool.or_eq_true, decide_eq_true_eq, lt_iff_toInt_lt, hsum,
      hlimit, hzero]
    by_cases hfits : 0 ≤ (c.toNat : Int) + e.toInt ∧ (c.toNat : Int) + e.toInt ≤ 255
    · rw [if_pos hfits, if_neg (by omega)]
      exact ⟨rfl, rfl⟩
    · rw [if_neg hfits, if_pos (by omega)]
      exact ⟨.inr rfl, rfl⟩

theorem ordinal_datum (v : Value) : v.datum.ordinal? = some (Int32.ofInt v.ordinal).toInt64 := by
  cases v with
  | integer n =>
    show some n.toInt64 = some (Int32.ofInt n.toInt).toInt64
    rw [Int32.ofInt_toInt]
  | boolean b => cases b <;> rfl
  | character c =>
    have hc := c.toNat_lt
    show some (Int64.ofNat c.toNat) = some (Int32.ofInt c.toNat).toInt64
    rw [Option.some.injEq, ← toInt_inj, toInt_ofNat_byte, Int32.toInt_toInt64,
      Int32.toInt_ofInt_of_le (by omega) (by omega)]

theorem apply_chr (n : Int32) : ResultOf .char (Builtin.chr.value (.integer n)) ∧
      UnaryOp.chr.apply (.integer n.toInt64) = (Builtin.chr.value (.integer n)).map datum := by
  have hlimit : (255 : Int64).toInt = 255 := rfl
  have hzero : (0 : Int64).toInt = 0 := rfl
  have hlimit' : (255 : Int32).toInt = 255 := rfl
  have hzero' : (0 : Int32).toInt = 0 := rfl
  simp only [Builtin.value, UnaryOp.apply, Bool.or_eq_true, decide_eq_true_eq, lt_iff_toInt_lt,
    Int32.le_iff_toInt_le, Int32.toInt_toInt64, hlimit, hzero, hlimit', hzero']
  by_cases hfits : 0 ≤ n.toInt ∧ n.toInt ≤ 255
  · rw [if_pos hfits, if_neg (by omega)]
    exact ⟨rfl, rfl⟩
  · rw [if_neg hfits, if_pos (by omega)]
    exact ⟨.inr rfl, rfl⟩

end Value

namespace Builtin

def isOrdinal : Builtin → Bool
  | .abs | .sqr | .odd | .pred | .succ | .ord | .chr => true
  | _ => false

def takes : Builtin → TypeKind → Bool
  | .abs, k | .sqr, k | .odd, k | .chr, k => k = .integer
  | _, _ => true

def resultType : Builtin → TypeId → TypeId
  | .odd, _ => .boolean
  | .ord, _ => .integer
  | .chr, _ => .char
  | _, t => t

theorem apply_select {f : Builtin} (hf : f.isOrdinal = true) {v : Value} (h : f.takes v.kind = true) :
    ResultOf (f.resultType v.type) (f.value v) ∧
      ∃ op : UnaryOp, f.select v.kind = [{ op := .unary op }] ∧ op.apply v.datum = (f.value v).map Value.datum := by
  have hinteger (hk : v.kind = .integer) : ∃ n, v = .integer n := by
    cases v with
    | integer n => exact ⟨n, rfl⟩
    | boolean b => cases hk
    | character c => cases hk
  cases f with
  | abs =>
    obtain ⟨n, rfl⟩ := hinteger (of_decide_eq_true h)
    exact ⟨rfl, _, rfl, Value.apply_abs n⟩
  | sqr =>
    obtain ⟨n, rfl⟩ := hinteger (of_decide_eq_true h)
    exact ⟨rfl, _, rfl, Value.apply_sqr n⟩
  | odd =>
    obtain ⟨n, rfl⟩ := hinteger (of_decide_eq_true h)
    exact ⟨rfl, _, rfl, congrArg (fun b => Except.ok (Datum.boolean b)) (decide_eq_decide.mpr (odd_toInt64 n))⟩
  | pred =>
    obtain ⟨hout, happly⟩ := Value.apply_neighbour (d := -1) (e := -1) rfl (.inr rfl) v
    exact ⟨hout, _, rfl, happly⟩
  | succ =>
    obtain ⟨hout, happly⟩ := Value.apply_neighbour (d := 1) (e := 1) rfl (.inl rfl) v
    exact ⟨hout, _, rfl, happly⟩
  | ord =>
    refine ⟨rfl, _, rfl, ?_⟩
    simp only [UnaryOp.apply, v.ordinal_datum]
    rfl
  | chr =>
    obtain ⟨n, rfl⟩ := hinteger (of_decide_eq_true h)
    obtain ⟨hout, happly⟩ := Value.apply_chr n
    exact ⟨hout, _, rfl, happly⟩
  | _ => cases hf

end Builtin

end MiniPascal
