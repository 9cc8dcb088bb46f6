import MiniPascal.Machine.Operation
import MiniPascal.Proofs.Word

/-!
# Results and faults of operations

Integers of a given number of bits, at least 32 with the sign, stay what they are under every operation, and an
operation is refused only for the kinds of its operands, for a divisor of zero, or by those operations that
have a range. An address comes only from an address that is moved by an integer.
-/

namespace MiniPascal

/-- What is expected of a computation: a result with a property, or a fault that may be. -/
def Machine.Expects {α : Type} (F : Fault → Prop) (Q : α → Prop) : Except Fault α → Prop
  | .ok a => Q a
  | .error f => F f

namespace Machine.Expects

variable {α β : Type} {F F' : Fault → Prop} {P Q : α → Prop} {R : β → Prop} {r : Except Fault α} {a : α}

section

variable (h : Expects F P r)

include h

theorem ok (hr : r = .ok a) : P a := by
  subst hr
  exact h

theorem error {f : Fault} (hr : r = .error f) : F f := by
  subst hr
  exact h

theorem mono (hF : ∀ f, F f → F' f) (hP : ∀ a, P a → Q a) : Expects F' Q r := by
  cases r with
  | ok a => exact hP a h
  | error f => exact hF f h

theorem bind {g : α → Except Fault β} (hg : ∀ a, P a → Expects F R (g a)) : Expects F R (r >>= g) := by
  cases r with
  | ok a => exact hg a h
  | error f => exact h

theorem map {g : α → β} (hF : ∀ f, F f → F' f) (hR : ∀ a, r = .ok a → P a → R (g a)) : Expects F' R (r.map g) := by
  cases r with
  | ok a => exact hR a rfl h
  | error f => exact hF f h

end

theorem of_map {g : α → β} (h : Expects F R (r.map g)) (hr : r = .ok a) : R (g a) := by
  subst hr
  exact h

end Machine.Expects

open Machine Word Datum

/-- An integer of at most 49 bits, or no integer. -/
def Datum.Narrow : Datum → Prop
  | .integer n => -2 ^ 48 ≤ n.toInt ∧ n.toInt < 2 ^ 48
  | _ => True

def Word.Signed (w : Nat) (n : Int64) : Prop := -2 ^ w ≤ n.toInt ∧ n.toInt < 2 ^ w

/-- An integer of at most a number of bits besides its sign, an address with a property, or any other datum. -/
def Datum.Within (w : Nat) (P : Int64 → Prop) : Datum → Prop
  | .integer n => Word.Signed w n
  | .address a => P a
  | _ => True

variable {d : Datum}

theorem Datum.narrow_iff : d.Narrow ↔ d.Within 48 fun _ => True := by
  cases d <;> rfl

variable {w : Nat} {P Q : Int64 → Prop} {a b r : Datum}

namespace Word

/-- The words of so many bits are those that are extended from them. -/
theorem signed_iff (hw : w ≤ 63) {a : Int64} : Signed w a ↔
    (a.toBitVec.setWidth (w + 1)).signExtend 64 = a.toBitVec := by
  have htoInt : ((a.toBitVec.setWidth (w + 1)).signExtend 64).toInt = a.toInt.bmod (2 ^ (w + 1)) := by
    rw [BitVec.toInt_signExtend_of_le (by omega), BitVec.toInt_setWidth, ← Int64.toInt_toBitVec,
      BitVec.toInt_eq_toNat_bmod, Int.bmod_bmod_of_dvd (Nat.pow_dvd_pow 2 (by omega))]
  have hpow : ((2 ^ (w + 1) : Nat) : Int) = 2 ^ w * 2 := by rw [Nat.pow_succ]; simp
  show (_ ∧ _) ↔ _
  constructor
  · intro ⟨hlower, hupper⟩
    apply BitVec.eq_of_toInt_eq
    rw [htoInt, Int64.toInt_toBitVec]
    apply Int.bmod_eq_of_le <;> omega
  · intro h
    have hlower := BitVec.le_toInt (a.toBitVec.setWidth (w + 1))
    have hupper := BitVec.toInt_lt (x := a.toBitVec.setWidth (w + 1))
    rw [← BitVec.toInt_signExtend_of_le (v := 64) (by omega), h, Int64.toInt_toBitVec] at hlower hupper
    exact ⟨hlower, hupper⟩

theorem signed_and (hw : w ≤ 63) {a b : Int64} (ha : Signed w a) (hb : Signed w b) : Signed w (a &&& b) := by
  rw [signed_iff hw] at *
  rw [Int64.toBitVec_and, BitVec.setWidth_and, BitVec.signExtend_and, ha, hb]

theorem signed_or (hw : w ≤ 63) {a b : Int64} (ha : Signed w a) (hb : Signed w b) : Signed w (a ||| b) := by
  rw [signed_iff hw] at *
  rw [Int64.toBitVec_or, BitVec.setWidth_or, BitVec.signExtend_or, ha, hb]

theorem signed_xor (hw : w ≤ 63) {a b : Int64} (ha : Signed w a) (hb : Signed w b) : Signed w (a ^^^ b) := by
  rw [signed_iff hw] at *
  rw [Int64.toBitVec_xor, BitVec.setWidth_xor, BitVec.signExtend_xor, ha, hb]

theorem signed_not {a : Int64} (ha : Signed w a) : Signed w (~~~a) := by
  obtain ⟨hlower, hupper⟩ := ha
  have hfits := fits_toInt a
  show _ ∧ _
  rw [Int64.toInt_not, bmod_eq ⟨by have := hfits.2; omega, by have := hfits.1; omega⟩]
  omega

/-- A number of 32 bits has at most as many as there may be. -/
theorem signed_of_bounds (hw : 31 ≤ w) {a : Int64} (hlower : -2 ^ 31 ≤ a.toInt) (hupper : a.toInt < 2 ^ 31) :
    Signed w a := by
  have hpow : (2 : Nat) ^ 31 ≤ 2 ^ w := Nat.pow_le_pow_right (by decide) hw
  have hcast : ((2 ^ w : Nat) : Int) = 2 ^ w := by simp
  show _ ∧ _
  omega

/-- A word that comes from 32 bits. -/
theorem signed_toInt64 (hw : 31 ≤ w) (a : Int32) : Signed w a.toInt64 := by
  have hlower := a.le_toInt
  have hupper := a.toInt_lt
  apply signed_of_bounds hw <;> rw [Int32.toInt_toInt64]
  · exact hlower
  · exact hupper

end Word

namespace Datum

theorem within_wrapped (hw : 31 ≤ w) (v : Int64) : (wrapped v).Within w P := signed_toInt64 hw v.toInt32

/-- The ordinal number of a datum. -/
theorem Within.ordinal (hw : 31 ≤ w) (h : d.Within w P) {v : Int64} (hv : d.ordinal? = some v) : Word.Signed w v := by
  cases d with
  | integer n =>
    cases hv
    exact h
  | boolean b =>
    cases hv
    cases b <;> exact signed_of_bounds hw (by decide) (by decide)
  | character c =>
    cases hv
    have := c.toNat_lt
    apply signed_of_bounds hw <;> rw [toInt_ofNat (by omega)] <;> omega
  | real x => cases hv
  | address a => cases hv

theorem within_onReals {f : Float → Float → Float} (h : onReals (fun x y => .real (f x y)) a b = .ok r) :
    r.Within w P := by
  unfold onReals at h
  split at h
  · cases h
    trivial
  · cases h

end Datum

namespace UnaryOp

def isRanged : UnaryOp → Bool
  | .round | .trunc | .log | .sqrt | .pred | .succ | .chr => true
  | _ => false

/-- What an operation refuses: data of other kinds, and some operations numbers out of a range. -/
def Refuses (op : UnaryOp) (f : Fault) : Prop := f = .badDataType ∨ f = .outOfRange ∧ op.isRanged = true

theorem numeric_within (hw : 31 ≤ w) (f : Int64 → Int64) (g : Float → Float) (d : Datum) :
    Expects (· = .badDataType) (Datum.Within w P) (numeric f g d) := by
  cases d with
  | integer v => exact within_wrapped (P := P) hw _
  | real x => trivial
  | _ => exact rfl

theorem analytic_within (inDomain : Float → Bool) (f : Float → Float) (d : Datum) :
    Expects (fun e => e = .badDataType ∨ e = .outOfRange ∧ ∃ x, inDomain x = false) (Datum.Within w P)
      (analytic inDomain f d) := by
  unfold analytic
  split
  · next x _ =>
    split
    · trivial
    · next h => exact .inr ⟨rfl, x, by simpa using h⟩
  · exact .inl rfl

theorem neighbour_within (hw : 31 ≤ w) (distance : Int64) (d : Datum) :
    Expects (fun e => e = .badDataType ∨ e = .outOfRange) (Datum.Within w P) (neighbour distance d) := by
  cases d with
  | integer v => exact within_wrapped (P := P) hw _
  | boolean b | character b =>
    simp only [neighbour]
    split
    · exact .inr rfl
    · trivial
  | _ => exact .inl rfl

theorem wholeOrFault_within (hw : 31 ≤ w) (n : Option Int) :
    Expects (· = .outOfRange) (Datum.Within w P) (wholeOrFault n) := by
  cases n with
  | none => exact rfl
  | some n =>
    unfold wholeOrFault
    dsimp only
    split
    · next h =>
      simp only [inRange32, Bool.and_eq_true, decide_eq_true_eq] at h
      have hn : (Int64.ofInt n).toInt = n := Int64.toInt_ofInt_of_le (by omega) (by omega)
      apply signed_of_bounds hw <;> omega
    · exact rfl

theorem apply_within (op : UnaryOp) (hw : 31 ≤ w) (hd : d.Within w P) :
    Expects op.Refuses (Datum.Within w P) (op.apply d) := by
  have total (f : Float → Float) : Expects op.Refuses (Datum.Within w P) (analytic (fun _ => true) f d) := by
    refine (analytic_within _ f d).mono (fun e he => ?_) fun _ h => h
    rcases he with he | ⟨-, x, hx⟩
    · exact .inl he
    · cases hx
  cases op with
  | neg | abs | sqr => exact (numeric_within hw _ _ d).mono (fun _ => .inl) fun _ h => h
  | itor | atan | cos | exp | sin => exact total _
  | log | sqrt => exact (analytic_within _ _ d).mono (fun _ h => h.imp_right fun h => ⟨h.1, rfl⟩) fun _ h => h
  | pred | succ => exact (neighbour_within hw _ d).mono (fun _ h => h.imp_right fun h => ⟨h, rfl⟩) fun _ h => h
  | round | trunc =>
    cases d with
    | real x => exact (wholeOrFault_within hw _).mono (fun _ h => .inr ⟨h, rfl⟩) fun _ h => h
    | _ => exact .inl rfl
  | odd =>
    cases d with
    | integer v => trivial
    | _ => exact .inl rfl
  | ord =>
    simp only [apply]
    cases hv : d.ordinal? with
    | some v => exact hd.ordinal hw hv
    | none => exact .inl rfl
  | chr =>
    cases d with
    | integer v =>
      unfold apply
      dsimp only
      split
      · exact .inr ⟨rfl, rfl⟩
      · trivial
    | _ => exact .inl rfl
  | not =>
    cases d with
    | integer v => exact signed_not hd
    | boolean b => trivial
    | _ => exact .inl rfl

theorem apply_narrow (op : UnaryOp) (hd : d.Narrow) : Expects op.Refuses Datum.Narrow (op.apply d) :=
  (op.apply_within (by decide) (narrow_iff.mp hd)).mono (fun _ h => h) fun _ => narrow_iff.mpr

end UnaryOp

namespace BinaryOp

/-- What an operation refuses: data of other kinds, and a divisor of zero. -/
def Refuses (f : Fault) : Prop := f = .badDataType ∨ f = .divideByZero

theorem onIntegers_within {f : Int64 → Int64 → Int64}
    (hf : ∀ x y, Word.Signed w x → Word.Signed w y → Word.Signed w (f x y)) (ha : a.Within w P) (hb : b.Within w P) :
    Expects Refuses (Datum.Within w Q) (onIntegers f a b) := by
  cases a with
  | integer x =>
    cases b with
    | integer y => exact hf x y ha hb
    | _ => exact .inl rfl
  | _ => exact .inl rfl

theorem onBooleans_within (f : Bool → Bool → Bool) (a b : Datum) :
    Expects Refuses (Datum.Within w P) (onBooleans f a b) := by
  cases a with
  | boolean x =>
    cases b with
    | boolean y => trivial
    | _ => exact .inl rfl
  | _ => exact .inl rfl

variable {e : Except Datum.Error Datum}

theorem arithmetic_within (he : ∀ r, e = .ok r → r.Within w P) :
    Expects Refuses (Datum.Within w P) (arithmetic e) := by
  match e with
  | .ok r => exact he r rfl
  | .error .badKind => exact .inl rfl
  | .error .divideByZero => exact .inr rfl

/-- Addresses with one property have another one after they were moved by an integer. -/
def Moves (w : Nat) (P Q : Int64 → Prop) : Prop := ∀ a n, P a → Word.Signed w n → Q (a + n) ∧ Q (a - n)

theorem within_add (hw : 31 ≤ w) (hmoves : Moves w P Q) (ha : a.Within w P) (hb : b.Within w P) (h : a.add b = .ok r) :
    r.Within w Q := by
  unfold Datum.add at h
  split at h
  · cases h
    exact within_wrapped hw _
  · next x y =>
    cases h
    exact (hmoves x y ha hb).1
  · next x y =>
    cases h
    show Q (x + y)
    rw [Int64.add_comm]
    exact (hmoves y x hb ha).1
  · exact within_onReals h

theorem within_sub (hw : 31 ≤ w) (hmoves : Moves w P Q) (ha : a.Within w P) (hb : b.Within w P) (h : a.sub b = .ok r) :
    r.Within w Q := by
  unfold Datum.sub at h
  split at h
  · cases h
    exact within_wrapped hw _
  · next x y =>
    cases h
    exact (hmoves x y ha hb).2
  · exact within_onReals h

theorem within_mul (hw : 31 ≤ w) (h : a.mul b = .ok r) : r.Within w P := by
  unfold Datum.mul at h
  split at h
  · cases h
    exact within_wrapped hw _
  · exact within_onReals h

theorem within_checked (he : ∀ r, e = .ok r → r.Within w P) (h : (checkDivision a b >>= fun _ => e) = .ok r) :
    r.Within w P := by
  cases hcheck : checkDivision a b with
  | error e => simp [hcheck, bind, Except.bind] at h
  | ok u =>
    rw [hcheck] at h
    exact he r h

theorem within_quotient (hw : 31 ≤ w) (h : a.div b = .ok r ∨ a.rem b = .ok r) : r.Within w P := by
  rcases h with h | h
  all_goals
    refine within_checked (fun r hr => ?_) h
    split at hr
    · cases hr
      exact within_wrapped hw _
    · exact within_onReals hr

/-- What a binary operation can give. Only a sum or a difference is an address, and it is an operand moved. -/
theorem apply_within (op : BinaryOp) (hlow : 31 ≤ w) (hhigh : w ≤ 63) (hmoves : Moves w P Q) (ha : a.Within w P)
    (hb : b.Within w P) : Expects Refuses (Datum.Within w Q) (op.apply a b) := by
  cases op with
  | add => exact arithmetic_within fun r => within_add hlow hmoves ha hb
  | sub => exact arithmetic_within fun r => within_sub hlow hmoves ha hb
  | mul => exact arithmetic_within fun r => within_mul hlow
  | div => exact arithmetic_within fun r h => within_quotient hlow (.inl h)
  | rem => exact arithmetic_within fun r h => within_quotient hlow (.inr h)
  | band => exact onIntegers_within (fun x y => signed_and hhigh) ha hb
  | bor => exact onIntegers_within (fun x y => signed_or hhigh) ha hb
  | bxor => exact onIntegers_within (fun x y => signed_xor hhigh) ha hb
  | shl | shr => exact onIntegers_within (fun x y _ _ => signed_toInt64 hlow _) ha hb
  | or | and => exact onBooleans_within _ a b
  | compare r =>
    simp only [apply]
    match a.compare b with
    | .ok o => trivial
    | .error .badKind => exact .inl rfl
    | .error .divideByZero => exact .inr rfl

theorem apply_narrow (op : BinaryOp) (ha : a.Narrow) (hb : b.Narrow) : Expects Refuses Datum.Narrow (op.apply a b) :=
  (op.apply_within (by decide) (by decide) (fun _ _ _ _ => ⟨trivial, trivial⟩) (narrow_iff.mp ha)
    (narrow_iff.mp hb)).mono (fun _ h => h) fun _ => narrow_iff.mpr

end BinaryOp

end MiniPascal
