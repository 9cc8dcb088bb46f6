import MiniPascal.Proofs.Machine.Instruction
import MiniPascal.Proofs.Meaning.Value

/-!
# Ordinal data

Integers, truth values and characters have ordinal numbers. Data of one kind compare as their ordinal numbers do, and the
neighbour of a datum has the next ordinal number, as long as that is one of 32 bits and a datum of the kind has it.
-/

namespace MiniPascal

open Int64

def Datum.rank (d : Datum) : Int := (d.ordinal?.getD 0).toInt

namespace Datum

theorem rank_eq {d : Datum} {v : Int64} (h : d.ordinal? = some v) : d.rank = v.toInt := by
  rw [rank, h]
  rfl

theorem wrapped_eq {v : Int64} (hlower : -2 ^ 31 ≤ v.toInt) (hupper : v.toInt < 2 ^ 31) :
    Datum.wrapped v = .integer v := by
  have hwrap := Slot.toInt_wrap32 (v := v) rfl ⟨hlower, hupper⟩
  exact congrArg Datum.integer (toInt_inj.mp hwrap)

theorem ordOfBool_eq {n : Int64} (hlower : 0 ≤ n.toInt) (hupper : n.toInt ≤ 1) : ordOfBool (n ≠ 0) = n := by
  obtain rfl | rfl : n = 0 ∨ n = 1 := by
    rw [← toInt_inj, ← toInt_inj, Word.toInt_zero, Word.toInt_one]
    omega
  · rfl
  · rfl

theorem ofNat_toUInt8_eq {n : Int64} (hlower : 0 ≤ n.toInt) (hupper : n.toInt ≤ 255) :
    Int64.ofNat n.toInt.toNat.toUInt8.toNat = n := by
  rw [← toInt_inj, Nat.toUInt8, UInt8.toNat_ofNat_of_lt' (show n.toInt.toNat < 256 by omega), Word.toInt_ofNat (by omega)]
  omega

theorem rank_character (c : UInt8) : (character c).rank = c.toNat := by
  have hlt := c.toNat_lt
  exact Word.toInt_ofNat (by omega)

end Datum

/-- The ordinal number of a datum is one that a type has, if that is an ordinal type. -/
def TypeTable.InRange (ts : TypeTable) (t : TypeId) (d : Datum) : Prop :=
  ts.isOrdinal t = true → (ts.bounds t).lower.toInt ≤ d.rank ∧ d.rank ≤ (ts.bounds t).upper.toInt

/-! ## Kinds -/

namespace TypeKind

variable {kind : TypeKind} {d d' : Datum}

section

variable (h : kind.holds d = true)

include h

theorem exists_ordinal (hord : kind.isOrdinal = true) : ∃ v, d.ordinal? = some v := by
  cases d with
  | integer v => exact ⟨v, rfl⟩
  | boolean b => exact ⟨_, rfl⟩
  | character c => exact ⟨_, rfl⟩
  | real x =>
    cases kind with
    | real => cases hord
    | _ => cases h
  | address a =>
    cases kind with
    | pointer => cases hord
    | _ => cases h

theorem ordinal_cases (hord : kind.isOrdinal = true) (h' : kind.holds d' = true) :
    (∃ v v', d = .integer v ∧ d' = .integer v') ∨ (∃ b b', d = .boolean b ∧ d' = .boolean b') ∨
      ∃ c c', d = .character c ∧ d' = .character c' := by
  cases kind with
  | integer | enumeration =>
    cases d with
    | integer v =>
      cases d' with
      | integer v' => exact .inl ⟨v, v', rfl, rfl⟩
      | _ => cases h'
    | _ => cases h
  | boolean =>
    cases d with
    | boolean b =>
      cases d' with
      | boolean b' => exact .inr (.inl ⟨b, b', rfl, rfl⟩)
      | _ => cases h'
    | _ => cases h
  | character =>
    cases d with
    | character c =>
      cases d' with
      | character c' => exact .inr (.inr ⟨c, c', rfl, rfl⟩)
      | _ => cases h'
    | _ => cases h
  | _ => cases hord

/-- Data of one kind are told apart by their ordinal numbers. -/
theorem eq_of_rank (hord : kind.isOrdinal = true) (h' : kind.holds d' = true) (hrank : d.rank = d'.rank) : d = d' := by
  obtain ⟨v, v', rfl, rfl⟩ | ⟨b, b', rfl, rfl⟩ | ⟨c, c', rfl, rfl⟩ := ordinal_cases h hord h'
  · exact congrArg Datum.integer (toInt_inj.mp hrank)
  · have hofBool : ∀ b b', (Datum.boolean b).rank = (Datum.boolean b').rank → b = b' := by decide
    exact congrArg Datum.boolean (hofBool b b' hrank)
  · rw [Datum.rank_character, Datum.rank_character] at hrank
    exact congrArg Datum.character (UInt8.toNat_inj.mp (by omega))

end

end TypeKind

/-! ## Neighbours -/

theorem UnaryOp.ordinal_neighbour (distance : Int64) {d r : Datum} {v : Int64} (hv : d.ordinal? = some v)
    (hr : neighbour distance d = .ok r) (hrange : inRange32 (v.toInt + distance.toInt) = true) :
    ∃ u, r.ordinal? = some u ∧ u.toInt = v.toInt + distance.toInt := by
  simp only [inRange32, Bool.and_eq_true, decide_eq_true_eq] at hrange
  have hnext : (v + distance).toInt = v.toInt + distance.toInt := Word.add_eq rfl rfl (by omega)
  cases d with
  | integer n =>
    obtain rfl : n = v := Option.some.inj hv
    cases hr
    exact ⟨_, rfl, Slot.toInt_wrap32 hnext (by omega)⟩
  | boolean b =>
    obtain rfl : Datum.ordOfBool b = v := Option.some.inj hv
    simp only [neighbour] at hr
    split at hr
    · cases hr
    · next hbounds =>
      cases hr
      simp only [Bool.or_eq_true, decide_eq_true_eq, not_or, lt_iff_toInt_lt, Int.not_lt] at hbounds
      refine ⟨_, congrArg some (Datum.ordOfBool_eq hbounds.1 hbounds.2), hnext⟩
  | character c =>
    obtain rfl : Int64.ofNat c.toNat = v := Option.some.inj hv
    simp only [neighbour] at hr
    split at hr
    · cases hr
    · next hbounds =>
      cases hr
      simp only [Bool.or_eq_true, decide_eq_true_eq, not_or, lt_iff_toInt_lt, Int.not_lt] at hbounds
      refine ⟨_, congrArg some (Datum.ofNat_toUInt8_eq hbounds.1 hbounds.2), hnext⟩
  | _ => cases hv

/-- The two checks keep an ordinal that is within the bounds. -/
theorem Instr.computeAll_bounds {room : Nat} {d : Datum} {ds : List Datum} {v : Int64}
    (hd : d.ordinal? = some v) (b : Bounds) : computeAll room b.code (d :: ds) =
      if b.lower.toInt ≤ d.rank ∧ d.rank ≤ b.upper.toInt then .ok (d :: ds)
      else .error .outOfRange := by
  show (d.limited b.lower _).map (· :: ds) >>= _ = _
  rw [Datum.map_limited hd, Datum.rank_eq hd]
  simp only [decide_eq_true_eq, Int64.lt_iff_toInt_lt]
  by_cases hlower : v.toInt < b.lower.toInt
  · rw [if_pos hlower, if_neg (by omega)]
    rfl
  · rw [if_neg hlower]
    show (d.limited b.upper _).map (· :: ds) >>= _ = _
    rw [Datum.map_limited hd]
    simp only [decide_eq_true_eq, gt_iff_lt, Int64.lt_iff_toInt_lt]
    by_cases hupper : b.upper.toInt < v.toInt
    · rw [if_pos hupper, if_neg (by omega)]
      rfl
    · rw [if_neg hupper, if_pos (by omega)]
      rfl

end MiniPascal
