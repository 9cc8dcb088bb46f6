import MiniPascal.Proofs.Machine.Arrival
import MiniPascal.Proofs.Machine.Ordinals
import MiniPascal.Proofs.Parser.Progress
import MiniPascal.Proofs.Types.Bases

/-!
# Conversions of values

A value that is stored as another type is first changed in kind, if that is needed, and then held against the range of the
type, if that has not all values of its host. The code for this leaves a value of the type, or it stops where the type has
no such value.
-/

namespace MiniPascal

namespace TypeTable

variable {ts : TypeTable} {target source t : TypeId} {c : Conversion} {v : Datum}

/-- The bounds against which a value is held before it is stored. -/
def checked (ts : TypeTable) (target : TypeId) : Option Bounds :=
  if ts.isNarrow target then some (ts.bounds target) else none

/-- An integer is widened to a real, a real is rounded to an integer, and other values are kept. -/
inductive Converts (ts : TypeTable) (target source : TypeId) : Conversion → Prop
  | widen (htarget : ts.kind target = .real) (hsource : ts.kind source = .integer) :
      Converts ts target source { coercion := .widen }
  | round (htarget : ts.kind target = .integer) (hsource : ts.kind source = .real) :
      Converts ts target source { coercion := .round, bounds := ts.checked target }
  | keep (hkind : ts.kind target = ts.kind source)
      (hroot : ts.kind target = .enumeration → ts.root target = ts.root source) :
      Converts ts target source { bounds := ts.checked target }

theorem checked_of_not_ordinal (h : ts.isOrdinal t = false) : ts.checked t = none := by
  have hord : (ts.get t).kind.isOrdinal = false := h
  simp [checked, isNarrow, TypeDesc.isSubrange, hord]

section

variable (hformed : ts.Formed False) (hordered : ts.Ordered) (ht : ts.Has target) (hs : ts.Has source)

include hformed hordered ht

theorem root_root : ts.root (ts.root target) = ts.root target := by
  cases hord : ts.isOrdinal target with
  | false => rw [root_of_not_ordinal hord, root_of_not_ordinal hord]
  | true =>
    obtain ⟨n, hn⟩ := Nat.exists_eq_succ_of_ne_zero (Nat.ne_zero_of_lt ht)
    have hbase : (ts.get (ts.root target)).base = none := (rootFrom_last hordered hformed ht hord ht).1
    rw [root.eq_def ts (ts.root target), hn, rootFrom, hbase]

include hs

theorem converts_of_convert (h : ts.convert target source = .ok c) : ts.Converts target source c := by
  have hkindt : ts.kind (ts.root target) = ts.kind target := hformed.rootKind ht
  have hkinds : ts.kind (ts.root source) = ts.kind source := hformed.rootKind hs
  unfold convert at h
  dsimp only at h
  rw [hkindt, hkinds] at h
  split at h
  · next htarget hsource =>
    cases h
    have := ts.checked_of_not_ordinal (t := target) (by rw [isOrdinal, htarget]; rfl)
    rw [checked] at this
    rw [this]
    exact .widen htarget hsource
  · next htarget hsource =>
    cases h
    exact .round htarget hsource
  · split at h
    · next hsame =>
      cases h
      have hkind := hformed.kind_of_same (hformed.has_root ht) (hformed.has_root hs) hsame
      rw [hkindt, hkinds] at hkind
      refine .keep hkind fun henum => ?_
      unfold same at hsame
      simp only [root_root hformed hordered ht, root_root hformed hordered hs] at hsame
      split at hsame
      · assumption
      · have hx : (ts.get (ts.root target)).kind = .enumeration := hkindt.trans henum
        simp [hx] at hsame
    · cases h

/-- A value of the source is a value of a target of its kind that has all values of its host. -/
theorem inRange_of_root (hkind : ts.kind target = ts.kind source)
    (hroot : ts.kind target = .enumeration → ts.root target = ts.root source) (hnarrow : ts.isNarrow target = false)
    (hv : ts.InRange (ts.root source) v) : ts.InRange target v := by
  intro hord
  have hordr : ts.isOrdinal (ts.root source) = true := by
    rw [isOrdinal, show ts.kind (ts.root source) = _ from hformed.rootKind hs, ← hkind]
    exact hord
  have hbounds : ts.bounds (ts.root target) = ts.bounds (ts.root source) := by
    cases hrange : (ts.kind target).range? with
    | some b => rw [bounds_root hordered hformed ht hrange, bounds_root hordered hformed hs (hkind ▸ hrange)]
    | none =>
      have henum : ts.kind target = .enumeration := by
        unfold isOrdinal at hord
        cases hk : ts.kind target <;> rw [hk] at hord hrange <;> first | rfl | simp [TypeKind.isOrdinal, TypeKind.range?] at hord hrange
      rw [hroot henum]
  rw [bounds_of_not_narrow ht hord hnarrow, hbounds]
  exact hv hordr

end

end TypeTable

namespace Coercion

/-- The value after a change of kind, or the fault if there is none. -/
def apply : Coercion → Datum → Except Fault Datum
  | .keep, d => .ok d
  | .widen, d => UnaryOp.itor.apply d
  | .round, d => UnaryOp.round.apply d

/-- The ordinal number that a value stands for after a change of kind. -/
def rank? : Coercion → Datum → Option Int
  | .keep, d => some d.rank
  | .round, .real x => (Binary64.ofFloat x).round
  | _, _ => none

end Coercion

/-- After a change of kind, a value is one that a type has, if that is an ordinal type. -/
def TypeTable.Takes (ts : TypeTable) (target : TypeId) (coercion : Coercion) (v : Datum) : Prop :=
  ts.isOrdinal target = true →
    ∃ n, coercion.rank? v = some n ∧ (ts.bounds target).lower.toInt ≤ n ∧ n ≤ (ts.bounds target).upper.toInt

namespace Conversion

theorem round_mem_code (c : Conversion) : { op := .unary .round } ∈ c.code ↔ c.narrows = true := by
  obtain ⟨coercion, bounds⟩ := c
  cases coercion <;> cases bounds <;> simp [code, Coercion.code, Bounds.code, narrows]

theorem eq_keep (c : Conversion) (hitor : { op := .unary .itor } ∉ c.code) (hround : { op := .unary .round } ∉ c.code) :
    c.coercion = .keep := by
  obtain ⟨coercion, bounds⟩ := c
  cases coercion with
  | keep => rfl
  | _ => simp [code, Coercion.code] at hitor hround

end Conversion

/-- What is expected where a datum is within bounds or there are none, and what where it is not. -/
def Datum.Held (d : Datum) (inside outside : Prop) : Option Bounds → Prop
  | none => inside
  | some b => (∃ v, d.ordinal? = some v) ∧ (b.lower.toInt ≤ d.rank ∧ d.rank ≤ b.upper.toInt → inside) ∧
    (¬(b.lower.toInt ≤ d.rank ∧ d.rank ≤ b.upper.toInt) → outside)

/-- What is expected of a conversion of a value: a change of kind, then a check that the result has to pass. -/
def Conversion.Expects (c : Conversion) (F : Fault → Prop) (Q : Datum → Prop) (v : Datum) : Prop :=
  Machine.Expects F (fun d => d.Held (Q d) (F .outOfRange) c.bounds) (c.coercion.apply v)

/-- The code of a conversion computes what is expected. -/
theorem Conversion.Expects.compute {F : Fault → Prop} {Q : Datum → Prop} {c : Conversion} {v : Datum}
    (h : c.Expects F Q v) (room : Nat) : Machine.Expects F (fun ds => ∃ d, ds = [d] ∧ Q d)
      (Instr.computeAll room c.code [v]) := by
  obtain ⟨coercion, bounds⟩ := c
  have unary (op : UnaryOp) : Instr.computeAll room [{ op := .unary op }] [v] =
      (op.apply v).map ([·]) := by
    show (op.apply v).map _ >>= _ = _
    cases op.apply v <;> rfl
  have hcoerced : Instr.computeAll room coercion.code [v] = (coercion.apply v).map ([·]) := by
    cases coercion with
    | keep => rfl
    | widen | round => exact unary _
  unfold Conversion.Expects at h
  unfold Conversion.code
  rw [Instr.computeAll_append, hcoerced]
  dsimp only at h ⊢
  cases hd : coercion.apply v with
  | error f =>
    rw [hd] at h
    exact h
  | ok d =>
    rw [hd] at h
    show Machine.Expects F _ (Instr.computeAll room _ [d])
    cases bounds with
    | none => exact ⟨d, rfl, h⟩
    | some b =>
      obtain ⟨⟨w, hw⟩, hin, hout⟩ := h
      show Machine.Expects F _ (Instr.computeAll room b.code [d])
      rw [Instr.computeAll_bounds hw]
      split
      · next hbounds => exact ⟨d, rfl, hin hbounds⟩
      · next hbounds => exact hout hbounds

/-! ## Conversions between types -/

namespace TypeTable

variable {ts : TypeTable} {target source : TypeId} {c : Conversion} {v : Datum}

/-- What a conversion leaves of a value: a value of the target, the value itself unless it is changed in kind. -/
structure Leaves (ts : TypeTable) (target : TypeId) (coercion : Coercion) (v d : Datum) : Prop where
  takes : ts.Takes target coercion v
  kind : (ts.kind target).holds d = true
  rank : ts.isOrdinal target = true → coercion.rank? v = some d.rank
  same : coercion = .keep → d = v

theorem Leaves.inRange {coercion : Coercion} {d : Datum} (h : ts.Leaves target coercion v d) : ts.InRange target d := by
  intro hord
  obtain ⟨n, hn, hbounds⟩ := h.takes hord
  cases hn.symm.trans (h.rank hord)
  exact hbounds

/-- A value that is kept or was rounded and passes the check is a value of the target, and otherwise the target has no such
value. -/
theorem expects_checked {coercion : Coercion} {d : Datum} (hkind : (ts.kind target).holds d = true)
    (hrank : ts.isOrdinal target = true → coercion.rank? v = some d.rank) (hsame : coercion = .keep → d = v)
    (hall : ts.isNarrow target = false → ts.InRange target d) :
    d.Held (ts.Leaves target coercion v d) (Fault.outOfRange = .outOfRange ∧ ¬ts.Takes target coercion v)
      (ts.checked target) := by
  unfold checked
  cases hnarrow : ts.isNarrow target with
  | false =>
    refine ⟨fun hord => ?_, hkind, hrank, hsame⟩
    exact ⟨_, hrank hord, hall hnarrow hord⟩
  | true =>
    have hord : ts.isOrdinal target = true := by
      unfold isNarrow TypeDesc.isSubrange at hnarrow
      simp only [Bool.and_eq_true] at hnarrow
      exact hnarrow.1.1
    refine ⟨TypeKind.exists_ordinal hkind hord, fun hin => ⟨fun _ => ⟨_, hrank hord, hin⟩, hkind, hrank, hsame⟩, ?_⟩
    refine fun hout => ⟨rfl, fun htakes => ?_⟩
    obtain ⟨n, hn, hbounds⟩ := htakes hord
    cases hn.symm.trans (hrank hord)
    exact hout hbounds

section

variable (hformed : ts.Formed False) (hordered : ts.Ordered) (ht : ts.Has target) (hs : ts.Has source)

include hformed hordered ht

/-- The integers of a type are signed 32-bit numbers, all of them unless the type is narrow. -/
theorem bounds_integer (hkind : ts.kind target = .integer) :
    (-2 ^ 31 ≤ (ts.bounds target).lower.toInt ∧ (ts.bounds target).upper.toInt < 2 ^ 31) ∧
      (ts.isNarrow target = false → ts.bounds target = TypeDesc.integer.bounds) := by
  have hord : ts.isOrdinal target = true := by
    rw [isOrdinal, hkind]
    rfl
  have hroot := bounds_root hordered hformed ht (b := TypeDesc.integer.bounds) (by rw [hkind]; rfl)
  have hwithin := within_root hordered hformed ht hord
  rw [hroot] at hwithin
  refine ⟨⟨hwithin.1, Int.lt_of_le_of_lt hwithin.2 (by decide)⟩, fun hnarrow => ?_⟩
  rw [bounds_of_not_narrow ht hord hnarrow, hroot]

theorem expects_round (hkind : ts.kind target = .integer) (x : Float) :
    ({ coercion := .round, bounds := ts.checked target } : Conversion).Expects
      (fun f => f = .outOfRange ∧ ¬ts.Takes target .round (.real x)) (ts.Leaves target .round (.real x)) (.real x) := by
  have hord : ts.isOrdinal target = true := by
    rw [isOrdinal, hkind]
    rfl
  obtain ⟨⟨hlower, hupper⟩, hfull⟩ := bounds_integer hformed hordered ht hkind
  show Machine.Expects _ _ (wholeOrFault (Binary64.ofFloat x).round)
  cases hround : (Binary64.ofFloat x).round with
  | none =>
    refine ⟨rfl, fun htakes => ?_⟩
    obtain ⟨n, hn, -⟩ := htakes hord
    cases hround.symm.trans hn
  | some n =>
    have hrange : inRange32 n = true ↔ -2 ^ 31 ≤ n ∧ n < 2 ^ 31 := by
      simp only [inRange32, Bool.and_eq_true, decide_eq_true_eq]
      omega
    unfold wholeOrFault
    dsimp only
    split
    · next h32 =>
      obtain ⟨hmin, hmax⟩ := hrange.mp h32
      have hrank : (Datum.integer (Int64.ofInt n)).rank = n := by
        show (Int64.ofInt n).toInt = n
        rw [Int64.toInt_ofInt_of_le] <;> omega
      refine expects_checked (by rw [hkind]; rfl) (fun _ => by rw [hrank]; exact hround) (absurd · (by decide))
        fun hnarrow _ => ?_
      rw [hrank, hfull hnarrow]
      exact ⟨hmin, Int.le_of_lt_add_one hmax⟩
    · next h32 =>
      refine ⟨rfl, fun htakes => h32 (hrange.mpr ?_)⟩
      obtain ⟨k, hk, hbounds⟩ := htakes hord
      cases hround.symm.trans hk
      omega

include hs

/-- A conversion leaves a value of the target, unless that has no such value. -/
theorem Converts.expects (h : ts.Converts target source c) (hv : (ts.kind source).holds v = true)
    (hrange : ts.InRange (ts.root source) v) :
    c.Expects (fun f => f = .outOfRange ∧ ¬ts.Takes target c.coercion v) (ts.Leaves target c.coercion v) v := by
  cases h with
  | widen htarget hsource =>
    have hord : ts.isOrdinal target = false := by
      rw [isOrdinal, htarget]
      rfl
    have hnot {P : Prop} (h : ts.isOrdinal target = true) : P := by
      rw [hord] at h
      cases h
    rw [hsource] at hv
    cases v with
    | integer n => exact ⟨hnot, by rw [htarget]; rfl, hnot, (absurd · (by decide))⟩
    | _ => cases hv
  | round htarget hsource =>
    rw [hsource] at hv
    cases v with
    | real x => exact expects_round hformed hordered ht htarget x
    | _ => cases hv
  | keep hkind hroot =>
    exact expects_checked (hkind ▸ hv) (fun _ => rfl) (fun _ => rfl)
      fun hnarrow => inRange_of_root hformed hordered ht hs hkind hroot hnarrow hrange

end

/-- The code of a conversion, run with a value of the source on top, leaves a value of the target and all that lies below,
unless the target has no such value; then it stops, and leaves all that lies below too. A type that cannot be converted has
no code. -/
theorem convert_sound (hts : ts.Made) (ht : ts.Has target) (hs : ts.Has source) :
    match ts.convert target source with
    | .error _ => ∀ s : Parser.State, s.types = ts → (Parser.convert target source s).1.code = []
    | .ok c => (c.narrows = true ↔ { op := .unary .round } ∈ c.code) ∧
      ∀ v, (ts.kind source).holds v = true → ts.InRange (ts.root source) v →
        ∀ (m : Machine) (height pc : Nat), m.Ready → m.Carries height pc [v] m → Machine.Stands m.code pc c.code →
          (ts.Takes target c.coercion v → ∃ n m' d, Machine.Passes pc (pc + c.code.length) n m m' ∧
            m.Carries height (pc + c.code.length) [d] m' ∧ (ts.kind target).holds d = true ∧ ts.InRange target d ∧
            ({ op := .unary .itor } ∉ c.code → { op := .unary .round } ∉ c.code → d = v)) ∧
          (¬ts.Takes target c.coercion v → m.Refuses height pc (pc + c.code.length) .outOfRange) := by
  obtain ⟨hformed, hordered⟩ := hts.formed
  cases hconvert : ts.convert target source with
  | error e =>
    rintro s rfl
    rw [Parser.convert, Parser.run_bind, show (Parser.types s).1 = s.types from rfl, hconvert]
    rfl
  | ok c =>
    have hconverts := converts_of_convert hformed hordered ht hs hconvert
    refine ⟨c.round_mem_code.symm, fun v hv hrange m height pc hm hcarries hstands => ?_⟩
    obtain ⟨room, hroom⟩ := hcarries.exists_room
    have hexpects := hconverts.expects hformed hordered ht hs hv hrange
    have hsettles := hcarries.arrives.compute hm hroom (by rintro ⟨⟨⟩, -⟩) hstands (Nat.le_refl _) (Nat.le_refl _)
      (hexpects.compute room)
    rcases hsettles with ⟨_, m', ⟨hcarries', n, hpass⟩, d, rfl, hd⟩ | ⟨_, ⟨rfl, hnot⟩, hrefuses⟩
    · refine ⟨fun _ => ⟨n, m', d, hpass, hcarries', hd.kind, hd.inRange, fun hitor hround => hd.same ?_⟩, fun hnot => ?_⟩
      · exact c.eq_keep hitor hround
      · exact absurd hd.takes hnot
    · exact ⟨fun htakes => absurd htakes hnot, fun _ => hrefuses⟩

/-- A machine that has pushed an integer and is about to check that it is from 1 to 3. -/
def limitsMachine (v : Int64) : Machine :=
  (Machine.ofCode { stackSize := 32, heapSize := 8 } (⟨.push, 0, .integer v⟩ :: Bounds.code ⟨1, 3⟩).toArray).after 1

/-- The integer 2 is kept as a value of the subrange from 1 to 3, and 4 is refused. -/
theorem convert_sound_limits :
    (∃ n m', Machine.Passes 1 3 n (limitsMachine 2) m' ∧ (limitsMachine 2).Carries 0 3 [.integer 2] m') ∧
      (limitsMachine 4).Refuses 0 1 3 .outOfRange := by
  have hmade := @Made.subrange _ .integer 1 3 _ .builtins (by decide) rfl
  have hcarries (v : Int64) : (limitsMachine v).Carries 0 1 [.integer v] (limitsMachine v) :=
    ⟨.refl _ _, rfl, rfl, show (1 : Int) < 32 by decide, rfl, trivial⟩
  have hready (v : Int64) : (limitsMachine v).Ready :=
    ⟨(Machine.Laid.ofCode (by decide) _).after 1, show 3 < 2 ^ 63 by decide⟩
  have hsound (v : Int64) (hv : TypeTable.InRange _ _ _) :=
    (@convert_sound _ ⟨5⟩ .integer hmade (by decide) (by decide)).2 (.integer v) rfl hv _ 0 1 (hready v) (hcarries v)
      (Machine.Stands.whole (limitsMachine v).code.toList).tail
  constructor
  · obtain ⟨n, m', d, hpass, hleft, -, -, hkept⟩ := (hsound 2 fun _ => by decide).1 fun _ => ⟨2, rfl, by decide, by decide⟩
    obtain rfl := hkept (by decide) (by decide)
    exact ⟨n, m', hpass, hleft⟩
  · refine (hsound 4 fun _ => by decide).2 fun htakes => ?_
    obtain ⟨n, hn, -, hupper⟩ := htakes rfl
    obtain rfl := Option.some.inj hn
    exact absurd hupper (by decide)

end TypeTable

end MiniPascal
