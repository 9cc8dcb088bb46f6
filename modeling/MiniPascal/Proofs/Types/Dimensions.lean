import MiniPascal.Proofs.Machine.Ordinals
import MiniPascal.Proofs.Types.Extent

/-!
# Dimensions of arrays

An array of several dimensions is an array of arrays. Every index that is within its bounds moves the address of an
element by a multiple of the size of the elements of its dimension, and what it is moved by in all stays within the
words of the whole array. Elements at different indices have no words in common.
-/

namespace MiniPascal

open Dimension Instr

namespace Dimension

variable {dim : Dimension} {d d' : Datum}

/-- A datum is an index of a dimension. -/
structure Takes (dim : Dimension) (d : Datum) : Prop where
  kind : dim.kind.holds d = true
  lower : dim.bounds.lower.toInt ≤ d.rank
  upper : d.rank ≤ dim.bounds.upper.toInt

/-- All elements of a dimension together have a number of words that is a positive integer of 32 bits. -/
structure Fits (dim : Dimension) : Prop where
  ordinal : dim.kind.isOrdinal = true
  pos : 1 ≤ dim.elementSize.toInt
  words_lt : (dim.bounds.upper.toInt - dim.bounds.lower.toInt + 1) * dim.elementSize.toInt < 2 ^ 31

/-- The distance from the first element of a dimension to that of an index. -/
def stride (dim : Dimension) (d : Datum) : Int := (d.rank - dim.bounds.lower.toInt) * dim.elementSize.toInt

/-- The distance from the start of an array to the element at some indices. -/
def offset : List Dimension → List Datum → Int
  | dim :: dims, d :: ds => dim.stride d + offset dims ds
  | _, _ => 0

theorem Takes.stride_bounds (h : dim.Takes d) (hpos : 1 ≤ dim.elementSize.toInt) :
    0 ≤ dim.stride d ∧ dim.stride d + dim.elementSize.toInt ≤
      (dim.bounds.upper.toInt - dim.bounds.lower.toInt + 1) * dim.elementSize.toInt := by
  have hlower := h.lower
  have hupper := h.upper
  have hmul : (d.rank - dim.bounds.lower.toInt + 1) * dim.elementSize.toInt ≤
      (dim.bounds.upper.toInt - dim.bounds.lower.toInt + 1) * dim.elementSize.toInt :=
    Int.mul_le_mul_of_nonneg_right (by omega) (by omega)
  rw [Int.add_mul (d.rank - _), Int.one_mul] at hmul
  exact ⟨Int.mul_nonneg (by omega) (by omega), hmul⟩

/-- Elements at indices one after the other do not overlap. -/
theorem stride_le_of_lt (hpos : 1 ≤ dim.elementSize.toInt) (hlt : d.rank < d'.rank) :
    dim.stride d + dim.elementSize.toInt ≤ dim.stride d' := by
  have hmul : (d.rank - dim.bounds.lower.toInt + 1) * dim.elementSize.toInt ≤
      (d'.rank - dim.bounds.lower.toInt) * dim.elementSize.toInt :=
    Int.mul_le_mul_of_nonneg_right (by omega) (by omega)
  rw [Int.add_mul, Int.one_mul] at hmul
  exact hmul

/-! ## The code of an index -/

variable {room : Nat} {ds : List Datum}

/-- An operation with a number that is pushed before it, left out where it would change nothing. -/
private theorem expects_constant {op : BinaryOp} {w neutral v r : Int64}
    (hneutral : w = neutral → v = r)
    (hop : op.apply (.integer v) (.integer w) = .ok (.integer r)) :
    Machine.Expects (fun f => f = .stackOverflow ∧ room < ds.length + 2) (· = .integer r :: ds)
      (computeAll room (if w = neutral then []
        else [{ op := .push, arg := .integer w }, { op := .binary op }]) (.integer v :: ds)) := by
  split
  · next hw => exact congrArg (Datum.integer · :: ds) (hneutral hw)
  · show Machine.Expects _ _ ((if ds.length + 1 < room then .ok _ else _) >>= _)
    split
    · show Machine.Expects _ _ ((op.apply (.integer v) (.integer w)).map _ >>= _)
      rw [hop]
      rfl
    · exact ⟨rfl, by omega⟩

theorem Takes.toInt_stride (h : dim.Takes d) (hfits : dim.Fits) :
    (Int64.ofInt (dim.stride d)).toInt = dim.stride d := by
  obtain ⟨hstride, hwords⟩ := h.stride_bounds hfits.pos
  have hpos := hfits.pos
  have hlimit := hfits.words_lt
  exact Int64.toInt_ofInt_of_le (by omega) (by omega)

theorem computeAll_of_out {v : Int64} (hd : d.ordinal? = some v)
    (hout : ¬(dim.bounds.lower.toInt ≤ d.rank ∧ d.rank ≤ dim.bounds.upper.toInt)) :
    computeAll room dim.code (d :: ds) = .error .outOfRange := by
  unfold code
  simp only [List.append_assoc]
  rw [computeAll_append, computeAll_bounds hd, if_neg hout]
  rfl

/-- The code of an index that is within its bounds moves an address to the element, or there is no
room for the constants that it needs. -/
theorem Takes.expects_code (h : dim.Takes d) (hfits : dim.Fits) (a : Int64) :
    Machine.Expects (fun f => f = .stackOverflow ∧ room < ds.length + 3)
      (· = .address (a + Int64.ofInt (dim.stride d)) :: ds)
      (computeAll room dim.code (d :: .address a :: ds)) := by
  obtain ⟨v, hv⟩ := TypeKind.exists_ordinal h.kind hfits.ordinal
  have hrank : d.rank = v.toInt := Datum.rank_eq hv
  have hpos := hfits.pos
  have hlower := h.lower
  have hlimit := hfits.words_lt
  obtain ⟨hstride, hwords⟩ := h.stride_bounds hpos
  have htoInt := h.toInt_stride hfits
  have hshift : (d.rank - dim.bounds.lower.toInt) * 1 ≤ dim.stride d :=
    Int.mul_le_mul_of_nonneg_left hpos (by omega)
  have hdiff : (v - dim.bounds.lower).toInt = d.rank - dim.bounds.lower.toInt :=
    Word.sub_eq hrank.symm rfl (by omega)
  have hprod : (v - dim.bounds.lower) * dim.elementSize = Int64.ofInt (dim.stride d) := by
    rw [← Int64.toInt_inj, htoInt, Word.toInt_mul, hdiff, stride]
    rw [hdiff]
    exact ⟨show _ ≤ dim.stride d by omega, show dim.stride d < _ by omega⟩
  have hord : computeAll room (if dim.kind = .integer then [] else [{ op := .unary .ord }])
      (d :: .address a :: ds) = .ok (.integer v :: .address a :: ds) := by
    split
    · next hinteger =>
      have hkind := h.kind
      rw [hinteger] at hkind
      cases d with
      | integer w =>
        cases hv
        rfl
      | _ => cases hkind
    · show (UnaryOp.ord.apply d).map _ >>= _ = _
      simp only [UnaryOp.apply, hv]
      rfl
  -- The check, the ordinal number, its distance from the lower bound, the words up to there, the sum.
  unfold code
  simp only [List.append_assoc]
  rw [computeAll_append, computeAll_bounds hv, if_pos ⟨hlower, h.upper⟩]
  show Machine.Expects _ _ (computeAll room _ (d :: .address a :: ds))
  rw [computeAll_append, hord]
  show Machine.Expects _ _ (computeAll room _ (.integer v :: .address a :: ds))
  rw [computeAll_append]
  refine (expects_constant (r := v - dim.bounds.lower) (fun hzero => ?_) ?_).bind ?_
  · rw [hzero, Int64.sub_zero]
  · show BinaryOp.arithmetic (.ok (.wrapped (v - dim.bounds.lower))) = _
    rw [Datum.wrapped_eq (by omega) (by omega)]
    rfl
  rintro _ rfl
  rw [computeAll_append]
  refine (expects_constant (r := Int64.ofInt (dim.stride d)) (fun hone => ?_) ?_).bind ?_
  · rw [← hprod, hone, Int64.mul_one]
  · show BinaryOp.arithmetic (.ok (.wrapped ((v - dim.bounds.lower) * dim.elementSize))) = _
    rw [hprod, Datum.wrapped_eq (by omega) (by omega)]
    rfl
  rintro _ rfl
  exact rfl

end Dimension

namespace TypeTable

variable {ts : TypeTable} {made : List Extent} {t e : TypeId} {dims : List Dimension}

/-- An array type has some dimensions, and under them elements of a type. -/
inductive Nests (ts : TypeTable) : TypeId → List Dimension → TypeId → Prop
  | element (t : TypeId) : Nests ts t [] t
  | array {t e : TypeId} {dims : List Dimension} (kind : ts.kind t = .array)
      (inner : Nests ts ((ts.get t).base.getD .integer) dims e) : Nests ts t (ts.dimension t :: dims) e

theorem Nests.of_cons {dim : Dimension} (h : ts.Nests t (dim :: dims) e) :
    ts.kind t = .array ∧ dim = ts.dimension t ∧ ts.Nests ((ts.get t).base.getD .integer) dims e := by
  cases h with
  | array kind inner => exact ⟨kind, rfl, inner⟩

/-! ## Sizes of arrays -/

/-- The size of every array is a product, and the number of its indices is limited by the size of the elements. -/
def Limited (ts : TypeTable) : Prop :=
  ∀ t, ts.Has t → ts.kind t = .array → ∀ index element, (ts.get t).index = some index →
    (ts.get t).base = some element →
    ts.size t = (ts.bounds index).span * ts.size element ∧ (ts.bounds index).span ≤ 2147483647 / max (ts.size element) 1

/-- One more type; if it is an array, it is limited itself. -/
theorem Limited.add (h : ts.Limited) (hformed : ts.Formed False) {d : TypeDesc}
    (hd : d.kind = .array → ∃ index element, ts.Has index ∧ ts.Has element ∧ ts.array? index element = .ok d) :
    (ts.add d).2.Limited := by
  intro t ht hkind index element hindex hbase
  rcases has_add_iff.mp ht with hold | rfl
  · rw [kind, get_add_of_has _ hold] at hkind
    rw [get_add_of_has _ hold] at hindex hbase
    obtain ⟨element', index', hbase', hindex', helement, hindexHas, -⟩ :=
      (hformed _ _ (Has.getElem? hold)).array hkind
    cases hindex.symm.trans hindex'
    cases hbase.symm.trans hbase'
    rw [(ts.grows_add _).size hold, (ts.grows_add _).size helement, (ts.grows_add _).bounds hindexHas]
    exact h t hold hkind index element hindex hbase
  · rw [kind, get_add] at hkind
    rw [get_add] at hindex hbase
    obtain ⟨index', element', hindexHas, helement, hok⟩ := hd hkind
    obtain ⟨-, hle, rfl⟩ := array?_eq_ok hok
    cases hindex
    cases hbase
    rw [(ts.grows_add _).size helement, (ts.grows_add _).bounds hindexHas, size, get_add]
    exact ⟨rfl, hle⟩

theorem Built.limited (h : Built ts made) : ts.Limited := by
  have not_array {k : TypeKind} (hord : k.isOrdinal = true) : k ≠ .array := by
    rintro rfl
    cases hord
  induction h with
  | builtins =>
    intro t ht hkind
    have hscalar : ∀ i < 5, TypeTable.builtins.kind ⟨i⟩ ≠ .array := by decide
    exact absurd hkind (hscalar t.index ht)
  | subrange built _ _ _ _ hd ih =>
    refine ih.add built.isMade.formed.1 fun hkind => ?_
    obtain ⟨hord, -, -, -, rfl⟩ := subrange?_eq_ok hd
    exact absurd hkind (not_array hord)
  | array built index element hindex helement hd ih =>
    exact ih.add built.isMade.formed.1 fun _ => ⟨index, element, hindex, helement, hd⟩
  | record built _ _ _ ih => exact ih.add built.isMade.formed.1 nofun
  | enumeration built _ _ _ _ ih => exact ih.add built.isMade.formed.1 nofun
  | pointer built base hbase ih => exact ih.add built.isMade.formed.1 nofun

theorem Built.dimension_fits (h : Built ts made) (ht : ts.Has t) (hkind : ts.kind t = .array)
    (hpos : 1 ≤ (ts.dimension t).elementSize.toInt) : ts.Has ((ts.get t).base.getD .integer) ∧ (ts.dimension t).Fits ∧
      (ts.size t).toInt = ((ts.dimension t).bounds.upper.toInt - (ts.dimension t).bounds.lower.toInt + 1) *
        (ts.dimension t).elementSize.toInt := by
  have hformed := h.isMade.formed.1
  obtain ⟨element, index, hbase, hindex, helement, hindexHas, hord, -⟩ := (hformed _ _ ht.getElem?).array hkind
  obtain ⟨hsize, hle⟩ := h.limited t ht hkind index element hindex hbase
  obtain ⟨hordered, hspan⟩ : (ts.bounds index).lower.toInt ≤ (ts.bounds index).upper.toInt ∧
      (ts.bounds index).upper.toInt - (ts.bounds index).lower.toInt + 1 < 2 ^ 63 :=
    (h.counted.spans _ hindexHas).ordinal hord
  have hdim : ts.dimension t = ⟨ts.bounds index, ts.rootKind index, ts.size element⟩ := by
    simp only [dimension, hbase, hindex, Option.getD_some]
  rw [hdim] at hpos ⊢
  rw [hbase]
  dsimp only at hpos ⊢
  have hwidth : (ts.bounds index).span.toInt = (ts.bounds index).upper.toInt - (ts.bounds index).lower.toInt + 1 :=
    Word.add_eq (Word.sub_eq rfl rfl (by omega)) Word.toInt_one (by omega)
  have hmul := mul_le_of_le_quotient hpos hle
  have hone : 1 * 1 ≤ (ts.bounds index).span.toInt * (ts.size element).toInt :=
    Int.mul_le_mul (by omega) hpos (by decide) (by omega)
  refine ⟨helement, ⟨?_, hpos, ?_⟩, ?_⟩
  · show (ts.rootKind index).isOrdinal = true
    rw [hformed.rootKind hindexHas]
    exact hord
  · show ((ts.bounds index).upper.toInt - (ts.bounds index).lower.toInt + 1) * (ts.size element).toInt < 2 ^ 31
    rw [← hwidth]
    omega
  · rw [hsize, Word.toInt_mul ⟨by omega, by omega⟩, hwidth]

/-! ## Elements of arrays -/

section Elements

variable (h : Built ts made)
include h

/-- The words of an element are among those of the array. -/
theorem Built.offset_bounds (hnests : ts.Nests t dims e) (ht : ts.Has t)
    (hpos : ∀ dim ∈ dims, 1 ≤ dim.elementSize.toInt) {ds : List Datum} (hds : List.Forall₂ Dimension.Takes dims ds) :
    0 ≤ offset dims ds ∧ offset dims ds + (ts.size e).toInt ≤ (ts.size t).toInt := by
  induction hnests generalizing ds with
  | element t =>
    cases hds
    exact ⟨Int.le_refl 0, Int.le_of_eq (Int.zero_add _)⟩
  | @array t e dims hkind hinner ih =>
    cases hds with
    | cons hd hrest =>
      obtain ⟨hdim, hdims⟩ := List.forall_mem_cons.mp hpos
      obtain ⟨helement, -, hsize⟩ := h.dimension_fits ht hkind hdim
      obtain ⟨hlower, hupper⟩ := ih helement hdims hrest
      obtain ⟨hlower', hupper'⟩ := hd.stride_bounds hdim
      have hwords : (ts.dimension t).elementSize = ts.size ((ts.get t).base.getD .integer) := rfl
      rw [hwords] at hupper'
      rw [hsize, offset, hwords]
      omega

/-- Elements at different indices have no words in common. -/
theorem Built.offset_apart (hnests : ts.Nests t dims e) (ht : ts.Has t)
    (hpos : ∀ dim ∈ dims, 1 ≤ dim.elementSize.toInt) {ds ds' : List Datum}
    (hds : List.Forall₂ Dimension.Takes dims ds) (hds' : List.Forall₂ Dimension.Takes dims ds') (hne : ds ≠ ds') :
    offset dims ds + (ts.size e).toInt ≤ offset dims ds' ∨
      offset dims ds' + (ts.size e).toInt ≤ offset dims ds := by
  induction hnests generalizing ds ds' with
  | element t =>
    cases hds
    cases hds'
    exact absurd rfl hne
  | @array t e dims hkind hinner ih =>
    cases hds with
    | @cons _ d _ rest hd hrest =>
      cases hds' with
      | @cons _ d' _ rest' hd' hrest' =>
        obtain ⟨hdim, hdims⟩ := List.forall_mem_cons.mp hpos
        obtain ⟨helement, hfits, -⟩ := h.dimension_fits ht hkind hdim
        obtain ⟨hlower, hupper⟩ := h.offset_bounds hinner helement hdims hrest
        obtain ⟨hlower', hupper'⟩ := h.offset_bounds hinner helement hdims hrest'
        have hwords : (ts.dimension t).elementSize = ts.size ((ts.get t).base.getD .integer) := rfl
        rw [← hwords] at hupper hupper'
        simp only [offset]
        -- At different indices of this dimension, all of what is inside lies apart.
        rcases Int.lt_trichotomy d.rank d'.rank with hlt | heq | hgt
        · have := stride_le_of_lt hdim hlt
          omega
        · obtain rfl := TypeKind.eq_of_rank hd.kind hfits.ordinal hd'.kind heq
          have hapart := ih helement hdims hrest hrest' fun heq => hne (congrArg (d :: ·) heq)
          omega
        · have := stride_le_of_lt hdim hgt
          omega

end Elements

end TypeTable

end MiniPascal
