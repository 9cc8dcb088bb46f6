import MiniPascal.Proofs.Machine.Arrival
import MiniPascal.Proofs.Types.Dimensions

/-!
# Addresses of elements

The code of an index takes the address of an array and the value of the index off the stack and
leaves the address of the element. The value is checked before anything is computed with it. With an
index for each dimension, the address is moved to that of the element of an array of any number of
dimensions.
-/

namespace MiniPascal

open List Dimension

/-- An index of a designator: its expression, the dimension it is for, and its line. -/
structure Index where
  expr : Expr
  dimension : Dimension
  line : Nat

def Designator.elements (array : Designator) : List Index → Designator
  | [] => array
  | i :: rest => (array.element i.expr i.dimension i.line).elements rest

namespace Index

variable {entries : Entries}

/-- The code of some indices: of each the expression, then what brings the address to the element. -/
def code (entries : Entries) : List Index → List Instr
  | [] => []
  | i :: rest => instrs (i.expr.code entries) ++ i.dimension.code ++ code entries rest

theorem length_code_cons (i : Index) (rest : List Index) : (code entries (i :: rest)).length =
    (i.expr.code entries).length + i.dimension.code.length + (code entries rest).length := by
  rw [code, length_append, length_append, length_instrs]

theorem instrs_elements (array : Designator) (is : List Index) :
    instrs ((array.elements is).code entries) = instrs (array.code entries) ++ code entries is := by
  induction is generalizing array with
  | nil => exact (append_nil _).symm
  | cons i rest ih =>
    rw [Designator.elements, ih, Designator.code, code]
    simp only [instrs_append, instrs_emitAt, append_assoc]

end Index

namespace Machine

variable {m₀ m : Machine} {height pc : Nat} {ds : List Datum} {d : Datum} {dim : Dimension} {v : Int64}

/-! ## One dimension -/

/-- An index within its bounds moves the address below it to the element. -/
theorem Carries.passes_dimension (hm : m.Ready) {a : Int64}
    (h : Carries m height pc [d, .address a] m) (hstands : Stands m.code pc dim.code)
    (hfits : dim.Fits) (htakes : dim.Takes d) (hroom : height + 3 < m.stackSize.toInt)
    (hnonneg : 0 ≤ a.toInt) (hlt : a.toInt + dim.stride d < 2 ^ 63) :
    ∃ (a' : Int64) (n : Nat) (m' : Machine), a'.toInt = a.toInt + dim.stride d ∧
      Passes pc (pc + dim.code.length) n m m' ∧
      Carries m height (pc + dim.code.length) [.address a'] m' := by
  obtain ⟨room, hsize⟩ := h.exists_room
  have hexpects : Expects (fun _ => False) (· = [.address (a + Int64.ofInt (dim.stride d))])
      (Instr.computeAll room dim.code [d, .address a]) :=
    (htakes.expects_code hfits a).mono (fun f hf => absurd hf.2 (by rw [length_nil]; omega))
      fun _ => id
  obtain ⟨_, m', ⟨hcarries, n, hpass⟩, rfl⟩ | ⟨_, ⟨⟩, _⟩ :=
    h.arrives.compute hm hsize not_false hstands (Nat.le_refl _) (Nat.le_refl _) hexpects
  have hstride := (htakes.stride_bounds hfits.pos).1
  exact ⟨_, n, m', Word.add_eq rfl (htakes.toInt_stride hfits) ⟨by omega, hlt⟩, hpass, hcarries⟩

/-- An ordinal that is out of bounds is refused by one of the two checks, before anything is
computed. -/
theorem Carries.faults_bounds (hm : m₀.Ready) (h : Carries m₀ height pc (d :: ds) m)
    (hd : d.ordinal? = some v) {b : Bounds} (hstands : Stands m₀.code pc b.code)
    (hout : v.toInt < b.lower.toInt ∨ b.upper.toInt < v.toInt) :
    ∃ n m', n < 2 ∧ Passes pc (pc + 2) n m m' ∧ Carries m₀ height (pc + n) (d :: ds) m' ∧
      m'.step.1 = .fault .outOfRange := by
  obtain ⟨hat, hstep⟩ := h.step_eq hm.roomy hstands.head (n := 1) rfl (by rw [length_cons]; omega)
  have hllimit : Computed _ m₀ height (pc + 1) (m.advance.execute ⟨.llimit, 0, .integer b.lower⟩) _ :=
    hat.bears.checkLimit b.lower _
  rw [← hstep, Datum.map_limited hd] at hllimit
  by_cases hlower : v.toInt < b.lower.toInt
  · rw [if_pos (by rw [decide_eq_true_eq, Int64.lt_iff_toInt_lt]; exact hlower)] at hllimit
    exact ⟨0, m, by decide, rfl, h, hllimit.1⟩
  · rw [if_neg (by rw [decide_eq_true_eq, Int64.lt_iff_toInt_lt]; exact hlower)] at hllimit
    obtain ⟨m₁, hpass, h₁⟩ := h.passes hllimit
    obtain ⟨hat₁, hstep₁⟩ :=
      h₁.step_eq hm.roomy hstands.tail.head (n := 1) rfl (by rw [length_cons]; omega)
    have hulimit : Computed _ m₀ height (pc + 2)
        (m₁.advance.execute ⟨.ulimit, 0, .integer b.upper⟩) _ := hat₁.bears.checkLimit b.upper _
    rw [← hstep₁, Datum.map_limited hd, if_pos (by
      rw [decide_eq_true_eq, gt_iff_lt, Int64.lt_iff_toInt_lt]; omega)] at hulimit
    exact ⟨1, m₁, by decide, hpass.mono (by omega), h₁, hulimit.1⟩

/-! ## All dimensions -/

/-- The address of a part of an array is on top of the stack, right above a height. -/
structure Points (E : Extents) (height pc : Nat) (a : Int) (m : Machine) : Prop where
  extents : m.extents = E
  pc : m.pc.toInt = pc
  sp : m.sp.toInt = height + 1
  address : ∃ w : Int64, w.toInt = a ∧ m.mem[height + 1]? = some (.address w)

/-- An index is refused by the check that starts at an address, with the address of the array that it would select from
still below it. -/
structure Blocked (E : Extents) (height pc : Nat) (a : Int) (d : Datum) (m : Machine) : Prop where
  extents : m.extents = E
  within : m.Within pc (pc + 2)
  sp : m.sp.toInt = height + 2
  index : m.mem[height + 2]? = some d
  address : ∃ w : Int64, w.toInt = a ∧ m.mem[height + 1]? = some (.address w)
  fault : m.step.1 = .fault .outOfRange

/-- The expressions of some indices put data on the stack. What is known of the machine before the first of them is enough
for it to be passed with its value on top of the address that is there, and to know what the next one needs. -/
def Supplies (entries : Entries) (E : Extents) (height : Nat) :
    (known : Nat → Machine → Prop) → (pc : Nat) → List Index → List Datum → Prop
  | known, pc, i :: is, d :: ds =>
    (∀ m : Machine, m.extents = E → m.pc.toInt = pc → m.sp.toInt = height + 1 → known 0 m →
      ∃ n m', Passes 0 E.code.size n m m' ∧ m'.pc.toInt = (pc + (i.expr.code entries).length : Nat) ∧
        m'.sp.toInt = height + 2 ∧ m'.mem[height + 2]? = some d ∧ m'.mem[height + 1]? = m.mem[height + 1]? ∧
        known 1 m') ∧
    Supplies entries E height (fun k => known (k + 1))
      (pc + (i.expr.code entries).length + i.dimension.code.length) is ds
  | _, _, _, _ => True

theorem carries_self {w : Int64} (hpc : m.pc.toInt = pc) (hsp : m.sp.toInt = height + 2)
    (hroom : height + 3 < m.stackSize.toInt) (hindex : m.mem[height + 2]? = some d)
    (haddress : m.mem[height + 1]? = some (.address w)) : Carries m height pc [d, .address w] m where
  agrees := .refl height m
  pc := hpc
  sp := hsp
  room := by
    show (height : Int) + 2 < _
    omega
  operands := ⟨hindex, haddress, trivial⟩

section Indices

variable {ts : TypeTable} {made : List TypeTable.Extent} {t e : TypeId} {entries : Entries} {is : List Index}
  {known : Nat → Machine → Prop} {a : Int}

/-- Indices lead to the element of an array, or the first of them that is out of bounds is refused. -/
theorem indices_outcome (hbuilt : TypeTable.Built ts made) (hm : m₀.Ready) (hroom : height + 3 < m₀.stackSize.toInt)
    (hknown : ∀ k m m', Agrees height m m' → known k m → known k m')
    (hnests : ts.Nests t (is.map Index.dimension) e) (ht : ts.Has t)
    (hpos : ∀ i ∈ is, 1 ≤ i.dimension.elementSize.toInt)
    (hkinds : List.Forall₂ (fun i d => i.dimension.kind.holds d = true) is ds)
    (hstands : Stands m₀.code pc (Index.code entries is)) (hsupplies : Supplies entries m₀.extents height known pc is ds)
    (hpoints : Points m₀.extents height pc a m) (hzero : known 0 m) (hnonneg : 0 ≤ a)
    (hlt : is ≠ [] → a + (ts.size t).toInt < 2 ^ 63) :
    (List.Forall₂ Dimension.Takes (is.map Index.dimension) ds ∧ ∃ n m', Passes 0 m₀.code.size n m m' ∧
      Points m₀.extents height (pc + (Index.code entries is).length)
        (a + offset (is.map Index.dimension) ds) m' ∧ known is.length m') ∨
    ∃ k i d, is[k]? = some i ∧ ds[k]? = some d ∧
      List.Forall₂ Dimension.Takes ((is.take k).map Index.dimension) (ds.take k) ∧ ¬i.dimension.Takes d ∧
      ∃ n m', Passes 0 m₀.code.size n m m' ∧
        Blocked m₀.extents height (pc + (Index.code entries (is.take k)).length + (i.expr.code entries).length)
          (a + offset ((is.take k).map Index.dimension) (ds.take k)) d m' := by
  induction is generalizing t ds known pc a m with
  | nil =>
    cases hkinds
    refine .inl ⟨.nil, 0, m, rfl, ?_, hzero⟩
    rw [show a + offset ([].map Index.dimension) [] = a from Int.add_zero a]
    exact hpoints
  | cons i rest ih =>
    cases hkinds with
    | @cons _ d _ ds hkind hkinds =>
      obtain ⟨harray, hdim, hinner⟩ := hnests.of_cons
      obtain ⟨hone, hrest⟩ := forall_mem_cons.mp hpos
      obtain ⟨helement, hfits, hsize⟩ := hbuilt.dimension_fits ht harray (hdim ▸ hone)
      rw [← hdim] at hfits hsize
      have hlt := hlt (cons_ne_nil _ _)
      have hwords : ts.size ((ts.get t).base.getD .integer) = i.dimension.elementSize := by rw [hdim]; rfl
      -- The expression of the first index.
      obtain ⟨hexpr, hsupplies⟩ := hsupplies
      obtain ⟨w, hw, haddress⟩ := hpoints.address
      obtain ⟨n₁, m₁, hpass₁, hpc₁, hsp₁, hindex₁, hbelow₁, hone₁⟩ :=
        hexpr m hpoints.extents hpoints.pc hpoints.sp hzero
      have hE₁ : m₁.extents = m₀.extents := hpass₁.extents_eq.trans hpoints.extents
      have hcode₁ : m₁.code = m₀.code := congrArg Extents.code hE₁
      have hstack₁ : m₁.stackSize = m₀.stackSize := congrArg Extents.stackSize hE₁
      have hm₁ : m₁.Ready := hm.of_extents hE₁
      have hcarries := carries_self hpc₁ hsp₁ (hstack₁ ▸ hroom) hindex₁ (hbelow₁.trans haddress)
      have hdimension : Stands m₁.code (pc + (i.expr.code entries).length) i.dimension.code := by
        rw [hcode₁, ← length_instrs]
        exact hstands.left.right
      have hle := hdimension.le_size (by simp [Dimension.code])
      rw [hcode₁] at hle
      by_cases htakes : i.dimension.Takes d
      · obtain ⟨hstride, hupper⟩ := htakes.stride_bounds hone
        obtain ⟨a', n₂, m₂, ha', hpass₂, h₂⟩ :=
          hcarries.passes_dimension hm₁ hdimension hfits htakes (hstack₁ ▸ hroom) (by omega) (by omega)
        have hpoints₂ : Points m₀.extents height (pc + (i.expr.code entries).length + i.dimension.code.length)
            (a + i.dimension.stride d) m₂ :=
          ⟨h₂.agrees.extents.trans hE₁, h₂.pc, h₂.sp, a', by omega, h₂.operands.1⟩
        have hrestStands : Stands m₀.code (pc + (i.expr.code entries).length + i.dimension.code.length)
            (Index.code entries rest) := by
          have := hstands.right
          rwa [length_append, length_instrs, ← Nat.add_assoc] at this
        have hpass := hpass₁.trans (hpass₂.mono ⟨Nat.zero_le _, hle⟩)
        rcases ih (fun k => hknown (k + 1)) hinner helement hrest hkinds hrestStands hsupplies hpoints₂
          (hknown 1 m₁ m₂ h₂.agrees hone₁) (by omega) (fun _ => by rw [hwords]; omega) with
          ⟨htakes', n₃, m₃, hpass₃, hpoints₃, hknown₃⟩ | ⟨k, j, d', hj, hd', htakes', hout, n₃, m₃, hpass₃, hblocked⟩
        · refine .inl ⟨.cons htakes htakes', _, m₃, hpass.trans hpass₃, ?_, hknown₃⟩
          rw [Index.length_code_cons, ← Nat.add_assoc, ← Nat.add_assoc, map_cons, offset, ← Int.add_assoc]
          exact hpoints₃
        · refine .inr ⟨k + 1, j, d', hj, hd', .cons htakes htakes', hout, _, m₃, hpass.trans hpass₃, ?_⟩
          rw [take_succ_cons, take_succ_cons, Index.length_code_cons, ← Nat.add_assoc, ← Nat.add_assoc,
            map_cons, offset, ← Int.add_assoc]
          exact hblocked
      · obtain ⟨v, hv⟩ := TypeKind.exists_ordinal hkind hfits.ordinal
        have hrank : d.rank = v.toInt := Datum.rank_eq hv
        have hbounds : v.toInt < i.dimension.bounds.lower.toInt ∨ i.dimension.bounds.upper.toInt < v.toInt := by
          by_contra hnot
          exact htakes ⟨hkind, by omega, by omega⟩
        obtain ⟨n₂, m₂, hn₂, hpass₂, h₂, hfault⟩ := hcarries.faults_bounds hm₁ hv hdimension.left.left.left.left hbounds
        have hend : pc + (i.expr.code entries).length + 2 ≤ m₀.code.size := by
          have := hdimension.left.left.left.left.le_size (by simp [Bounds.code])
          rwa [hcode₁] at this
        refine .inr ⟨0, i, d, rfl, rfl, .nil, htakes, _, m₂, hpass₁.trans (hpass₂.mono ⟨Nat.zero_le _, hend⟩), ?_⟩
        have hwithin : m₂.Within (pc + (i.expr.code entries).length) (pc + (i.expr.code entries).length + 2) := by
          have hpc₂ := h₂.pc
          constructor <;> omega
        exact ⟨h₂.agrees.extents.trans hE₁, hwithin, h₂.sp, h₂.operands.1, ⟨w, hw.trans (Int.add_zero a).symm, h₂.operands.2.1⟩,
          hfault⟩

/-- A machine has passed the code of an array, so that its address is on top, and comes to the code of some indices with
given values. -/
structure Indexes (entries : Entries) (array : Designator) (is : List Index) (ds : List Datum)
    (known : Nat → Machine → Prop) (height pc : Nat) (a : Int) (m : Machine) : Prop where
  ready : m.Ready
  room : height + 3 < m.stackSize.toInt
  stands : Stands m.code pc (instrs ((array.elements is).code entries))
  points : Points m.extents height (pc + (array.code entries).length) a m
  kinds : List.Forall₂ (fun i d => i.dimension.kind.holds d = true) is ds
  agrees : ∀ k m m', Agrees height m m' → known k m → known k m'
  start : known 0 m
  supplies : Supplies entries m.extents height known (pc + (array.code entries).length) is ds

/-- **The code of indices finds the element.** For an array type with elements of at least one word, under all its
dimensions, the element at indices within their bounds lies inside of the array, and elements at different indices have no
words in common. The code of the indices brings the address of an array to that of the element, without wrapping. If an
index is out of bounds, then the first such index is refused while the address of the array that it selects from is still
on the stack. -/
theorem index_finds_element (hbuilt : TypeTable.Built ts made) (ht : ts.Has t)
    (hnests : ts.Nests t (is.map Index.dimension) e) (hpos : ∀ i ∈ is, 1 ≤ i.dimension.elementSize.toInt) :
    (∀ ds, List.Forall₂ Dimension.Takes (is.map Index.dimension) ds → 0 ≤ offset (is.map Index.dimension) ds ∧
        offset (is.map Index.dimension) ds + (ts.size e).toInt ≤ (ts.size t).toInt) ∧
    (∀ ds ds', List.Forall₂ Dimension.Takes (is.map Index.dimension) ds →
      List.Forall₂ Dimension.Takes (is.map Index.dimension) ds' → ds ≠ ds' →
        offset (is.map Index.dimension) ds + (ts.size e).toInt ≤
            offset (is.map Index.dimension) ds' ∨
          offset (is.map Index.dimension) ds' + (ts.size e).toInt ≤
            offset (is.map Index.dimension) ds) ∧
    ∀ (array : Designator) (ds : List Datum) (known : Nat → Machine → Prop) (height pc : Nat) (a : Int) (m : Machine),
      0 ≤ a → a < 2 ^ 62 → Indexes entries array is ds known height pc a m →
        (List.Forall₂ Dimension.Takes (is.map Index.dimension) ds → ∃ n m', Passes 0 m.code.size n m m' ∧
          Points m.extents height (pc + ((array.elements is).code entries).length)
            (a + offset (is.map Index.dimension) ds) m' ∧ known is.length m') ∧
        (¬List.Forall₂ Dimension.Takes (is.map Index.dimension) ds → ∃ k i d, is[k]? = some i ∧ ds[k]? = some d ∧
          List.Forall₂ Dimension.Takes ((is.take k).map Index.dimension) (ds.take k) ∧ ¬i.dimension.Takes d ∧
          ∃ n m', Passes 0 m.code.size n m m' ∧ Blocked m.extents height
              (pc + ((array.elements (is.take k)).code entries).length + (i.expr.code entries).length)
              (a + offset ((is.take k).map Index.dimension) (ds.take k)) d m') := by
  have hdims : ∀ dim ∈ is.map Index.dimension, 1 ≤ dim.elementSize.toInt := forall_mem_map.mpr hpos
  refine ⟨fun ds => hbuilt.offset_bounds hnests ht hdims, fun ds ds' => hbuilt.offset_apart hnests ht hdims, ?_⟩
  intro array ds known height pc a m hnonneg hlt h
  have hlength (is : List Index) : ((array.elements is).code entries).length =
      (array.code entries).length + (Index.code entries is).length := by
    rw [← length_instrs, Index.instrs_elements, length_append, length_instrs]
  have hstands := h.stands
  rw [Index.instrs_elements] at hstands
  have hcode := hstands.right
  rw [length_instrs] at hcode
  have hend : is ≠ [] → a + (ts.size t).toInt < 2 ^ 63 := by
    intro hne
    obtain ⟨i, rest, rfl⟩ := exists_cons_of_ne_nil hne
    obtain ⟨harray, hdim, -⟩ := hnests.of_cons
    obtain ⟨-, hfits, hsize⟩ := hbuilt.dimension_fits ht harray (hdim ▸ hpos i mem_cons_self)
    have := hfits.words_lt
    omega
  simp only [hlength, ← Nat.add_assoc]
  rcases indices_outcome hbuilt h.ready h.room h.agrees hnests ht hpos h.kinds hcode h.supplies h.points h.start hnonneg
    hend with ⟨htakes, hfound⟩ | ⟨k, i, d, hi, hd, hbefore, hout, hblocked⟩
  · exact ⟨fun _ => hfound, fun hnot => absurd htakes hnot⟩
  · refine ⟨fun htakes => absurd ?_ hout, fun _ => ⟨k, i, d, hi, hd, hbefore, hout, hblocked⟩⟩
    obtain ⟨-, hall⟩ := List.forall₂_iff_zip.mp htakes
    have hmap : (is.map Index.dimension)[k]? = some i.dimension := by rw [List.getElem?_map, hi]; rfl
    exact hall (mem_of_getElem? (List.getElem?_zip_eq_some.mpr ⟨hmap, hd⟩))

theorem supplies_literals (hm : m₀.Ready) (hroom : height + 3 < m₀.stackSize.toInt)
    (hliterals : List.Forall₂ (fun i d => ∃ type line, i.expr = .literal d type line) is ds)
    (hstands : Stands m₀.code pc (Index.code entries is)) :
    Supplies entries m₀.extents height (fun _ _ => True) pc is ds := by
  induction hliterals generalizing pc with
  | nil => trivial
  | @cons i d is ds hi _ ih =>
    obtain ⟨type, line, hi⟩ := hi
    have hlength : (i.expr.code entries).length = 1 := by rw [hi]; rfl
    have hpush : Stands m₀.code pc [{ op := .push, arg := d }] := by
      have := hstands.left.left
      rwa [hi] at this
    refine ⟨fun m hE hpc hsp _ => ?_, ih ?_⟩
    · have hcode : m.code = m₀.code := congrArg Extents.code hE
      have hstack : m.stackSize = m₀.stackSize := congrArg Extents.stackSize hE
      have hcarries : Carries m (height + 1) pc [] m := ⟨.refl _ m, hpc, hsp, by rw [hstack, length_nil]; omega, trivial⟩
      have hstep := hcarries.step_push (hm.of_extents hE).roomy (hcode ▸ hpush.head) (by rw [hstack, length_nil]; omega)
      obtain ⟨m', hpass, h'⟩ := hcarries.passes hstep
      have hle : pc + 1 ≤ m₀.code.size := hpush.le_size (cons_ne_nil _ _)
      exact ⟨1, m', hpass.mono ⟨Nat.zero_le _, hle⟩, by rw [hlength]; exact h'.pc, h'.sp, h'.operands.1,
        h'.agrees.below _ (Nat.le_refl _), trivial⟩
    · have := hstands.right
      rwa [length_append, length_instrs, ← Nat.add_assoc] at this

end Indices

/-- Indices of an array with a row for each truth value, of words that are numbered from -1 to 2. -/
def gridIndices (v : Int64) : List Index :=
  [⟨.literal (.boolean true) .boolean 1, ⟨⟨0, 1⟩, .boolean, 4⟩, 1⟩,
    ⟨.literal (.integer v) .integer 1, ⟨⟨-1, 2⟩, .integer, 1⟩, 1⟩]

/-- A variable that holds the array, at word 8 of the stack. -/
def gridVariable : Designator := .variable ⟨0, 3, ⟨7⟩⟩ 1

def gridMachine (v : Int64) : Machine :=
  (ofCode { stackSize := 32, heapSize := 8 }
    (instrs ((gridVariable.elements (gridIndices v)).code fun _ => 0)).toArray).after 1

theorem indexes_grid (v : Int64) : Indexes (fun _ => 0) gridVariable (gridIndices v) [.boolean true, .integer v]
    (fun _ _ => True) 0 0 8 (gridMachine v) := by
  have hready : (gridMachine v).Ready := ⟨(Laid.ofCode (by decide) _).after 1, show 14 < 2 ^ 63 by decide⟩
  have hstands : Stands (gridMachine v).code 0 (instrs ((gridVariable.elements (gridIndices v)).code fun _ => 0)) :=
    .whole _
  refine ⟨hready, show (0 : Int) + 3 < 32 by decide, hstands, ⟨rfl, rfl, rfl, 8, rfl, rfl⟩,
    .cons rfl (.cons rfl .nil), fun _ _ _ _ => id, trivial, ?_⟩
  rw [Index.instrs_elements] at hstands
  exact supplies_literals hready (show (0 : Int) + 3 < 32 by decide) (.cons ⟨_, _, rfl⟩ (.cons ⟨_, _, rfl⟩ .nil))
    hstands.right

/-- The word number 1 of the row for `true` is found, and a word number 3 is refused. -/
theorem index_finds_element_grid :
    (∃ n m', Passes 0 (gridMachine 1).code.size n (gridMachine 1) m' ∧ Points (gridMachine 1).extents 0 14 14 m') ∧
      ∃ n m', Passes 0 (gridMachine 3).code.size n (gridMachine 3) m' ∧
        Blocked (gridMachine 3).extents 0 9 12 (.integer 3) m' := by
  have hsubrange := TypeTable.Built.builtins.subrange .integer (-1) 2 (by decide) rfl
  have hrow := hsubrange.array ⟨5⟩ .real (by decide) (by decide) rfl
  have hgrid := hrow.array .boolean ⟨6⟩ (by decide) (by decide) rfl
  have hpos (v : Int64) : ∀ i ∈ gridIndices v, 1 ≤ i.dimension.elementSize.toInt := by simp [gridIndices]
  have hfinds (v : Int64) := (index_finds_element hgrid (t := ⟨7⟩) (by decide)
    (.array rfl (.array rfl (.element ⟨1⟩))) (hpos v)).2.2 gridVariable _ _ 0 0 8 (gridMachine v) (by decide)
      (by decide) (indexes_grid v)
  have hrowTaken : Dimension.Takes ⟨⟨0, 1⟩, .boolean, 4⟩ (.boolean true) := ⟨rfl, by decide, by decide⟩
  constructor
  · have hwordTaken : Dimension.Takes ⟨⟨-1, 2⟩, .integer, 1⟩ (.integer 1) := ⟨rfl, by decide, by decide⟩
    obtain ⟨n, m', hpass, hpoints, -⟩ := (hfinds 1).1 (.cons hrowTaken (.cons hwordTaken .nil))
    exact ⟨n, m', hpass, hpoints⟩
  · have hout : ¬Dimension.Takes ⟨⟨-1, 2⟩, .integer, 1⟩ (.integer 3) := fun h => absurd h.upper (by decide)
    have hnone : ¬List.Forall₂ Dimension.Takes ((gridIndices 3).map Index.dimension) [.boolean true, .integer 3] := by
      intro h
      obtain ⟨-, hrest⟩ := List.forall₂_cons.mp h
      exact hout (List.forall₂_cons.mp hrest).1
    obtain ⟨k, i, d, hi, hd, -, hnot, n, m', hpass, hblocked⟩ := (hfinds 3).2 hnone
    match k with
    | 0 =>
      obtain rfl := Option.some.inj hi
      obtain rfl := Option.some.inj hd
      exact absurd hrowTaken hnot
    | 1 =>
      obtain rfl := Option.some.inj hi
      obtain rfl := Option.some.inj hd
      exact ⟨n, m', hpass, hblocked⟩
    | k + 2 => nomatch hi

end Machine

end MiniPascal
