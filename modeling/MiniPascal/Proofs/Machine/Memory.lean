import MiniPascal.Machine.Step
import MiniPascal.Proofs.Word

/-!
# Memory by index

Addresses are words, and the memory is an array. The lemmas here say what reading, storing and copying do
to the words at given indices. The topmost words of the stack are a list, with the top first.
-/

namespace MiniPascal.Machine

open List

theorem Config.lt_stackSize (config : Config) : 4 < config.normalize.stackSize.toInt := by
  show 4 < Int64.toInt (if config.stackSize ≤ FrameSlot.count then defaultSize else config.stackSize)
  split
  · decide
  · next h =>
    rw [Int64.not_le, Int64.lt_iff_toInt_lt] at h
    exact h

theorem Config.heapSize_pos (config : Config) : 0 < config.normalize.heapSize.toInt := by
  show 0 < Int64.toInt (if config.heapSize ≤ 0 then defaultSize else config.heapSize)
  split
  · decide
  · next h =>
    rw [Int64.not_le, Int64.lt_iff_toInt_lt] at h
    exact h

variable {m : Machine} {mem : Array Datum} {index count : Nat} {a : Int64}

theorem read?_eq {n : Nat} (h : a.toInt = n) : m.read? a = m.mem[n]? := by
  unfold read?
  rw [if_pos (Int64.le_iff_toInt_le.mpr (by rw [h]; exact Int.natCast_nonneg n)), h]
  rfl

theorem mem_write {n : Nat} (h : a.toInt = n) (d : Datum) : (m.write a d).mem = m.mem.setIfInBounds n d := by
  show m.mem.setIfInBounds a.toInt.toNat d = _
  rw [h]
  rfl

theorem slice?_eq {n : Int64} {i k : Nat} (ha : a.toInt = i) (hn : n.toInt = k) (hle : i + k ≤ m.mem.size)
    (hsize : (i + k : Int) < 2 ^ 63) : m.slice? a n = some i := by
  have hsum : (a + n).toInt = i + k := Word.add_eq ha hn (by omega)
  unfold slice?
  rw [if_pos, ha]
  · rfl
  · simp only [Bool.and_eq_true, decide_eq_true_eq, Int64.le_iff_toInt_le, hsum, ha]
    refine ⟨⟨Int.natCast_nonneg i, ?_⟩, ?_⟩ <;> omega

/-- A block that ends at or below the top of the stack is valid. -/
theorem valid_of_le {n : Int64} {i k : Nat} (ha : a.toInt = i) (hn : n.toInt = k) (hi : 1 ≤ i) (hk : 1 ≤ k)
    (hsp : (i + k : Int) ≤ m.sp.toInt + 1) (hs : m.sp.toInt < 2 ^ 62) : m.valid a n = true := by
  have hlast : (a + n - 1).toInt = i + k - 1 :=
    Word.sub_eq (Word.add_eq ha hn (by omega)) Word.toInt_one (by omega)
  unfold valid
  rw [if_neg]
  · show (decide (a + n - 1 ≤ m.sp) || _) = true
    rw [decide_eq_true (Int64.le_iff_toInt_le.mpr (by omega))]
    rfl
  · simp only [Bool.or_eq_true, decide_eq_true_eq, Int64.le_iff_toInt_le, Int64.lt_iff_toInt_lt, ha, hn]
    show ¬((k : Int) ≤ 0 ∨ (i : Int) < 1)
    omega

theorem blockAt_address {n slot : Int64} (hn : 1 ≤ n.toInt) (hslot : 1 ≤ slot.toInt)
    (hread : m.read? slot = some (.address a)) : m.blockAt (.integer n) slot =
      if m.valid a n then .ok (n, a) else .error (.fault .outOfRange) := by
  unfold blockAt
  dsimp only
  rw [if_neg (by rw [Int64.lt_iff_toInt_lt, Word.toInt_one]; omega),
    if_neg (by rw [Int64.lt_iff_toInt_lt, Word.toInt_one]; omega), hread]

theorem size_blit (index : Nat) (ds : List Datum) : (blit mem index ds).size = mem.size := by
  induction ds generalizing mem index with
  | nil => rfl
  | cons d rest ih =>
    rw [blit, ih]
    exact Array.size_setIfInBounds

/-- Storing words leaves the others. -/
theorem getElem?_blit_of_outside {i : Nat} {ds : List Datum} (h : i < index ∨ index + ds.length ≤ i) :
    (blit mem index ds)[i]? = mem[i]? := by
  induction ds generalizing mem index with
  | nil => rfl
  | cons d rest ih =>
    rw [length_cons] at h
    rw [blit, ih (by omega), Array.getElem?_setIfInBounds, if_neg (by omega)]

theorem getElem?_blit {i : Nat} {ds : List Datum} (hfit : index + ds.length ≤ mem.size) (h : i < ds.length) :
    (blit mem index ds)[index + i]? = ds[i]? := by
  induction ds generalizing mem index i with
  | nil => exact absurd h (by simp)
  | cons d rest ih =>
    rw [length_cons] at h hfit
    rw [blit]
    cases i with
    | zero =>
      rw [getElem?_blit_of_outside (by omega), Array.getElem?_setIfInBounds, if_pos (by omega), if_pos (by omega)]
      rfl
    | succ i =>
      rw [show index + (i + 1) = index + 1 + i by omega]
      exact ih (by rw [Array.size_setIfInBounds]; omega) (by omega)

/-- Storing words adds no others. -/
theorem blit_data {ds : List Datum} {P : Datum → Prop} (hds : ∀ d ∈ ds, P d)
    (hmem : ∀ (a : Nat) (d : Datum), mem[a]? = some d → P d) :
    ∀ (a : Nat) (d : Datum), (blit mem index ds)[a]? = some d → P d := by
  induction ds generalizing mem index with
  | nil => exact hmem
  | cons e rest ih =>
    refine ih (fun d hd => hds d (mem_cons_of_mem e hd)) ?_
    intro a d hd
    rw [Array.getElem?_setIfInBounds] at hd
    split at hd
    · split at hd
      · exact Option.some.inj hd ▸ hds e mem_cons_self
      · simp at hd
    · exact hmem a d hd

theorem write_data {P : Datum → Prop} {d : Datum} (hmem : ∀ (a : Nat) (d : Datum), m.mem[a]? = some d → P d)
    (hd : P d) : ∀ (i : Nat) (e : Datum), (m.write a d).mem[i]? = some e → P e :=
  @blit_data _ _ [d] _ (forall_mem_singleton.mpr hd) hmem

def blockOf (mem : Array Datum) (index count : Nat) : List Datum :=
  (mem.extract index (index + count)).toList.reverse

theorem length_blockOf (h : index + count ≤ mem.size) : (blockOf mem index count).length = count := by
  rw [blockOf, length_reverse, Array.length_toList, Array.size_extract]
  omega

theorem blockOf_succ {d : Datum} (h : mem[index + count]? = some d) :
    blockOf mem index (count + 1) = d :: blockOf mem index count := by
  obtain ⟨hlt, hd⟩ := Array.getElem?_eq_some_iff.mp h
  have hsucc : mem.extract index (index + (count + 1)) = (mem.extract index (index + count)).push d := by
    apply Array.ext_getElem?
    intro j
    rw [Array.getElem?_push, Array.getElem?_extract, Array.getElem?_extract, Array.size_extract]
    split
    · next hj =>
      split
      · next heq => rw [show index + j = index + count by omega, h]
      · next hne => rw [if_pos (by omega)]
    · next hj => rw [if_neg (by omega), if_neg (by omega)]
  rw [blockOf, hsucc, Array.toList_push, reverse_append]
  rfl

theorem blockOf_one {d : Datum} (h : mem[index]? = some d) : blockOf mem index 1 = [d] := by
  rw [blockOf_succ h]
  simp [blockOf]

theorem mem_of_mem_blockOf {d : Datum} (h : d ∈ blockOf mem index count) : ∃ i : Nat, mem[i]? = some d := by
  rw [blockOf, mem_reverse, Array.mem_toList_iff] at h
  obtain ⟨i, hi⟩ := Array.getElem?_of_mem h
  rw [Array.getElem?_extract] at hi
  split at hi
  · exact ⟨_, hi⟩
  · simp at hi

theorem move_eq (target source count : Nat) :
    move mem target source count = blit mem target (blockOf mem source count).reverse := by
  rw [blockOf, reverse_reverse]
  rfl

theorem size_move (target source count : Nat) : (move mem target source count).size = mem.size := size_blit _ _

/-- Copying a block leaves the words elsewhere. -/
theorem getElem?_move_of_outside {target source a : Nat} (h : a < target ∨ target + count ≤ a) :
    (move mem target source count)[a]? = mem[a]? := by
  refine getElem?_blit_of_outside ?_
  rw [Array.length_toList, Array.size_extract]
  omega

/-- Copying a block adds no words. -/
theorem move_data {P : Datum → Prop} (hmem : ∀ (a : Nat) (d : Datum), mem[a]? = some d → P d) (target source count : Nat)
    (a : Nat) (d : Datum) : (move mem target source count)[a]? = some d → P d := by
  rw [move_eq]
  refine blit_data (fun d hd => ?_) hmem a d
  obtain ⟨i, hi⟩ := mem_of_mem_blockOf (mem_reverse.mp hd)
  exact hmem i d hi

/-- The words after a block was copied. -/
theorem getElem?_move {target source : Nat} (htarget : target + count ≤ mem.size)
    (hsource : source + count ≤ mem.size) (a : Nat) : (move mem target source count)[a]? =
      if target ≤ a ∧ a < target + count then mem[source + (a - target)]? else mem[a]? := by
  have hlength : (mem.extract source (source + count)).toList.length = count := by
    rw [Array.length_toList, Array.size_extract]
    omega
  unfold move
  split
  · next h =>
    obtain ⟨i, rfl⟩ := Nat.exists_eq_add_of_le h.1
    rw [getElem?_blit (by omega) (by omega), Array.getElem?_toList, Array.getElem?_extract, if_pos (by omega),
      Nat.add_sub_cancel_left]
  · next h => exact getElem?_move_of_outside (by omega)

theorem copyBlock_eq {target source n sp : Int64} {t s k : Nat} (ht : target.toInt = t)
    (hs : source.toInt = s) (hn : n.toInt = k) (htarget : t + k ≤ m.mem.size)
    (hsource : s + k ≤ m.mem.size) (hsize : (t + k : Int) < 2 ^ 63 ∧ (s + k : Int) < 2 ^ 63) :
    m.copyBlock target source n sp = done { m with mem := move m.mem t s k, sp } := by
  unfold copyBlock
  rw [slice?_eq ht hn htarget hsize.1, slice?_eq hs hn hsource hsize.2, hn]
  rfl

theorem assign_eq_copyBlock {n : Int64} (hn : 1 ≤ n.toInt) (hle : n.toInt + 1 ≤ m.sp.toInt)
    (hblock : m.blockAt (.integer n) (m.sp - n) = .ok (n, a)) :
    m.assign (.integer n) = m.copyBlock a (m.sp - n + 1) n (m.sp - (n + 1)) := by
  have hlt := m.sp.toInt_lt
  unfold assign
  dsimp only
  rw [if_neg (by rw [Int64.lt_iff_toInt_lt, Word.toInt_one]; omega),
    if_neg (by rw [Int64.lt_iff_toInt_lt, Word.add_one (by omega)]; omega), Int64.add_sub_cancel, hblock]

/-- The words above a place on the stack are those of a list, the topmost one first. -/
def Stacked (mem : Array Datum) (base : Nat) : List Datum → Prop
  | [] => True
  | d :: ds => mem[base + ds.length + 1]? = some d ∧ Stacked mem base ds

namespace Stacked

variable {mem' : Array Datum} {base : Nat} {ds : List Datum} {d : Datum}

section

variable (h : Stacked mem base ds)

include h

theorem congr (heq : ∀ a, base < a → a ≤ base + ds.length → mem'[a]? = mem[a]?) : Stacked mem' base ds := by
  induction ds with
  | nil => trivial
  | cons d rest ih =>
    rw [length_cons] at heq
    refine ⟨?_, ih h.2 fun a hlt hle => heq a hlt (by omega)⟩
    rw [heq _ (by omega) (by omega)]
    exact h.1

/-- Where a word lies, counted from the top. -/
theorem getElem?_sub {k : Nat} (hd : ds[k]? = some d) : mem[base + ds.length - k]? = some d := by
  induction ds generalizing k with
  | nil => cases hd
  | cons e rest ih =>
    cases k with
    | zero =>
      obtain rfl : e = d := Option.some.inj hd
      exact h.1
    | succ k =>
      rw [length_cons, ← Nat.add_assoc, Nat.add_sub_add_right]
      exact ih h.2 hd

/-- Two memories with the same words above an address agree there. -/
theorem getElem?_eq (h' : Stacked mem' base ds) {a : Nat} (hlt : base < a)
    (hle : a ≤ base + ds.length) : mem'[a]? = mem[a]? := by
  induction ds with
  | nil =>
    rw [length_nil] at hle
    omega
  | cons d rest ih =>
    by_cases htop : a = base + rest.length + 1
    · rw [htop, h.1, h'.1]
    · rw [length_cons] at hle
      exact ih h.2 h'.2 (by omega)

omit h in
theorem append {vs : List Datum} (h : Stacked mem base (vs ++ ds)) : Stacked mem base ds := by
  induction vs with
  | nil => exact h
  | cons v rest ih => exact ih h.2

/-- A word that is stored right above becomes the top. -/
theorem push (hfit : base + ds.length + 1 < mem.size) (d : Datum) :
    Stacked (mem.setIfInBounds (base + ds.length + 1) d) base (d :: ds) := by
  constructor
  · rw [Array.getElem?_setIfInBounds, if_pos rfl, if_pos hfit]
  · refine h.congr fun a _ hle => ?_
    rw [Array.getElem?_setIfInBounds, if_neg (by omega)]

/-- Words that are stored right above become the topmost ones. -/
theorem blit (vs : List Datum) (hfit : base + ds.length + vs.length < mem.size) :
    Stacked (Machine.blit mem (base + ds.length + 1) vs) base (vs.reverse ++ ds) := by
  induction vs generalizing mem ds with
  | nil => exact h
  | cons v rest ih =>
    rw [length_cons] at hfit
    rw [Machine.blit, reverse_cons, append_assoc]
    have := ih (h.push (by omega) v) (by rw [Array.size_setIfInBounds, length_cons]; omega)
    exact this

end

end Stacked

end MiniPascal.Machine
