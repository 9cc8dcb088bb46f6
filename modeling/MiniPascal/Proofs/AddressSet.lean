import Mathlib.Data.Finset.Sort
import MiniPascal.AddressSet

/-!
# Address sets are finite sets

Whatever is added to a bitmap that starts out empty and removed from it, it holds the finite set that the same changes
make: its members, their number, the least of them and their ascending order are those of the set.
-/

namespace MiniPascal.AddressSet

open List

variable {s t : AddressSet} {w : BitVec 64}

/-! ## Members -/

theorem contains_natCast (s : AddressSet) (a : Nat) : s.contains a = (s.word (a / 64)).getLsbD (a % 64) := by
  have hmask : mask a ≠ 0#64 := fun h => by simpa [h] using getLsbD_mask a (a % 64)
  show decide (s.word (a / 64) &&& BitVec.twoPow 64 (a % 64) ≠ 0#64) = _
  rw [BitVec.and_twoPow]
  split
  · next h => exact h ▸ decide_eq_true hmask
  · next h => simp [h]

theorem word_empty (i : Nat) : empty.word i = 0#64 := rfl

theorem word_erase (s : AddressSet) (a i : Nat) :
    (s.erase a).word i = if a / 64 = i then s.word i &&& ~~~mask a else s.word i := by
  show (s.words.modify (a / 64) _).getD i 0#64 = _
  simp only [word, Array.getD_eq_getD_getElem?, Array.getElem?_modify]
  split
  · cases s.words[i]? <;> simp
  · rfl

theorem word_insert {a : Nat} (h : s.insert? a = some t) (i : Nat) :
    t.word i = if a / 64 = i then s.word i ||| mask a else s.word i := by
  obtain rfl := Option.some.inj h
  have hroom : (s.withRoom a).word i = s.word i := by
    simp only [word, withRoom, Array.getD_eq_getD_getElem?, Array.getElem?_append, Array.getElem?_replicate]
    split
    · rfl
    · next hi => split <;> simp [Array.getElem?_eq_none (Nat.le_of_not_lt hi)]
  rw [← hroom]
  simp only [word, Array.getD_eq_getD_getElem?, Array.getElem?_modify]
  split
  · next hi =>
    have hlt : i < (s.withRoom a).words.size := by
      rw [withRoom, Array.size_append, Array.size_replicate]
      omega
    simp [Array.getElem?_eq_getElem hlt]
  · rfl

/-- The word of an address and the place of its bit determine it. -/
theorem natCast_eq_iff (a b : Nat) : (a : Int) = b ↔ a / 64 = b / 64 ∧ b % 64 = a % 64 := by omega

theorem contains_empty (a : Int) : empty.contains a = false := by
  cases a with
  | ofNat a => exact (contains_natCast empty a).trans (by rw [word_empty, BitVec.getLsbD_zero])
  | negSucc a => rfl

theorem contains_erase (s : AddressSet) (a b : Int) : (s.erase a).contains b = (s.contains b && decide (a ≠ b)) := by
  match a, b with
  | .negSucc a, .ofNat b => exact (Bool.and_true _).symm
  | .negSucc a, .negSucc b => rfl
  | .ofNat a, .negSucc b => rfl
  | .ofNat a, .ofNat b =>
    have hlt := Nat.mod_lt b (show 0 < 64 by decide)
    simp only [Int.ofNat_eq_natCast, contains_natCast, word_erase, natCast_eq_iff, ne_eq]
    split
    · next h => simp only [BitVec.getLsbD_and, BitVec.getLsbD_not, hlt, getLsbD_mask]; simp [h]
    · next h => simp [h]

/-- Adding puts in one number and no other. -/
theorem contains_insert {a : Int} (h : s.insert? a = some t) (b : Int) :
    t.contains b = (s.contains b || decide (a = b)) := by
  match a, b with
  | .negSucc a, _ => cases h
  | .ofNat a, .negSucc b => simp [contains]
  | .ofNat a, .ofNat b =>
    simp only [Int.ofNat_eq_natCast, contains_natCast, word_insert h, natCast_eq_iff]
    split
    · next h => simp only [BitVec.getLsbD_or, getLsbD_mask]; simp [h]
    · next h => simp [h]

/-- A negative number is the only one that cannot be added. -/
theorem insert_natCast (s : AddressSet) (a : Nat) : ∃ t, s.insert? a = some t := ⟨_, rfl⟩

theorem remove_eq (s : AddressSet) (a : Int) : s.remove a = (s.contains a, (s.remove a).2) := by
  unfold remove
  split <;> simp_all

theorem contains_remove (s : AddressSet) (a b : Int) :
    (s.remove a).2.contains b = (s.contains b && decide (a ≠ b)) := by
  unfold remove
  split
  · exact contains_erase s a b
  · next h =>
    by_cases hab : a = b
    · subst hab
      simp_all
    · simp [hab]

/-! ## The bits of a word -/

theorem mem_bits (w : BitVec 64) (j : Nat) : j ∈ bits w ↔ w.getLsbD j = true := by
  fun_induction bits w with
  | case1 => simp
  | case2 w h ih =>
    rw [mem_cons, ih, getLsbD_dropLowest h, Bool.and_eq_true, decide_eq_true_eq]
    by_cases hj : j = w.ctz.toNat
    · simp [hj, BitVec.getLsbD_true_ctz_of_ne_zero h]
    · simp [hj]

theorem bits_sorted (w : BitVec 64) : (bits w).Pairwise (· < ·) := by
  fun_induction bits w with
  | case1 => exact .nil
  | case2 w h ih =>
    refine pairwise_cons.mpr ⟨fun j hj => ?_, ih⟩
    rw [mem_bits, getLsbD_dropLowest h, Bool.and_eq_true, decide_eq_true_eq] at hj
    by_contra hle
    have := BitVec.getLsbD_false_of_lt_ctz (x := w) (i := j) (by omega)
    simp_all

theorem eq_of_sorted {l l' : List Nat} (h : l.Pairwise (· < ·)) (h' : l'.Pairwise (· < ·))
    (hmem : ∀ a, a ∈ l ↔ a ∈ l') : l = l' :=
  ((perm_ext_iff_of_nodup (h.imp Nat.ne_of_lt) (h'.imp Nat.ne_of_lt)).mpr hmem).eq_of_pairwise
    (fun a b _ _ hab hba => by omega) h h'

theorem length_bits (w : BitVec 64) : (bits w).length = w.cpop.toNat := by
  have hcount (n : Nat) : w.cpopNatRec n 0 = ((List.range n).filter w.getLsbD).length := by
    induction n with
    | zero => rfl
    | succ n ih =>
      rw [BitVec.cpopNatRec_succ, BitVec.cpopNatRec_add, ih, range_succ, filter_append, length_append]
      cases h : w.getLsbD n <;> simp [h]
  rw [BitVec.toNat_cpop, hcount]
  refine congrArg _ (eq_of_sorted (bits_sorted w) (pairwise_lt_range.filter _) fun j => ?_)
  rw [mem_bits, mem_filter, mem_range, and_iff_right_of_imp BitVec.lt_of_getLsbD]

/-! ## The members in order -/

theorem mem_membersFrom (i : Nat) (ws : List (BitVec 64)) (a : Nat) : a ∈ membersFrom i ws ↔
    64 * i ≤ a ∧ (ws.getD (a / 64 - i) 0#64).getLsbD (a % 64) = true := by
  induction ws generalizing i with
  | nil => simp [membersFrom]
  | cons w ws ih =>
    rw [membersFrom, mem_append, ih, mem_map]
    simp only [mem_bits]
    constructor
    · rintro (⟨j, hj, rfl⟩ | ⟨hle, hbit⟩)
      · have hlt := BitVec.lt_of_getLsbD hj
        rw [show (64 * i + j) / 64 - i = 0 by omega, show (64 * i + j) % 64 = j by omega]
        exact ⟨by omega, hj⟩
      · rw [show a / 64 - i = a / 64 - (i + 1) + 1 by omega]
        exact ⟨by omega, hbit⟩
    · rintro ⟨hle, hbit⟩
      by_cases hnext : 64 * (i + 1) ≤ a
      · rw [show a / 64 - i = a / 64 - (i + 1) + 1 by omega] at hbit
        exact .inr ⟨hnext, hbit⟩
      · rw [show a / 64 - i = 0 by omega] at hbit
        exact .inl ⟨a % 64, hbit, by omega⟩

theorem membersFrom_sorted (i : Nat) (ws : List (BitVec 64)) : (membersFrom i ws).Pairwise (· < ·) := by
  induction ws generalizing i with
  | nil => exact .nil
  | cons w ws ih =>
    refine pairwise_append.mpr ⟨pairwise_map.mpr ((bits_sorted w).imp fun h => by omega), ih _, ?_⟩
    intro a ha b hb
    obtain ⟨j, hj, rfl⟩ := mem_map.mp ha
    have := BitVec.lt_of_getLsbD ((mem_bits w j).mp hj)
    have := ((mem_membersFrom _ _ _).mp hb).1
    omega

theorem mem_toList (s : AddressSet) (a : Nat) : a ∈ s.toList ↔ s.contains a = true := by
  rw [toList, mem_membersFrom, contains_natCast]
  simp [word]

theorem size_eq_length (s : AddressSet) : s.size = s.toList.length := by
  have hcount (i n : Nat) (ws : List (BitVec 64)) :
      ws.foldl (fun n w => n + w.cpop.toNat) n = n + (membersFrom i ws).length := by
    induction ws generalizing i n with
    | nil => rfl
    | cons w ws ih => simp [membersFrom, length_bits, ih (i + 1), Nat.add_assoc]
  rw [size, ← Array.foldl_toList, hcount 0, Nat.zero_add, toList]

theorem least_eq_head (s : AddressSet) : s.least = (s.toList.head?.map Nat.cast).getD (-1) := by
  have hfirst (i : Nat) (ws : List (BitVec 64)) :
      leastFrom i ws = ((membersFrom i ws).head?.map Nat.cast).getD (-1) := by
    induction ws generalizing i with
    | nil => rfl
    | cons w ws ih =>
      rw [leastFrom, membersFrom, bits, ih (i + 1)]
      by_cases h : w = 0#64 <;> simp [h]
  exact hfirst 0 _

/-! ## Histories -/

/-- A change of a set. -/
inductive Change where
  | add (a : Nat)
  | remove (a : Int)

def after (s : AddressSet) : Change → AddressSet
  | .add a => (s.insert? a).getD s
  | .remove a => (s.remove a).2

def Change.onSet : Change → Finset Nat → Finset Nat
  | .add a, m => insert a m
  | .remove a, m => {b ∈ m | (b : Int) ≠ a}

def history (cs : List Change) : AddressSet := cs.foldl after empty

def membersOf (cs : List Change) : Finset Nat := cs.foldl (fun m c => c.onSet m) ∅

def Holds (s : AddressSet) (m : Finset Nat) : Prop := ∀ a : Nat, s.contains a = true ↔ a ∈ m

variable {m : Finset Nat}

theorem Holds.after (h : s.Holds m) (c : Change) : (s.after c).Holds (c.onSet m) := by
  intro b
  cases c with
  | add a =>
    obtain ⟨t, ht⟩ := insert_natCast s a
    simp only [AddressSet.after, ht, Option.getD_some, contains_insert ht, Change.onSet, Bool.or_eq_true, h b,
      decide_eq_true_eq, Finset.mem_insert, Int.natCast_inj]
    rw [or_comm, eq_comm]
  | remove a =>
    simp only [AddressSet.after, contains_remove, Change.onSet, Bool.and_eq_true, h b, decide_eq_true_eq,
      Finset.mem_filter, ne_comm]

theorem history_concat (cs : List Change) (c : Change) : history (cs ++ [c]) = (history cs).after c :=
  foldl_concat ..

theorem holds_history (cs : List Change) : (history cs).Holds (membersOf cs) := by
  induction cs using List.reverseRecOn with
  | nil => exact fun a => by simp [history, membersOf, contains_empty]
  | append_singleton cs c ih =>
    rw [history_concat, membersOf, foldl_concat]
    exact ih.after c

theorem Holds.contains_iff (h : s.Holds m) (a : Int) : s.contains a = true ↔ ∃ b ∈ m, (b : Int) = a := by
  cases a with
  | ofNat a => simpa [Int.natCast_inj] using h a
  | negSucc a => simp [contains]

theorem Holds.toList_eq (h : s.Holds m) : s.toList = m.sort :=
  eq_of_sorted (membersFrom_sorted _ _) m.sortedLT_sort.pairwise fun a => by
    rw [mem_toList, h a, Finset.mem_sort]

theorem Holds.least_eq (h : s.Holds m) : s.least = if h : m.Nonempty then (m.min' h : Int) else -1 := by
  rw [least_eq_head, h.toList_eq]
  split
  · next hm =>
    have hlt : 0 < m.sort.length := by simpa using Finset.card_pos.mpr hm
    rw [Finset.min'_eq_sorted_zero, List.head?_eq_getElem?, List.getElem?_eq_getElem hlt]
    rfl
  · next hm => simp [Finset.not_nonempty_iff_eq_empty.mp hm]

/-- Whatever is added to an empty bitmap and removed from it, it is the set that the same changes make. -/
theorem history_refines_set (cs : List Change) :
    (∀ a : Int, (history cs).contains a = true ↔ ∃ b ∈ membersOf cs, (b : Int) = a) ∧
    (∀ a : Nat, ∃ t, (history cs).insert? a = some t ∧ t = history (cs ++ [.add a])) ∧
    (∀ a : Int, (history cs).remove a = ((history cs).contains a, history (cs ++ [.remove a]))) ∧
    (history cs).size = (membersOf cs).card ∧
    (history cs).least = (if h : (membersOf cs).Nonempty then ((membersOf cs).min' h : Int) else -1) ∧
    (history cs).toList = (membersOf cs).sort := by
  have hholds := holds_history cs
  refine ⟨hholds.contains_iff, fun a => ?_, fun a => ?_, ?_, hholds.least_eq, hholds.toList_eq⟩
  · obtain ⟨t, ht⟩ := insert_natCast (history cs) a
    refine ⟨t, ht, ?_⟩
    rw [history_concat, after, ht, Option.getD_some]
  · rw [remove_eq, history_concat]
    rfl
  · rw [size_eq_length, hholds.toList_eq, Finset.length_sort]

end MiniPascal.AddressSet
