import MiniPascal.Proofs.FreeStore.History

/-!
# The free blocks are determined by the allocated ones

Blocks with gaps between them can be read off the addresses that they cover. The free blocks cover what the
allocated ones leave of the range, so a store does not remember how it came about: a request that is taken
back leaves no trace, and neither does the order of releases.
-/

namespace MiniPascal.FreeStore

open Block

variable {s t : FreeStore} {n a : Int64} {b c : Block} {bs cs : List Block} {lo hi : Int}

namespace Spaced

section

variable (h : Spaced lo hi (b :: bs))

include h

theorem tail : Spaced lo hi bs :=
  ⟨fun c hc => h.inside c (List.mem_cons_of_mem b hc), (List.pairwise_cons.mp h.gaps).2⟩

/-- The first block starts at or below every address that is covered. -/
theorem first_le {x : Int} (hx : 0 < count x (b :: bs)) : b.first ≤ x := by
  obtain ⟨c, hc, hcov⟩ := exists_of_count_pos hx
  have hle := (covers_iff.mp hcov).1
  rcases List.mem_cons.mp hc with rfl | hc
  · exact hle
  · have hgap := (List.pairwise_cons.mp h.gaps).1 c hc
    have hne := (h.inside b List.mem_cons_self).nonempty
    omega

/-- The address after the first block is not covered. -/
theorem count_stop : count b.stop (b :: bs) = 0 := by
  apply Nat.eq_zero_of_not_pos
  intro hpos
  obtain ⟨c, hc, hcov⟩ := exists_of_count_pos hpos
  have hbounds := covers_iff.mp hcov
  rcases List.mem_cons.mp hc with rfl | hc
  · omega
  · have hgap := (List.pairwise_cons.mp h.gaps).1 c hc
    omega

theorem count_first_pos : 0 < count b.first (b :: bs) :=
  count_pos_of_mem List.mem_cons_self (covers_first (h.inside b List.mem_cons_self))

end

/-- Of two lists that cover the same, the first block of one ends no later than that of the other if they
start together. -/
theorem stop_le (hb : Spaced lo hi (b :: bs)) (hfirst : b.first = c.first)
    (heq : ∀ x, count x (b :: bs) = count x (c :: cs)) : c.stop ≤ b.stop := by
  by_cases hlt : b.stop < c.stop
  · have hne := (hb.inside b List.mem_cons_self).nonempty
    have hcov : c.covers b.stop = true := covers_iff.mpr ⟨by omega, hlt⟩
    have hpos := count_pos_of_mem (List.mem_cons_self (l := cs)) hcov
    rw [← heq, hb.count_stop] at hpos
    omega
  · omega

/-- Lists of spaced blocks that cover the same addresses are equal. -/
theorem eq_of_count (hb : Spaced lo hi bs) (hc : Spaced lo hi cs) (heq : ∀ x, count x bs = count x cs) : bs = cs := by
  induction bs generalizing cs with
  | nil =>
    cases cs with
    | nil => rfl
    | cons c rest =>
      have hpos := hc.count_first_pos
      rw [← heq] at hpos
      exact absurd hpos (Nat.lt_irrefl 0)
  | cons b rest ih =>
    cases cs with
    | nil =>
      have hpos := hb.count_first_pos
      rw [heq] at hpos
      exact absurd hpos (Nat.lt_irrefl 0)
    | cons c rest' =>
      have hle : b.first ≤ c.first := hb.first_le (by rw [heq]; exact hc.count_first_pos)
      have hge : c.first ≤ b.first := hc.first_le (by rw [← heq]; exact hb.count_first_pos)
      have hfirst : b.first = c.first := Int.le_antisymm hle hge
      have hstop : b.stop = c.stop :=
        Int.le_antisymm (hc.stop_le hfirst.symm fun x => (heq x).symm) (hb.stop_le hfirst heq)
      have hblock : b = c := eq_of_bounds hfirst hstop
      subst hblock
      rw [ih hb.tail hc.tail]
      intro x
      have hx := heq x
      rw [count_cons, count_cons x b rest'] at hx
      omega

end Spaced

/-- Lists of blocks in ascending order with the same members are equal. -/
theorem eq_of_mem_iff (hb : bs.Pairwise fun b c => b.first < c.first)
    (hc : cs.Pairwise fun b c => b.first < c.first) (h : ∀ b, b ∈ bs ↔ b ∈ cs) : bs = cs := by
  have nodup {ds : List Block} (hd : ds.Pairwise fun b c => b.first < c.first) : ds.Nodup := by
    apply hd.imp
    intro b c hlt heq
    subst heq
    exact Int.lt_irrefl _ hlt
  apply List.Perm.eq_of_pairwise _ hb hc ((List.perm_ext_iff_of_nodup (nodup hb) (nodup hc)).mpr h)
  intro b c _ _ hlt hgt
  exact absurd hlt (Int.lt_asymm hgt)

namespace Sound

/-- Two stores of one range with the same allocated blocks are equal. -/
theorem eq_of_allocated (h : s.Sound) (h' : t.Sound) (hbase : s.base = t.base) (hsize : s.size = t.size)
    (hmem : ∀ b, b ∈ s.allocated ↔ b ∈ t.allocated) : s = t := by
  have hlo : s.lo = t.lo := by rw [lo, lo, hbase]
  have hhi : s.hi = t.hi := by rw [hi, hi, hbase, hsize]
  have hallocated : s.allocated = t.allocated := eq_of_mem_iff h.ascending h'.ascending hmem
  have hspaced : Spaced s.lo s.hi t.free := by
    rw [hlo, hhi]
    exact h'.spaced
  have hfree : s.free = t.free := by
    apply h.spaced.eq_of_count hspaced
    intro x
    have hs := h.covered x
    have ht := h'.covered x
    rw [hlo, hhi, hallocated] at hs
    omega
  cases s
  cases t
  simp_all

theorem mem_allocated_of_alloc? (h : s.Sound) (ha : s.alloc? n = some (a, t)) (b : Block) :
    b ∈ t.allocated ↔ b = ⟨a, n⟩ ∨ b ∈ s.allocated := by
  obtain ⟨-, c, hc, -, rfl, rfl⟩ := exists_of_alloc? ha
  obtain ⟨before, after, hsplit, hplace, -, -⟩ :=
    place_eq (b := ⟨c.addr, n⟩) h.ascending fun d hd => (h.first_ne hc hd :)
  show b ∈ place ⟨c.addr, n⟩ s.allocated ↔ _
  rw [hplace, hsplit, List.mem_append, List.mem_cons, List.mem_append]
  exact or_left_comm

/-- A block that a request has added starts where no other does. -/
theorem addr_ne_of_alloc? (h : s.Sound) (ha : s.alloc? n = some (a, t)) (hb : b ∈ s.allocated) : b.addr ≠ a := by
  obtain ⟨-, c, hc, -, rfl, -⟩ := exists_of_alloc? ha
  intro heq
  exact h.first_ne hc hb (by rw [first, first, heq])

end Sound

theorem mem_allocated_of_free? (h : s.free? a = some t) (b : Block) :
    b ∈ t.allocated ↔ b ∈ s.allocated ∧ b.addr ≠ a := by
  obtain ⟨c, -, -, rfl⟩ := exists_of_free? h
  simp [List.mem_filter]

/-- Release blocks one after the other, each of which has to be there. -/
def freeAll? (s : FreeStore) : List Int64 → Option FreeStore
  | [] => some s
  | a :: rest => (s.free? a).bind fun t => t.freeAll? rest

namespace Sound

/-- A request that is taken back at once leaves the store as it was. -/
theorem free?_alloc? (h : s.Sound) (ha : s.alloc? n = some (a, t)) : t.free? a = some s := by
  have hmem := h.mem_allocated_of_alloc? ha
  have hsome : (t.free? a).isSome = true := free?_isSome_iff.mpr ⟨⟨a, n⟩, (hmem _).mpr (.inl rfl), rfl⟩
  obtain ⟨u, hu⟩ := Option.isSome_iff_exists.mp hsome
  rw [hu]
  have hbounds : u.base = s.base ∧ u.size = s.size := by
    obtain ⟨-, _, -, -, -, ht⟩ := exists_of_alloc? ha
    obtain ⟨_, -, -, hu'⟩ := exists_of_free? hu
    rw [hu', ht]
    exact ⟨rfl, rfl⟩
  have heq : u = s := by
    apply ((h.alloc? ha).free? hu).eq_of_allocated h hbounds.1 hbounds.2
    intro b
    rw [mem_allocated_of_free? hu, hmem]
    constructor
    · rintro ⟨rfl | hb, hne⟩
      · exact absurd rfl hne
      · exact hb
    · intro hb
      exact ⟨.inr hb, h.addr_ne_of_alloc? ha hb⟩
  rw [heq]

/-- Blocks that are all there can be released in any order. -/
theorem freeAll? (h : s.Sound) {as : List Int64} (hnodup : as.Nodup) (has : ∀ a ∈ as, ∃ b ∈ s.allocated, b.addr = a) :
    ∃ t, s.freeAll? as = some t ∧ t.Sound ∧ t.base = s.base ∧ t.size = s.size ∧
      ∀ b, b ∈ t.allocated ↔ b ∈ s.allocated ∧ b.addr ∉ as := by
  induction as generalizing s with
  | nil => exact ⟨s, rfl, h, rfl, rfl, fun b => by simp⟩
  | cons a rest ih =>
    have hrest := List.nodup_cons.mp hnodup
    have hsome := free?_isSome_iff.mpr (has a List.mem_cons_self)
    obtain ⟨u, hu⟩ := Option.isSome_iff_exists.mp hsome
    have hbounds : u.base = s.base ∧ u.size = s.size := by
      obtain ⟨_, -, -, rfl⟩ := exists_of_free? hu
      exact ⟨rfl, rfl⟩
    obtain ⟨t, ht, hsound, hbase, hsize, hmem⟩ := ih (h.free? hu) hrest.2 (by
      intro a' ha'
      obtain ⟨b, hb, rfl⟩ := has a' (List.mem_cons_of_mem a ha')
      refine ⟨b, (mem_allocated_of_free? hu b).mpr ⟨hb, ?_⟩, rfl⟩
      intro heq
      exact hrest.1 (heq ▸ ha'))
    refine ⟨t, ?_, hsound, hbase.trans hbounds.1, hsize.trans hbounds.2, ?_⟩
    · rw [FreeStore.freeAll?, hu]
      exact ht
    · intro b
      rw [hmem, mem_allocated_of_free? hu, List.mem_cons, not_or, and_assoc]

end Sound

/-- Histories that end with the same allocated blocks end with the same store. So a request that is met and
then taken back restores the store, blocks can be released in any order, and releasing all of them gives back
the store that was all free. -/
theorem after_canonical {base size : Int64} (hfits : base.toInt + size.toInt < 2 ^ 63) :
    (∀ history history', (∀ b, b ∈ ((ofRange base size).after history).allocated ↔
        b ∈ ((ofRange base size).after history').allocated) →
      (ofRange base size).after history = (ofRange base size).after history') ∧
    (∀ history n a t, ((ofRange base size).after history).alloc? n = some (a, t) →
      t.free? a = some ((ofRange base size).after history)) ∧ (∀ history as as', as.Nodup → as.Perm as' →
      (∀ a ∈ as, ∃ b ∈ ((ofRange base size).after history).allocated, b.addr = a) →
      ∃ t, ((ofRange base size).after history).freeAll? as = some t ∧
        ((ofRange base size).after history).freeAll? as' = some t) ∧
    ∀ history as, as.Perm (((ofRange base size).after history).allocated.map Block.addr) →
      ((ofRange base size).after history).freeAll? as = some (ofRange base size) := by
  have hstart := Sound.ofRange hfits
  refine ⟨?_, ?_, ?_, ?_⟩
  · intro history history' hmem
    have h := hstart.after history
    have h' := hstart.after history'
    exact h.1.eq_of_allocated h'.1 (h.2.1.trans h'.2.1.symm) (h.2.2.trans h'.2.2.symm) hmem
  · intro history n a t ha
    exact (hstart.after history).1.free?_alloc? ha
  · intro history as as' hnodup hperm has
    have h := (hstart.after history).1
    obtain ⟨t, ht, hsound, hbase, hext, hmem⟩ := h.freeAll? hnodup has
    obtain ⟨t', ht', hsound', hbase', hext', hmem'⟩ :=
      h.freeAll? (hperm.nodup_iff.mp hnodup) fun a ha => has a (hperm.mem_iff.mpr ha)
    have heq : t' = t := by
      apply hsound'.eq_of_allocated hsound (hbase'.trans hbase.symm) (hext'.trans hext.symm)
      intro b
      rw [hmem, hmem', hperm.mem_iff]
    exact ⟨t, ht, heq ▸ ht'⟩
  · intro history as hperm
    have h := hstart.after history
    generalize (ofRange base size).after history = s at h hperm
    have hnodup : (s.allocated.map Block.addr).Nodup := by
      apply List.pairwise_map.mpr
      apply h.1.ascending.imp
      intro b c hlt heq
      rw [first, first, heq] at hlt
      exact Int.lt_irrefl _ hlt
    obtain ⟨t, ht, hsound, hbase, hext, hmem⟩ := h.1.freeAll? (hperm.nodup_iff.mpr hnodup) (by
      intro a ha
      exact List.mem_map.mp (hperm.mem_iff.mp ha))
    have heq : t = ofRange base size := by
      apply hsound.eq_of_allocated hstart (hbase.trans h.2.1) (hext.trans h.2.2)
      intro b
      rw [hmem, hperm.mem_iff]
      constructor
      · rintro ⟨hb, hnot⟩
        exact absurd (List.mem_map_of_mem hb) hnot
      · intro hb
        cases hb
    rw [ht, heq]

/-- Two ways to the same allocated block, one of which splits and merges more than the other. -/
theorem after_canonical_merged : (100 : Int64).toInt + (10 : Int64).toInt < 2 ^ 63 ∧
      ((ofRange 100 10).after [.alloc 2, .alloc 3, .alloc 4, .free 105, .free 100]).allocated = [⟨102, 3⟩] ∧
      ((ofRange 100 10).after [.alloc 2, .alloc 3, .free 100]).allocated = [⟨102, 3⟩] ∧
      (ofRange 100 10).after [.alloc 2, .alloc 3, .alloc 4, .free 105, .free 100] =
        (ofRange 100 10).after [.alloc 2, .alloc 3, .free 100] :=
  ⟨by decide, by decide, by decide,
    (after_canonical (by decide)).1 _ _ fun b => iff_of_eq (congrArg (b ∈ ·) (by decide))⟩

/-- In a range that wraps around the end of the addresses, the rest of the range is put at its low address and not after
the block before it: with that block taken and given back there are two free blocks where there was one. -/
theorem after_wrapping_unmerged :
    let s := ofRange 9223372036854775803 10
    (s.after [.alloc 5, .free 9223372036854775803]).allocated = s.allocated ∧
      s.free = [⟨9223372036854775803, 10⟩] ∧ (s.after [.alloc 5, .free 9223372036854775803]).free =
        [⟨-9223372036854775808, 5⟩, ⟨9223372036854775803, 5⟩] := by
  decide

end MiniPascal.FreeStore
