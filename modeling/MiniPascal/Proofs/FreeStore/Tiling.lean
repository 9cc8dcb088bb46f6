import MiniPascal.FreeStore
import MiniPascal.Proofs.Word

/-!
# Tilings of the free store

The free and the allocated blocks of a store cover every address of its range once, and no two free blocks
touch. Requests and releases keep this: a request splits a free block in two, and a release moves a block
over and merges it with its neighbours. How often an address is covered is a number, so that what an operation
takes from one list and adds to the other cancels out.
-/

namespace MiniPascal

open Int64

namespace Block

def first (b : Block) : Int := b.addr.toInt

def stop (b : Block) : Int := b.addr.toInt + b.size.toInt

/-- Whether an address belongs to a block. -/
def covers (a : Int) (b : Block) : Bool := b.first ≤ a && a < b.stop

/-- A block with at least one address, between two bounds. -/
structure Inside (lo hi : Int) (b : Block) : Prop where
  lo_le : lo ≤ b.first
  nonempty : b.first < b.stop
  stop_le : b.stop ≤ hi

variable {b : Block}

theorem covers_iff {a : Int} : b.covers a = true ↔ b.first ≤ a ∧ a < b.stop := by
  simp [covers]

theorem covers_first {lo hi : Int} (h : b.Inside lo hi) : b.covers b.first = true :=
  covers_iff.mpr ⟨Int.le_refl _, h.nonempty⟩

/-- A block that starts in front of an address and does not have it ends in front of it. -/
theorem stop_le_of_not_covers {a : Int} (h : b.covers a = false) (hle : b.first ≤ a) : b.stop ≤ a := by
  by_cases hlt : a < b.stop
  · have htrue := covers_iff.mpr ⟨hle, hlt⟩
    rw [h] at htrue
    cases htrue
  · omega

theorem eq_of_bounds {c : Block} (hfirst : b.first = c.first) (hstop : b.stop = c.stop) : b = c := by
  cases b with
  | mk addr size =>
    cases c with
    | mk addr' size' =>
      simp only [first, stop] at hfirst hstop
      have haddr : addr = addr' := toInt_inj.mp hfirst
      have hsize : size = size' := toInt_inj.mp (by omega)
      rw [haddr, hsize]

/-- The number of blocks to which an address belongs. -/
def count (a : Int) (bs : List Block) : Nat := bs.countP (covers a)

theorem count_append (a : Int) (bs cs : List Block) : count a (bs ++ cs) = count a bs + count a cs :=
  List.countP_append

theorem count_cons (a : Int) (b : Block) (bs : List Block) : count a (b :: bs) = count a bs + count a [b] := by
  rw [show b :: bs = [b] ++ bs from rfl, count_append, Nat.add_comm]

theorem count_singleton (a : Int) (b : Block) : count a [b] = if b.covers a then 1 else 0 := by
  simp [count, List.countP_singleton]

theorem count_pos_of_mem {a : Int} {bs : List Block} (hb : b ∈ bs) (ha : b.covers a = true) : 0 < count a bs :=
  List.countP_pos_iff.mpr ⟨b, hb, ha⟩

theorem exists_of_count_pos {a : Int} {bs : List Block} (h : 0 < count a bs) : ∃ b ∈ bs, b.covers a = true :=
  List.countP_pos_iff.mp h

/-- Two blocks that together have the addresses of a third cover every address as often as it does. -/
theorem count_split {c d : Block} (hfirst : d.first = b.first) (hmiddle : b.stop = c.first) (hstop : d.stop = c.stop)
    (hb : b.first ≤ b.stop) (hc : c.first ≤ c.stop) (a : Int) : count a [d] = count a [b] + count a [c] := by
  simp only [count_singleton, covers_iff]
  by_cases hlt : a < b.stop
  · rw [if_neg (c := c.first ≤ a ∧ a < c.stop) (by omega)]
    by_cases hle : b.first ≤ a
    · rw [if_pos (by omega), if_pos (by omega)]
    · rw [if_neg (by omega), if_neg (by omega)]
  · rw [if_neg (c := b.first ≤ a ∧ a < b.stop) (by omega)]
    by_cases hlt' : a < c.stop
    · rw [if_pos (by omega), if_pos (by omega)]
    · rw [if_neg (by omega), if_neg (by omega)]

end Block

namespace FreeStore

open Block

/-- Bounds of a range whose addresses and sizes are words. -/
structure Addressable (lo hi : Int) : Prop where
  lower : -2 ^ 63 ≤ lo
  upper : hi < 2 ^ 63
  extent : hi - lo < 2 ^ 63

/-- Blocks between two bounds, in ascending order and with gaps between them. -/
structure Spaced (lo hi : Int) (bs : List Block) : Prop where
  inside : ∀ b ∈ bs, b.Inside lo hi
  gaps : bs.Pairwise fun b c => b.stop < c.first

section

variable {lo hi : Int} {n : Int64} {b c : Block} {bs cs : List Block}

theorem toInt_stop (hr : Addressable lo hi) (hb : b.Inside lo hi) : (b.addr + b.size).toInt = b.stop := by
  have hlo := hr.lower
  have hhi := hr.upper
  have hfirst := hb.lo_le
  have hne := hb.nonempty
  have hstop := hb.stop_le
  exact Word.add_eq rfl rfl (by unfold first stop at *; omega)

namespace Spaced

theorem singleton (hb : b.Inside lo hi) : Spaced lo hi [b] := ⟨by simpa using hb, List.pairwise_singleton _ _⟩

theorem of_append (h : Spaced lo hi (bs ++ cs)) :
    Spaced lo hi bs ∧ Spaced lo hi cs ∧ ∀ b ∈ bs, ∀ c ∈ cs, b.stop < c.first := by
  have hgaps := List.pairwise_append.mp h.gaps
  refine ⟨⟨?_, hgaps.1⟩, ⟨?_, hgaps.2.1⟩, hgaps.2.2⟩
  · intro b hb
    exact h.inside b (List.mem_append_left cs hb)
  · intro c hc
    exact h.inside c (List.mem_append_right bs hc)

theorem append (hb : Spaced lo hi bs) (hc : Spaced lo hi cs) (h : ∀ b ∈ bs, ∀ c ∈ cs, b.stop < c.first) :
    Spaced lo hi (bs ++ cs) := by
  refine ⟨?_, List.pairwise_append.mpr ⟨hb.gaps, hc.gaps, h⟩⟩
  intro b hmem
  rcases List.mem_append.mp hmem with hmem | hmem
  · exact hb.inside b hmem
  · exact hc.inside b hmem

/-- A spaced list is in ascending order. -/
theorem ascending (h : Spaced lo hi bs) : bs.Pairwise fun b c => b.first < c.first := by
  apply h.gaps.imp_of_mem
  intro b c hb _ hlt
  exact Int.lt_trans (h.inside b hb).nonempty hlt

theorem not_mem_of_append (h : Spaced lo hi (bs ++ b :: cs)) : b ∉ bs := by
  intro hmem
  have hlt := h.of_append.2.2 b hmem b List.mem_cons_self
  have hne := (h.inside b (by simp)).nonempty
  omega

end Spaced

/-! ## Requests -/

theorem bestFit_spec (h : bestFit n bs = some b) : b ∈ bs ∧ n ≤ b.size := by
  induction bs generalizing b with
  | nil => cases h
  | cons c rest ih =>
    rw [bestFit] at h
    cases hrest : bestFit n rest with
    | none =>
      rw [hrest] at h
      by_cases hle : n ≤ c.size
      · simp only [hle, if_true, Option.some.injEq] at h
        exact ⟨by simp [h], h ▸ hle⟩
      · simp [hle] at h
    | some d =>
      rw [hrest] at h
      have hd := ih hrest
      by_cases hle : n ≤ c.size && c.size ≤ d.size
      · simp only [hle, if_true, Option.some.injEq] at h
        exact ⟨by simp [h], h ▸ (by simpa using hle : n ≤ c.size ∧ _).1⟩
      · simp only [hle] at h
        cases h
        exact ⟨List.mem_cons_of_mem c hd.1, hd.2⟩

/-- What is left of a block when words are taken from its front. -/
def remainder (n : Int64) (b : Block) : List Block :=
  if b.size = n then [] else [⟨b.addr + n, b.size - n⟩]

theorem carve_eq (h : b ∉ bs) : carve n b (bs ++ b :: cs) = bs ++ (remainder n b ++ cs) := by
  induction bs with
  | nil =>
    simp only [List.nil_append, carve, if_true, remainder]
    by_cases hsize : b.size = n
    · rw [if_pos hsize, if_pos hsize]
      rfl
    · rw [if_neg hsize, if_neg hsize]
      rfl
  | cons c rest ih =>
    have hne : c ≠ b := fun heq => h (heq ▸ List.mem_cons_self)
    rw [List.cons_append, carve, if_neg hne, ih fun hmem => h (List.mem_cons_of_mem c hmem)]
    rfl

/-- The words taken from the front of a block, and what is left of it. -/
theorem split_spec (hr : Addressable lo hi) (hb : b.Inside lo hi) (hn : 0 < n.toInt) (hle : n ≤ b.size) :
    Inside lo hi ⟨b.addr, n⟩ ∧ (∀ c ∈ remainder n b, c.Inside lo hi ∧ b.first < c.first ∧ c.stop = b.stop) ∧
      ∀ a, count a [b] = count a [⟨b.addr, n⟩] + count a (remainder n b) := by
  have hlo := hr.lower
  have hhi := hr.upper
  have hfirst := hb.lo_le
  have hstop := hb.stop_le
  have hsize : n.toInt ≤ b.size.toInt := le_iff_toInt_le.mp hle
  unfold first at hfirst
  unfold stop at hstop
  unfold remainder
  refine ⟨⟨hfirst, ?_, ?_⟩, ?_⟩
  · show b.addr.toInt < b.addr.toInt + n.toInt
    omega
  · show b.addr.toInt + n.toInt ≤ hi
    omega
  · by_cases heq : b.size = n
    · rw [if_pos heq]
      subst heq
      exact ⟨by simp, fun a => rfl⟩
    · rw [if_neg heq]
      have hlt : n.toInt < b.size.toInt := by
        have hne : n.toInt ≠ b.size.toInt := fun h => heq (toInt_inj.mp h).symm
        omega
      have hext := hr.extent
      have haddr : (b.addr + n).toInt = b.addr.toInt + n.toInt :=
        Word.add_eq rfl rfl (by omega)
      have hrest : (b.size - n).toInt = b.size.toInt - n.toInt :=
        Word.sub_eq rfl rfl (by omega)
      constructor
      · intro c hc
        rw [List.mem_singleton] at hc
        subst hc
        refine ⟨⟨?_, ?_, ?_⟩, ?_, ?_⟩ <;> simp only [first, stop, haddr, hrest] <;> omega
      · intro a
        apply count_split (by rfl) <;> simp only [first, stop, haddr, hrest] <;> omega

/-- Taking words from a block of a spaced list leaves it spaced, and takes away what they cover. -/
theorem carve_spec (hr : Addressable lo hi) (h : Spaced lo hi bs) (hb : b ∈ bs) (hn : 0 < n.toInt) (hle : n ≤ b.size) :
    Spaced lo hi (carve n b bs) ∧ ∀ a, count a bs = count a [⟨b.addr, n⟩] + count a (carve n b bs) := by
  obtain ⟨before, after, rfl⟩ := List.append_of_mem hb
  rw [carve_eq h.not_mem_of_append]
  have hsplit := split_spec hr (h.inside b hb) hn hle
  have hparts := h.of_append
  have hafter := List.pairwise_cons.mp hparts.2.1.gaps
  have hrest : Spaced lo hi (remainder n b) := by
    refine ⟨fun c hc => (hsplit.2.1 c hc).1, ?_⟩
    unfold remainder
    by_cases heq : b.size = n
    · rw [if_pos heq]
      exact .nil
    · rw [if_neg heq]
      exact List.pairwise_singleton _ _
  constructor
  · apply hparts.1.append
    · apply hrest.append ⟨fun c hc => hparts.2.1.inside c (List.mem_cons_of_mem b hc), hafter.2⟩
      intro c hc d hd
      rw [(hsplit.2.1 c hc).2.2]
      exact hafter.1 d hd
    · intro c hc d hd
      rcases List.mem_append.mp hd with hd | hd
      · exact Int.lt_trans (hparts.2.2 c hc b List.mem_cons_self) (hsplit.2.1 d hd).2.1
      · exact hparts.2.2 c hc d (List.mem_cons_of_mem b hd)
  · intro a
    have ha := hsplit.2.2 a
    rw [count_append, count_cons, count_append, count_append]
    omega

/-- A block is entered between those below and those above it. -/
theorem place_eq (h : bs.Pairwise fun c d => c.first < d.first) (hb : ∀ c ∈ bs, c.first ≠ b.first) :
    ∃ before after, bs = before ++ after ∧ place b bs = before ++ b :: after ∧
      (∀ c ∈ before, c.first < b.first) ∧ ∀ c ∈ after, b.first < c.first := by
  induction bs with
  | nil => exact ⟨[], [], rfl, rfl, by simp, by simp⟩
  | cons c rest ih =>
    have hpair := List.pairwise_cons.mp h
    have hne : c.first ≠ b.first := hb c List.mem_cons_self
    rw [place]
    by_cases hlt : b.addr < c.addr
    · rw [if_pos hlt]
      have hlt' : b.first < c.first := lt_iff_toInt_lt.mp hlt
      refine ⟨[], c :: rest, rfl, rfl, by simp, ?_⟩
      intro d hd
      rcases List.mem_cons.mp hd with rfl | hd
      · exact hlt'
      · exact Int.lt_trans hlt' (hpair.1 d hd)
    · have hne' : b.addr ≠ c.addr := fun heq => hne (by rw [first, first, heq])
      rw [if_neg hlt, if_neg hne']
      have hgt : c.first < b.first := by
        have hle : ¬b.first < c.first := fun h => hlt (lt_iff_toInt_lt.mpr h)
        omega
      obtain ⟨before, after, rfl, heq, hbefore, hafter⟩ :=
        ih hpair.2 fun d hd => hb d (List.mem_cons_of_mem c hd)
      refine ⟨c :: before, after, rfl, by rw [heq]; rfl, ?_, hafter⟩
      intro d hd
      rcases List.mem_cons.mp hd with rfl | hd
      · exact hgt
      · exact hbefore d hd

/-! ## Releases -/

/-- Every block of two joined lists starts where one of theirs does. -/
theorem first_of_mem_join (h : b ∈ join bs cs) : ∃ c ∈ bs ++ cs, c.first = b.first := by
  fun_induction join bs cs with
  | case1 => exact ⟨b, h, rfl⟩
  | case2 c d after htouch =>
    rcases List.mem_cons.mp h with rfl | h
    · exact ⟨c, by simp, rfl⟩
    · exact ⟨b, by simp [h], rfl⟩
  | case3 => exact ⟨b, h, rfl⟩
  | case4 c before after _ ih =>
    rcases List.mem_cons.mp h with rfl | h
    · exact ⟨b, by simp, rfl⟩
    · obtain ⟨d, hd, heq⟩ := ih h
      exact ⟨d, List.mem_cons_of_mem c hd, heq⟩

/-- Joining lists of which the second lies above the first gives a spaced list that covers the same. -/
theorem join_spec (hr : Addressable lo hi) (hb : Spaced lo hi bs) (hc : Spaced lo hi cs)
    (h : ∀ b ∈ bs, ∀ c ∈ cs, b.stop ≤ c.first) :
    Spaced lo hi (join bs cs) ∧ ∀ a, count a (join bs cs) = count a bs + count a cs := by
  fun_induction join bs cs with
  | case1 => exact ⟨hc, fun a => (Nat.zero_add _).symm⟩
  | case2 b c after htouch =>
    have hbin := hb.inside b List.mem_cons_self
    have hcin := hc.inside c List.mem_cons_self
    have hmiddle : b.stop = c.first := by rw [← toInt_stop hr hbin, htouch, first]
    have hsize : (b.size + c.size).toInt = b.size.toInt + c.size.toInt := by
      have hext := hr.extent
      have hlo := hbin.lo_le
      have hne := hbin.nonempty
      have hne' := hcin.nonempty
      have hhi := hcin.stop_le
      unfold first stop at *
      exact Word.add_eq rfl rfl (by omega)
    have hstop : stop ⟨b.addr, b.size + c.size⟩ = c.stop := by
      unfold first stop at *
      simp only [hsize]
      omega
    have hcafter := List.pairwise_cons.mp hc.gaps
    refine ⟨⟨?_, List.pairwise_cons.mpr ⟨?_, hcafter.2⟩⟩, ?_⟩
    · intro d hd
      rcases List.mem_cons.mp hd with rfl | hd
      · refine ⟨hbin.lo_le, ?_, hstop ▸ hcin.stop_le⟩
        have hne := hbin.nonempty
        have hne' := hcin.nonempty
        rw [hstop]
        show b.first < c.stop
        omega
      · exact hc.inside d (List.mem_cons_of_mem c hd)
    · intro d hd
      rw [hstop]
      exact hcafter.1 d hd
    · intro a
      have hne := hbin.nonempty
      have hne' := hcin.nonempty
      have hsplit := count_split (b := b) (c := c) (d := ⟨b.addr, b.size + c.size⟩) rfl hmiddle hstop
        (by omega) (by omega) a
      rw [count_cons, count_cons a c]
      omega
  | case3 b c after htouch =>
    have hbin := hb.inside b List.mem_cons_self
    have hcafter := List.pairwise_cons.mp hc.gaps
    have hlt : b.stop < c.first := by
      have hle := h b List.mem_cons_self c List.mem_cons_self
      have hne : b.stop ≠ c.first := by
        intro heq
        apply htouch
        apply toInt_inj.mp
        rw [toInt_stop hr hbin, heq, first]
      omega
    have happend := hb.append hc (by
      intro d hd e he
      rw [List.mem_singleton] at hd
      subst hd
      rcases List.mem_cons.mp he with rfl | he
      · exact hlt
      · have hne := (hc.inside c List.mem_cons_self).nonempty
        have hgap := hcafter.1 e he
        omega)
    exact ⟨happend, fun a => count_append a [b] (c :: after)⟩
  | case4 b before after hmore ih =>
    have hpair := List.pairwise_cons.mp hb.gaps
    have hbefore : Spaced lo hi before := ⟨fun c hc => hb.inside c (List.mem_cons_of_mem b hc), hpair.2⟩
    have hrest := ih hbefore hc fun c hc d hd => h c (List.mem_cons_of_mem b hc) d hd
    constructor
    · refine ⟨?_, List.pairwise_cons.mpr ⟨?_, hrest.1.gaps⟩⟩
      · intro c hc
        rcases List.mem_cons.mp hc with rfl | hc
        · exact hb.inside c List.mem_cons_self
        · exact hrest.1.inside c hc
      · intro c hmem
        obtain ⟨d, hmem, heq⟩ := first_of_mem_join hmem
        rw [← heq]
        rcases List.mem_append.mp hmem with hd | hd
        · exact hpair.1 d hd
        · -- The second list lies above another block of the first, or it is empty.
          clear hmem
          cases before with
          | nil =>
            cases after with
            | nil => simp at hd
            | cons e rest => exact absurd rfl (hmore e rest rfl)
          | cons e rest =>
            have hgap := hpair.1 e List.mem_cons_self
            have hne := (hbefore.inside e List.mem_cons_self).nonempty
            have hle := h e (by simp) d hd
            omega
    · intro a
      rw [count_cons, hrest.2 a, count_cons a b before]
      omega

/-- Giving back a block that overlaps no free one leaves a spaced list, and adds what the block covers. -/
theorem giveBack_spec (hr : Addressable lo hi) (h : Spaced lo hi bs) (hb : b.Inside lo hi)
    (hfresh : ∀ c ∈ bs, c.covers b.first = false ∧ b.covers c.first = false) :
    Spaced lo hi (giveBack b bs) ∧ ∀ a, count a (giveBack b bs) = count a bs + count a [b] := by
  have hsorted : bs.Pairwise fun c d => c.addr < d.addr :=
    h.ascending.imp fun hlt => lt_iff_toInt_lt.mpr hlt
  have hparts := partWith_append b.addr bs.length bs
  have hbounds := partWith_bounds b.addr bs.length bs (Nat.le_refl _) hsorted
  unfold giveBack part
  generalize partWith b.addr bs.length bs = parts at hparts hbounds
  obtain ⟨before, after⟩ := parts
  subst hparts
  have hspaced := h.of_append
  have hbelow : ∀ c ∈ before, c.stop ≤ b.first := by
    intro c hc
    have hmem : c ∈ before ++ after := List.mem_append_left after hc
    exact stop_le_of_not_covers (hfresh c hmem).1 (le_iff_toInt_le.mp (hbounds.1 c hc))
  have habove : ∀ c ∈ after, b.stop ≤ c.first := by
    intro c hc
    have hmem : c ∈ before ++ after := List.mem_append_right before hc
    exact stop_le_of_not_covers (hfresh c hmem).2 (Int.le_of_lt (lt_iff_toInt_lt.mp (hbounds.2 c hc)))
  have hupper := join_spec hr (.singleton hb) hspaced.2.1 (by simpa using habove)
  have hwhole := join_spec hr hspaced.1 hupper.1 (by
    intro c hc d hd
    obtain ⟨e, he, heq⟩ := first_of_mem_join hd
    rw [← heq]
    rcases List.mem_cons.mp he with rfl | he
    · exact hbelow c hc
    · exact Int.le_of_lt (hspaced.2.2 c hc e he))
  refine ⟨hwhole.1, fun a => ?_⟩
  show count a (join before (join [b] after)) = _
  rw [hwhole.2 a, hupper.2 a, count_append]
  omega

end

end FreeStore

end MiniPascal
