import MiniPascal.Proofs.FreeStore.History

/-!
# Requests are met by the best fit

A request is met if some free block is large enough. It takes its words from the front of the smallest such block, the
lowest of several of one size, and leaves every other block as it was. The search keeps the first of several blocks of
one size, and the free blocks are in ascending order unless the range wraps around the end of the addresses.
-/

namespace MiniPascal.FreeStore

open List

open Block

variable {s t : FreeStore} {n a : Int64} {b : Block} {bs : List Block}

/-- A block is the smallest of those that are large enough, and the lowest of these. -/
structure IsBestFit (n : Int64) (bs : List Block) (b : Block) : Prop where
  mem : b ∈ bs
  enough : n ≤ b.size
  least : ∀ c ∈ bs, n ≤ c.size → b.size ≤ c.size
  lowest : ∀ c ∈ bs, c.size = b.size → b.addr ≤ c.addr

theorem bestFit_isSome_iff : (bestFit n bs).isSome = true ↔ ∃ b ∈ bs, n ≤ b.size := by
  induction bs with
  | nil => simp [bestFit]
  | cons c rest ih =>
    rw [bestFit]
    simp only [mem_cons, exists_eq_or_imp, ← ih]
    cases bestFit n rest with
    | none => by_cases hle : n ≤ c.size <;> simp [hle]
    | some d => by_cases hle : n ≤ c.size && c.size ≤ d.size <;> simp [hle]

/-- Among blocks in ascending order, the first of the smallest ones is the lowest. -/
theorem isBestFit_of_bestFit (hasc : bs.Pairwise fun b c => b.addr < c.addr) (h : bestFit n bs = some b) :
    IsBestFit n bs b := by
  induction bs generalizing b with
  | nil => cases h
  | cons c rest ih =>
    obtain ⟨hlow, hasc⟩ := pairwise_cons.mp hasc
    have hrest : (bestFit n rest).isSome = true ↔ _ := bestFit_isSome_iff
    rw [bestFit] at h
    split at h
    · next hnone =>
      rw [hnone] at hrest
      obtain ⟨hle, rfl⟩ : n ≤ c.size ∧ c = b := by simpa using h
      refine ⟨mem_cons_self, hle, forall_mem_cons.mpr ⟨fun _ => Int64.le_refl _, fun d hd hd' => ?_⟩,
        forall_mem_cons.mpr ⟨fun _ => Int64.le_refl _, fun d hd _ => Int64.le_of_lt (hlow d hd)⟩⟩
      exact absurd (hrest.mpr ⟨d, hd, hd'⟩) Bool.false_ne_true
    · next d hd =>
      have hbest := ih hasc hd
      split at h
      · next hle =>
        obtain ⟨hle, hsize⟩ : n ≤ c.size ∧ c.size ≤ d.size := by simpa using hle
        cases h
        exact ⟨mem_cons_self, hle,
          forall_mem_cons.mpr ⟨fun _ => Int64.le_refl _, fun e he hn => Int64.le_trans hsize (hbest.least e he hn)⟩,
          forall_mem_cons.mpr ⟨fun _ => Int64.le_refl _, fun e he _ => Int64.le_of_lt (hlow e he)⟩⟩
      · next hle =>
        cases h
        -- The first block is too small, or larger than the best of the others.
        have hlarger (hn : n ≤ c.size) : b.size < c.size := by simpa [hn] using hle
        refine ⟨mem_cons_of_mem c hbest.mem, hbest.enough,
          forall_mem_cons.mpr ⟨fun hn => Int64.le_of_lt (hlarger hn), hbest.least⟩,
          forall_mem_cons.mpr ⟨fun heq => ?_, hbest.lowest⟩⟩
        have hlt := hlarger (heq ▸ hbest.enough)
        rw [heq] at hlt
        exact (Int64.lt_irrefl hlt).elim

/-- A request is met if and only if it is for some words and a free block has as many. -/
theorem alloc?_isSome_iff : (s.alloc? n).isSome = true ↔ 0 < n ∧ ∃ b ∈ s.free, n ≤ b.size := by
  rw [← bestFit_isSome_iff, ← Int64.not_le, alloc?]
  by_cases hn : n ≤ 0
  · simp [hn]
  · cases bestFit n s.free <;> simp [hn]

/-- What a request does to a store: the front of the best fit moves to the allocated blocks, and nothing else changes.
What it hands out was free before. -/
structure Takes (n a : Int64) (s t : FreeStore) (b : Block) : Prop where
  best : IsBestFit n s.free b
  addr : b.addr = a
  free : ∃ before after, s.free = before ++ b :: after ∧ t.free = before ++ (remainder n b ++ after)
  allocated : ∃ before after, s.allocated = before ++ after ∧ t.allocated = before ++ ⟨a, n⟩ :: after
  unused : ∀ x, covers x ⟨a, n⟩ = true → b.covers x = true ∧ ∀ c ∈ s.allocated, c.covers x = false

theorem Sound.takes (h : s.Sound) (ha : s.alloc? n = some (a, t)) : ∃ b, Takes n a s t b := by
  obtain ⟨-, b, hfit, rfl, rfl⟩ := bestFit_of_alloc? ha
  have hbest := isBestFit_of_bestFit h.tiled.ascending hfit
  obtain ⟨before, after, hsplit⟩ := append_of_mem hbest.mem
  have hnot : b ∉ before := (hsplit ▸ h.spaced).not_mem_of_append
  obtain ⟨lower, upper, hallocated, hplace, -⟩ :=
    place_eq (b := ⟨b.addr, n⟩) h.ascending fun c hc => (h.first_ne hbest.mem hc :)
  refine ⟨b, hbest, rfl, ⟨before, after, hsplit, ?_⟩, ⟨lower, upper, hallocated, hplace⟩, fun x hx => ?_⟩
  · show carve n b s.free = _
    rw [hsplit, carve_eq hnot]
  · have hle := Int64.le_iff_toInt_le.mp hbest.enough
    have hbx : b.covers x = true := by
      rw [covers_iff] at hx ⊢
      unfold first stop at *
      exact ⟨hx.1, Int.lt_of_lt_of_le hx.2 (Int.add_le_add_left hle _)⟩
    exact ⟨hbx, fun c hc => h.not_both hbest.mem hc hbx⟩

/-- After any history on a range that can be addressed, a request is met exactly if a free block is large enough, and
then it is met by the best fit. -/
theorem after_best_fit {base size : Int64} (hfits : base.toInt + size.toInt < 2 ^ 63) (history : List Request)
    (n : Int64) :
    let s := (ofRange base size).after history
    ((s.alloc? n).isSome = true ↔ 0 < n ∧ ∃ b ∈ s.free, n ≤ b.size) ∧
      ∀ a t, s.alloc? n = some (a, t) → ∃ b, Takes n a s t b := by
  intro s
  exact ⟨alloc?_isSome_iff, fun a t ha => ((Sound.ofRange hfits).after history).1.takes ha⟩

/-- Of two free blocks of two words, the lower one is taken, and not the larger one at the end. -/
theorem after_best_fit_tie : (100 : Int64).toInt + (12 : Int64).toInt < 2 ^ 63 ∧
    let s := (ofRange 100 12).after [.alloc 2, .alloc 1, .alloc 2, .alloc 1, .free 103, .free 100]
    s.free = [⟨100, 2⟩, ⟨103, 2⟩, ⟨106, 6⟩] ∧
      ∃ t, s.alloc? 1 = some (100, t) ∧ t.free = [⟨101, 1⟩, ⟨103, 2⟩, ⟨106, 6⟩] ∧ ∃ b, Takes 1 100 s t b :=
  ⟨by decide, by decide, _, rfl, by decide, (after_best_fit (by decide) _ 1).2 100 _ rfl⟩

/-- In a range that wraps around the end of the addresses, the higher one of two free blocks of one word is taken. -/
theorem after_wrapping_misfit :
    let s := (ofRange 9223372036854775803 10).after
      [.alloc 1, .alloc 1, .alloc 5, .free 9223372036854775805, .alloc 4, .alloc 2]
    s.free = [⟨-9223372036854775804, 1⟩, ⟨-9223372036854775807, 1⟩] ∧
      (s.alloc? 1).map Prod.fst = some (-9223372036854775804) := by
  decide

end MiniPascal.FreeStore
