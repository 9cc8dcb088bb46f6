import MiniPascal.Proofs.FreeStore.Tiling

/-!
# Histories of the free store

A store that starts out all free, whatever is then requested and released: its blocks tile the range, and
the free ones are in ascending order and never touch.
-/

namespace MiniPascal.FreeStore

open Block

variable {s t : FreeStore} {n a : Int64} {b c : Block}

/-- The first address of the range. -/
def lo (s : FreeStore) : Int := s.base.toInt

/-- The address after the range. -/
def hi (s : FreeStore) : Int := s.base.toInt + s.size.toInt

/-- The blocks of a store tile its range: every address of it belongs to one of them, none reaches outside,
and the free ones are in ascending order without touching. -/
structure Tiled (s : FreeStore) : Prop where
  ascending : s.free.Pairwise fun b c => b.addr < c.addr
  nonempty : ∀ b ∈ s.free ++ s.allocated, 0 < b.size
  covered : ∀ x, s.lo ≤ x → x < s.hi → count x (s.free ++ s.allocated) = 1
  within : ∀ b ∈ s.free ++ s.allocated, s.lo ≤ b.first ∧ b.stop ≤ s.hi
  apart : ∀ b ∈ s.free, ∀ c ∈ s.free, b.stop ≠ c.first

/-- What requests and releases keep. The allocated blocks are in order too, which makes a store a function of
its blocks. -/
structure Sound (s : FreeStore) : Prop where
  addressable : Addressable s.lo s.hi
  spaced : Spaced s.lo s.hi s.free
  inside : ∀ b ∈ s.allocated, b.Inside s.lo s.hi
  ascending : s.allocated.Pairwise fun b c => b.first < c.first
  covered : ∀ x, count x s.free + count x s.allocated = if s.lo ≤ x ∧ x < s.hi then 1 else 0

namespace Sound

theorem not_both (h : s.Sound) (hb : b ∈ s.free) (hc : c ∈ s.allocated) {x : Int} (hbx : b.covers x = true) :
    c.covers x = false := by
  cases hcx : c.covers x with
  | false => rfl
  | true =>
    have hfree := count_pos_of_mem hb hbx
    have hallocated := count_pos_of_mem hc hcx
    have hle : count x s.free + count x s.allocated ≤ 1 := by
      rw [h.covered x]
      split <;> omega
    omega

theorem tiled (h : s.Sound) : s.Tiled := by
  have hinside : ∀ b ∈ s.free ++ s.allocated, b.Inside s.lo s.hi := by
    intro b hb
    rcases List.mem_append.mp hb with hb | hb
    · exact h.spaced.inside b hb
    · exact h.inside b hb
  constructor
  · exact h.spaced.ascending.imp fun hlt => Int64.lt_iff_toInt_lt.mpr hlt
  · intro b hb
    have hne := (hinside b hb).nonempty
    unfold first stop at hne
    exact Int64.lt_iff_toInt_lt.mpr (by rw [Word.toInt_zero]; omega)
  · intro x hlo hhi
    rw [count_append, h.covered x, if_pos ⟨hlo, hhi⟩]
  · intro b hb
    exact ⟨(hinside b hb).lo_le, (hinside b hb).stop_le⟩
  · intro b hb c hc heq
    have hblock := h.spaced.inside b hb
    have hcblock := h.spaced.inside c hc
    obtain ⟨before, after, hsplit⟩ := List.append_of_mem hb
    have hparts := (hsplit ▸ h.spaced : Spaced s.lo s.hi (before ++ b :: after)).of_append
    have hne := hblock.nonempty
    rw [hsplit] at hc
    rcases List.mem_append.mp hc with hc | hc
    · have hgap := hparts.2.2 c hc b List.mem_cons_self
      have hne' := hcblock.nonempty
      omega
    · rcases List.mem_cons.mp hc with rfl | hc
      · omega
      · have hgap := (List.pairwise_cons.mp hparts.2.1.gaps).1 c hc
        omega

private theorem ofNonempty {base size : Int64} (hsize : 0 < size) (hfits : base.toInt + size.toInt < 2 ^ 63) :
    (ofRange base size).Sound := by
  have hpos : 0 < size.toInt := Int64.lt_iff_toInt_lt.mp hsize
  have hlower := base.le_toInt
  have hupper := size.toInt_lt
  have hblock : Inside base.toInt (base.toInt + size.toInt) ⟨base, size⟩ := by
    constructor
    · exact Int.le_refl _
    · show base.toInt < base.toInt + size.toInt
      omega
    · exact Int.le_refl _
  have hfree : (FreeStore.ofRange base size).free = [⟨base, size⟩] := if_pos hsize
  constructor
  · exact ⟨hlower, hfits, by show base.toInt + size.toInt - base.toInt < _; omega⟩
  · rw [hfree]
    exact .singleton hblock
  · intro b hb
    cases hb
  · exact .nil
  · intro x
    rw [hfree, count_singleton]
    simp only [covers_iff]
    rfl

/-- A store of a range without words has no blocks. -/
private theorem ofEmpty {base size : Int64} (hsize : ¬0 < size) : (FreeStore.ofRange base size).Sound := by
  have hnonpos : size.toInt ≤ 0 := Int64.le_iff_toInt_le.mp (Int64.not_lt.mp hsize)
  have hlower := base.le_toInt
  have hupper := base.toInt_lt
  have hfree : (FreeStore.ofRange base size).free = [] := if_neg hsize
  refine ⟨⟨hlower, ?_, ?_⟩, ?_, fun b (hb : b ∈ []) => (List.not_mem_nil hb).elim, List.Pairwise.nil, fun x => ?_⟩
  · show base.toInt + size.toInt < _
    omega
  · show base.toInt + size.toInt - base.toInt < _
    omega
  · rw [hfree]
    exact ⟨fun b hb => (List.not_mem_nil hb).elim, .nil⟩
  · rw [hfree, if_neg]
    · rfl
    · show ¬(base.toInt ≤ x ∧ x < base.toInt + size.toInt)
      omega

/-- A store that is all free. -/
theorem ofRange {base size : Int64} (hfits : base.toInt + size.toInt < 2 ^ 63) : (ofRange base size).Sound := by
  by_cases hsize : 0 < size
  · exact ofNonempty hsize hfits
  · exact ofEmpty hsize

end Sound

/-! ## One request or release -/

theorem bestFit_of_alloc? (h : s.alloc? n = some (a, t)) : 0 < n ∧ ∃ b, bestFit n s.free = some b ∧ b.addr = a ∧
      t = { s with free := carve n b s.free, allocated := place ⟨b.addr, n⟩ s.allocated } := by
  unfold alloc? at h
  split at h
  · cases h
  · next hn =>
    split at h
    · cases h
    · next b hfit =>
      cases h
      exact ⟨Int64.not_le.mp hn, b, hfit, rfl, rfl⟩

theorem exists_of_alloc? (h : s.alloc? n = some (a, t)) : 0 < n ∧ ∃ b ∈ s.free, n ≤ b.size ∧ b.addr = a ∧
      t = { s with free := carve n b s.free, allocated := place ⟨b.addr, n⟩ s.allocated } := by
  obtain ⟨hn, b, hfit, ha, ht⟩ := bestFit_of_alloc? h
  obtain ⟨hb, hle⟩ := bestFit_spec hfit
  exact ⟨hn, b, hb, hle, ha, ht⟩

theorem exists_of_free? (h : s.free? a = some t) : ∃ b ∈ s.allocated, b.addr = a ∧
      t = { s with free := giveBack b s.free, allocated := s.allocated.filter fun c => c.addr ≠ a } := by
  unfold free? blockAt? at h
  cases hfind : s.allocated.find? fun b => b.addr = a with
  | none =>
    rw [hfind] at h
    cases h
  | some b =>
    rw [hfind] at h
    cases h
    exact ⟨b, List.mem_of_find?_eq_some hfind, by simpa using List.find?_some hfind, rfl⟩

/-- A release is met exactly at the addresses of the allocated blocks. -/
theorem free?_isSome_iff : (s.free? a).isSome = true ↔ ∃ b ∈ s.allocated, b.addr = a := by
  constructor
  · intro h
    obtain ⟨t, ht⟩ := Option.isSome_iff_exists.mp h
    obtain ⟨b, hb, hba, -⟩ := exists_of_free? ht
    exact ⟨b, hb, hba⟩
  · intro ⟨b, hb, hba⟩
    unfold free? blockAt?
    cases hfind : s.allocated.find? fun b => b.addr = a with
    | none => exact absurd hba (by simpa using List.find?_eq_none.mp hfind b hb)
    | some c => rfl

theorem filter_addr_eq {bs cs : List Block} (h : (bs ++ b :: cs).Pairwise fun c d => c.first < d.first) :
    ((bs ++ b :: cs).filter fun c => c.addr ≠ b.addr) = bs ++ cs := by
  have hparts := List.pairwise_append.mp h
  have hafter := List.pairwise_cons.mp hparts.2.1
  have ne_of_first {c : Block} (hne : c.first ≠ b.first) : c.addr ≠ b.addr :=
    fun heq => hne (by rw [first, first, heq])
  rw [List.filter_append, List.filter_cons_of_neg (by simp), List.filter_eq_self.mpr, List.filter_eq_self.mpr]
  · intro c hc
    exact decide_eq_true (ne_of_first (Int.ne_of_gt (hafter.1 c hc)))
  · intro c hc
    exact decide_eq_true (ne_of_first (Int.ne_of_lt (hparts.2.2 c hc b List.mem_cons_self)))

namespace Sound

/-- The block at the front of a free one starts where no allocated block does. -/
theorem first_ne (h : s.Sound) (hb : b ∈ s.free) (hc : c ∈ s.allocated) : c.first ≠ b.first := by
  intro heq
  have hcov := h.not_both hb hc (covers_first (h.spaced.inside b hb))
  rw [← heq, covers_first (h.inside c hc)] at hcov
  cases hcov

theorem alloc? (h : s.Sound) (ha : s.alloc? n = some (a, t)) : t.Sound := by
  obtain ⟨hn, b, hb, hle, -, rfl⟩ := exists_of_alloc? ha
  have hpos : 0 < n.toInt := Int64.lt_iff_toInt_lt.mp hn
  have hcarve := carve_spec h.addressable h.spaced hb hpos hle
  have hblock := (split_spec h.addressable (h.spaced.inside b hb) hpos hle).1
  obtain ⟨before, after, hsplit, hplace, hbelow, habove⟩ :=
    place_eq (b := ⟨b.addr, n⟩) h.ascending fun c hc => (h.first_ne hb hc :)
  have hasc := List.pairwise_append.mp (hsplit ▸ h.ascending)
  refine ⟨h.addressable, hcarve.1, ?_, ?_, ?_⟩
  · intro c hc
    simp only [hplace, List.mem_append, List.mem_cons] at hc
    rcases hc with hc | rfl | hc
    · exact h.inside c (by rw [hsplit]; exact List.mem_append_left after hc)
    · exact hblock
    · exact h.inside c (by rw [hsplit]; exact List.mem_append_right before hc)
  · show (place ⟨b.addr, n⟩ s.allocated).Pairwise _
    rw [hplace]
    apply List.pairwise_append.mpr
    refine ⟨hasc.1, List.pairwise_cons.mpr ⟨habove, hasc.2.1⟩, ?_⟩
    intro c hc d hd
    rcases List.mem_cons.mp hd with rfl | hd
    · exact hbelow c hc
    · exact hasc.2.2 c hc d hd
  · intro x
    have hcovered := h.covered x
    have hcount := hcarve.2 x
    show count x (carve n b s.free) + count x (place ⟨b.addr, n⟩ s.allocated) =
      if s.lo ≤ x ∧ x < s.hi then 1 else 0
    rw [← hcovered, hplace, hsplit, count_append, count_cons, count_append]
    omega

theorem free? (h : s.Sound) (ha : s.free? a = some t) : t.Sound := by
  obtain ⟨b, hb, rfl, rfl⟩ := exists_of_free? ha
  have hblock := h.inside b hb
  have hback := giveBack_spec h.addressable h.spaced hblock (by
    intro c hc
    constructor
    · cases hcov : c.covers b.first with
      | false => rfl
      | true =>
        have hfalse := h.not_both hc hb hcov
        rw [covers_first hblock] at hfalse
        cases hfalse
    · exact h.not_both hc hb (covers_first (h.spaced.inside c hc)))
  obtain ⟨before, after, hsplit⟩ := List.append_of_mem hb
  have hfilter : (s.allocated.filter fun c => c.addr ≠ b.addr) = before ++ after := by
    rw [hsplit]
    exact filter_addr_eq (hsplit ▸ h.ascending)
  refine ⟨h.addressable, hback.1, ?_, ?_, ?_⟩
  · intro c hc
    exact h.inside c (List.mem_filter.mp hc).1
  · exact h.ascending.filter _
  · intro x
    have hcovered := h.covered x
    show count x (giveBack b s.free) + count x (s.allocated.filter fun c => c.addr ≠ b.addr) =
      if s.lo ≤ x ∧ x < s.hi then 1 else 0
    rw [← hcovered, hback.2 x, hfilter, hsplit, count_append, count_append, count_cons x b after]
    omega

end Sound

/-! ## Histories -/

/-- What can be asked of a store. -/
inductive Request where
  | alloc (n : Int64)
  | free (a : Int64)
deriving DecidableEq, Repr

def answer (s : FreeStore) : Request → Bool × FreeStore
  | .alloc n =>
    match s.alloc? n with
    | some (_, t) => (true, t)
    | none => (false, s)
  | .free a =>
    match s.free? a with
    | some t => (true, t)
    | none => (false, s)

def after (s : FreeStore) (history : List Request) : FreeStore :=
  history.foldl (fun s r => (s.answer r).2) s

/-- A request is met by the operation for it, or it changes nothing. -/
theorem answer_cases (s : FreeStore) (r : Request) : s.answer r = (false, s) ∨
      ∃ t, s.answer r = (true, t) ∧ ((∃ n a, s.alloc? n = some (a, t)) ∨ ∃ a, s.free? a = some t) := by
  cases r with
  | alloc n =>
    rw [answer]
    cases ha : s.alloc? n with
    | none => exact .inl rfl
    | some result => exact .inr ⟨result.2, rfl, .inl ⟨n, result.1, ha⟩⟩
  | free a =>
    rw [answer]
    cases ha : s.free? a with
    | none => exact .inl rfl
    | some t => exact .inr ⟨t, rfl, .inr ⟨a, ha⟩⟩

theorem answer_free (s : FreeStore) (a : Int64) : (s.answer (.free a)).1 = (s.free? a).isSome := by
  rw [answer]
  cases s.free? a <;> rfl

namespace Sound

/-- A request leaves the range and the order of a store. -/
theorem answer (h : s.Sound) (r : Request) :
    (s.answer r).2.Sound ∧ (s.answer r).2.base = s.base ∧ (s.answer r).2.size = s.size := by
  rcases s.answer_cases r with hr | ⟨t, hr, ⟨n, a, ha⟩ | ⟨a, ha⟩⟩
  · rw [hr]
    exact ⟨h, rfl, rfl⟩
  · rw [hr]
    obtain ⟨-, b, -, -, -, ht⟩ := exists_of_alloc? ha
    exact ⟨h.alloc? ha, by rw [ht], by rw [ht]⟩
  · rw [hr]
    obtain ⟨b, -, -, ht⟩ := exists_of_free? ha
    exact ⟨h.free? ha, by rw [ht], by rw [ht]⟩

theorem after (h : s.Sound) (history : List Request) :
    (s.after history).Sound ∧ (s.after history).base = s.base ∧ (s.after history).size = s.size := by
  induction history generalizing s with
  | nil => exact ⟨h, rfl, rfl⟩
  | cons r rest ih =>
    have hr := h.answer r
    have hrest := ih hr.1
    exact ⟨hrest.1, hrest.2.1.trans hr.2.1, hrest.2.2.trans hr.2.2⟩

end Sound

/-- After any history on a range that can be addressed, the blocks tile the range, a release is met exactly at
the start of an allocated block, and a request or a release that is not met changes nothing. -/
theorem after_tiled {base size : Int64} (hsize : 0 < size) (hfits : base.toInt + size.toInt < 2 ^ 63)
    (history : List Request) :
    let s := (ofRange base size).after history
    s.lo = base.toInt ∧ s.hi = base.toInt + size.toInt ∧ s.Tiled ∧
      (∀ a, (s.answer (.free a)).1 = true ↔ ∃ b ∈ s.allocated, b.addr = a) ∧
      ∀ r, (s.answer r).1 = false → (s.answer r).2 = s := by
  intro s
  have hafter := (Sound.ofNonempty hsize hfits).after history
  refine ⟨?_, ?_, hafter.1.tiled, ?_, ?_⟩
  · rw [lo, hafter.2.1]
    rfl
  · rw [hi, hafter.2.1, hafter.2.2]
    rfl
  · intro a
    rw [answer_free, free?_isSome_iff]
  · intro r hr
    rcases s.answer_cases r with heq | ⟨t, heq, -⟩
    · rw [heq]
    · rw [heq] at hr
      cases hr

/-- Three requests, a release in the middle, a request that is not met, and a release next to a free block. -/
theorem after_tiled_merged : (0 : Int64) < 10 ∧ (100 : Int64).toInt + (10 : Int64).toInt < 2 ^ 63 ∧
      let s := (ofRange 100 10).after [.alloc 2, .alloc 3, .alloc 4, .free 102, .alloc 9, .free 100]
      s.free = [⟨100, 5⟩, ⟨109, 1⟩] ∧ s.allocated = [⟨105, 4⟩] ∧ s.lo = 100 ∧ s.hi = 110 ∧ s.Tiled ∧
        (∀ a, (s.answer (.free a)).1 = true ↔ ∃ b ∈ s.allocated, b.addr = a) ∧
        ∀ r, (s.answer r).1 = false → (s.answer r).2 = s :=
  ⟨by decide, by decide, by decide, by decide, after_tiled (by decide) (by decide) _⟩

end MiniPascal.FreeStore
