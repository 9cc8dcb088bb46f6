import Mathlib.Data.Set.Card
import MiniPascal.Proofs.Scope.Table

/-!
# Histories of a table of names

Whatever is requested of a table that starts out empty, it holds the declarations that were accepted and not dropped
since. If declarations are made and dropped at the innermost level only, the table does what a stack of blocks does, each
with a map of its names: a name is looked up in one block after the other, from the innermost one outwards.
-/

namespace MiniPascal.Scope

open List

/-- What may be requested of a table of names. -/
inductive Request (α : Type) where
  | insert (e : Entry α)
  | lookup (name : Text)
  | purge (level : Int)

variable {α : Type} {s : Scope α} {e : Entry α} {rs : List (Request α)}

/-- The table after a request. A declaration that is refused changes nothing, and neither does a search. -/
def after (s : Scope α) : Request α → Scope α
  | .insert e =>
    match s.insert e with
    | .ok t => t
    | .error _ => s
  | .lookup _ => s
  | .purge level => (s.close level).2

def history (rs : List (Request α)) : Scope α := rs.foldl after empty

/-- A declaration was accepted, and no request after it has dropped its level. -/
def Lives (rs : List (Request α)) (e : Entry α) : Prop :=
  ∃ before later, rs = before ++ .insert e :: later ∧ (∃ t, (history before).insert e = .ok t) ∧ .purge e.level ∉ later

theorem history_concat (rs : List (Request α)) (r : Request α) : history (rs ++ [r]) = (history rs).after r :=
  foldl_concat ..

/-- A declaration is accepted exactly if its name is new at its level. -/
theorem insert_eq (s : Scope α) (e : Entry α) : s.insert e =
    if ∃ x ∈ s.entries, x.name = e.name ∧ x.level = e.level then .error (.duplicate e.name)
    else .ok ⟨s.entries ++ [e]⟩ := by
  unfold insert
  by_cases h : ∃ x ∈ s.entries, x.name = e.name ∧ x.level = e.level
  · rw [if_pos (declares_iff.mpr h), if_pos h]
  · rw [if_neg (mt declares_iff.mp h), if_neg h]

/-! ## One request -/

theorem mem_after (r : Request α) : e ∈ (s.after r).entries ↔
    e ∈ s.entries ∧ r ≠ .purge e.level ∨ r = .insert e ∧ ∃ t, s.insert e = .ok t := by
  cases r with
  | lookup name => simp [after]
  | purge level => simp [after, close, mem_purge, eq_comm]
  | insert x =>
    rw [after]
    split
    · next t ht =>
      rw [insert_eq] at ht
      split at ht
      · cases ht
      · next hnew =>
        obtain rfl := Except.ok.inj ht
        simp only [mem_append, mem_singleton, ne_eq, reduceCtorEq, not_false_eq_true, and_true, Request.insert.injEq]
        refine or_congr_right ⟨?_, fun h => h.1.symm⟩
        rintro rfl
        exact ⟨rfl, _, (insert_eq s e).trans (if_neg hnew)⟩
    · next hx =>
      refine ⟨fun h => .inl ⟨h, nofun⟩, ?_⟩
      rintro (⟨h, -⟩ | ⟨heq, t, ht⟩)
      · exact h
      · cases heq
        exact nomatch hx.symm.trans ht

theorem Distinct.after (h : s.Distinct) (r : Request α) : (s.after r).Distinct := by
  cases r with
  | lookup name => exact h
  | purge level => exact h.purge level
  | insert e =>
    rw [Scope.after]
    split
    · next ht => exact h.insert ht
    · exact h

theorem lives_concat (rs : List (Request α)) (r : Request α) : Lives (rs ++ [r]) e ↔
    Lives rs e ∧ r ≠ .purge e.level ∨ r = .insert e ∧ ∃ t, (history rs).insert e = .ok t := by
  constructor
  · rintro ⟨before, later, heq, hok, hkept⟩
    obtain rfl | ⟨later, r', rfl⟩ := eq_nil_or_concat' later
    · obtain ⟨rfl, hr⟩ := append_inj' heq rfl
      exact .inr ⟨by simpa using hr, hok⟩
    · rw [← cons_append, ← append_assoc] at heq
      obtain ⟨rfl, hr⟩ := append_inj' heq rfl
      obtain rfl : r = r' := by simpa using hr
      simp only [mem_append, mem_singleton, not_or] at hkept
      exact .inl ⟨⟨before, later, rfl, hok, hkept.1⟩, Ne.symm hkept.2⟩
  · rintro (⟨⟨before, later, rfl, hok, hkept⟩, hr⟩ | ⟨rfl, hok⟩)
    · exact ⟨before, later ++ [r], by simp, hok, by simpa using ⟨hkept, Ne.symm hr⟩⟩
    · exact ⟨rs, [], rfl, hok, not_mem_nil⟩

/-! ## Any number of requests -/

theorem distinct_history (rs : List (Request α)) : (history rs).Distinct := by
  induction rs using List.reverseRecOn with
  | nil => exact nodup_nil
  | append_singleton rs r ih => exact history_concat rs r ▸ ih.after r

/-- The table holds the declarations that were accepted and not dropped since. -/
theorem mem_history (rs : List (Request α)) (e : Entry α) : e ∈ (history rs).entries ↔ Lives rs e := by
  induction rs using List.reverseRecOn with
  | nil => exact iff_of_false not_mem_nil fun ⟨before, later, h, _⟩ => by simp at h
  | append_singleton rs r ih => rw [history_concat, mem_after, ih, lives_concat]

theorem countAt_history (rs : List (Request α)) (level : Int) :
    (history rs).countAt level = {e | Lives rs e ∧ e.level = level}.ncard := by
  classical
  have hnodup := (List.Nodup.of_map _ (distinct_history rs)).filter fun e => e.level = level
  have hset : {e | Lives rs e ∧ e.level = level} = ((history rs).entries.filter fun e => e.level = level).toFinset := by
    ext e
    simp [mem_history]
  rw [hset, Set.ncard_coe_finset, toFinset_card_of_nodup hnodup, countAt, countP_eq_length_filter]

/-! ## Stacks of blocks -/

abbrev Block (α : Type) := Int × (Text → Option α)

def search (blocks : List (Block α)) (name : Text) : Option (Entry α) :=
  blocks.findSome? fun b => (b.2 name).map fun value => ⟨name, b.1, value⟩

/-- Requests that keep to the nesting of blocks, with the blocks that are open after them, the innermost one first. A
block is opened further in than the others. Names are declared in the innermost block, which keeps what it has, and its
names are dropped when it is closed. -/
inductive Nested : List (Request α) → List (Block α) → Prop where
  | start : Nested [] []
  | enter {rs blocks} (level : Int) (inner : ∀ b ∈ blocks, b.1 < level) (nested : Nested rs blocks) :
      Nested rs ((level, fun _ => none) :: blocks)
  | declare {rs level names blocks} (name : Text) (value : α) (nested : Nested rs ((level, names) :: blocks)) :
      Nested (rs ++ [.insert ⟨name, level, value⟩])
        ((level, fun n => if n = name then (names n).or (some value) else names n) :: blocks)
  | lookup {rs blocks} (name : Text) (nested : Nested rs blocks) : Nested (rs ++ [.lookup name]) blocks
  | leave {rs level names blocks} (nested : Nested rs ((level, names) :: blocks)) :
      Nested (rs ++ [.purge level]) blocks

/-- A table has the names of blocks, whose levels decrease. -/
structure Mirrors (s : Scope α) (blocks : List (Block α)) : Prop where
  mem : ∀ e, e ∈ s.entries ↔ ∃ b ∈ blocks, b.1 = e.level ∧ b.2 e.name = some e.value
  sorted : blocks.Pairwise fun b b' => b'.1 < b.1

variable {blocks : List (Block α)}

theorem Mirrors.declare {level : Int} {names : Text → Option α} (h : s.Mirrors ((level, names) :: blocks))
    (name : Text) (value : α) : (s.after (.insert ⟨name, level, value⟩)).Mirrors
      ((level, fun n => if n = name then (names n).or (some value) else names n) :: blocks) := by
  have houter := pairwise_cons.mp h.sorted
  refine ⟨fun e => ?_, pairwise_cons.mpr houter⟩
  have hmem := h.mem
  simp only [mem_cons, exists_eq_or_imp] at hmem ⊢
  -- The name is new at the level exactly if the innermost block does not have it.
  have hnew : (∃ t, s.insert ⟨name, level, value⟩ = .ok t) ↔ names name = none := by
    rw [insert_eq]
    split
    · next hold =>
      obtain ⟨x, hx, hname, hlevel⟩ := hold
      obtain ⟨-, hvalue⟩ | ⟨b, hb, hblevel, -⟩ := (hmem x).mp hx
      · exact iff_of_false nofun fun hnone => nomatch hvalue.symm.trans ((congrArg names hname).trans hnone)
      · exact absurd (hblevel.trans hlevel) (Int.ne_of_lt (houter.1 b hb))
    · next hold =>
      refine iff_of_true ⟨_, rfl⟩ (Option.eq_none_iff_forall_ne_some.mpr fun v hv => ?_)
      exact hold ⟨⟨name, level, v⟩, (hmem _).mpr (.inl ⟨rfl, hv⟩), rfl, rfl⟩
  have hlast : (Request.insert ⟨name, level, value⟩ = .insert e ∧ ∃ t, s.insert e = .ok t) ↔
      ⟨name, level, value⟩ = e ∧ names name = none := by
    rw [Request.insert.injEq]
    refine and_congr_right ?_
    rintro rfl
    exact hnew
  rw [mem_after, hlast, hmem]
  obtain ⟨n, l, v⟩ := e
  simp only [ne_eq, reduceCtorEq, not_false_eq_true, and_true, Entry.mk.injEq]
  by_cases hn : n = name
  · subst hn
    cases hold : names n <;> simp_all [and_comm, or_comm, eq_comm]
  · simp [hn, Ne.symm hn]

theorem Nested.mirrors (h : Nested rs blocks) : (history rs).Mirrors blocks := by
  induction h with
  | start => exact ⟨fun e => by simp [history, empty], .nil⟩
  | enter level inner nested ih => exact ⟨fun e => by simp [ih.mem e], pairwise_cons.mpr ⟨inner, ih.sorted⟩⟩
  | declare name value nested ih => exact history_concat _ _ ▸ ih.declare name value
  | lookup name nested ih => exact history_concat _ _ ▸ ih
  | @leave _ _ _ _ _ ih =>
    obtain ⟨houter, hsorted⟩ := pairwise_cons.mp ih.sorted
    refine ⟨fun e => ?_, hsorted⟩
    rw [history_concat, after, close, mem_purge, ih.mem]
    simp only [mem_cons, exists_eq_or_imp]
    constructor
    · rintro ⟨⟨hlevel, -⟩ | hb, hne⟩
      · exact absurd hlevel.symm hne
      · exact hb
    · rintro ⟨b, hb, hlevel, hvalue⟩
      exact ⟨.inr ⟨b, hb, hlevel, hvalue⟩, hlevel ▸ Int.ne_of_lt (houter b hb)⟩

/-- The innermost declaration of a name is that of the innermost block that has one. -/
theorem Mirrors.lookup? (h : s.Mirrors blocks) (hs : s.Distinct) (name : Text) :
    s.lookup? name = search blocks name := by
  cases hfound : search blocks name with
  | none =>
    refine lookup?_eq_none_iff.mpr fun e he hname => ?_
    obtain ⟨b, hb, -, hvalue⟩ := (h.mem e).mp he
    have hnone := List.findSome?_eq_none_iff.mp hfound b hb
    rw [← hname, hvalue] at hnone
    cases hnone
  | some e =>
    obtain ⟨inside, b, outside, rfl, hb, hnone⟩ := List.findSome?_eq_some_iff.mp hfound
    obtain ⟨value, hvalue, rfl⟩ := Option.map_eq_some_iff.mp hb
    refine hs.lookup?_eq_some_iff.mpr ⟨(h.mem _).mpr ⟨b, by simp, rfl, hvalue⟩, rfl, fun x hx hname => ?_⟩
    obtain ⟨c, hc, hlevel, hcvalue⟩ := (h.mem x).mp hx
    simp only [mem_append, mem_cons] at hc
    obtain hc | rfl | hc := hc
    · have hnone := hnone c hc
      rw [← hname, hcvalue] at hnone
      cases hnone
    · exact Int.le_of_eq hlevel.symm
    · have hsorted := (pairwise_append.mp h.sorted).2.1
      exact hlevel ▸ Int.le_of_lt ((pairwise_cons.mp hsorted).1 c hc)

/-- A table of names after any requests holds the declarations that were accepted and not dropped since, at most one for
a name and a level. A declaration is refused exactly if there is one of its name and level, and then nothing changes; the
innermost declaration of a name is found if there is any; and dropping a level takes away its declarations and tells their
number. After requests that keep to the nesting of blocks a name stands for what it is in the innermost block that has
it. -/
theorem history_refines_blocks (rs : List (Request α)) : ((history rs).entries.map fun e => (e.name, e.level)).Nodup ∧
    (∀ e, e ∈ (history rs).entries ↔ Lives rs e) ∧
    (∀ e, ((history rs).insert e = .error (.duplicate e.name) ↔ ∃ x, Lives rs x ∧ x.name = e.name ∧ x.level = e.level) ∧
      ((history rs).insert e = .error (.duplicate e.name) → history (rs ++ [.insert e]) = history rs) ∧
      ((history rs).insert e ≠ .error (.duplicate e.name) → Lives (rs ++ [.insert e]) e)) ∧
    (∀ name e, (history rs).lookup name = .ok e ↔
      Lives rs e ∧ e.name = name ∧ ∀ x, Lives rs x → x.name = name → x.level ≤ e.level) ∧
    (∀ name, (history rs).lookup name = .error (.undefined name) ↔ ∀ e, Lives rs e → e.name ≠ name) ∧
    (∀ level, ((history rs).close level).1 = {e | Lives rs e ∧ e.level = level}.ncard ∧
      ∀ e, e ∈ ((history rs).close level).2.entries ↔ Lives rs e ∧ e.level ≠ level) ∧
    ∀ blocks, Nested rs blocks → ∀ name, (history rs).lookup? name = search blocks name := by
  have hmem := mem_history rs
  have hdistinct := distinct_history rs
  refine ⟨hdistinct, hmem, fun e => ?_, fun name e => ?_, fun name => ?_, fun level => ⟨countAt_history rs level, fun e => ?_⟩,
    fun blocks h => h.mirrors.lookup? hdistinct⟩
  · simp only [lives_concat, ← hmem, history_concat, after]
    rw [insert_eq]
    split <;> simp_all
  · unfold Scope.lookup
    cases hfound : (history rs).lookup? name with
    | none =>
      simp only [reduceCtorEq, false_iff]
      exact fun h => lookup?_eq_none_iff.mp hfound e ((hmem e).mpr h.1) h.2.1
    | some x =>
      simp only [← hmem, ← hdistinct.lookup?_eq_some_iff, hfound, Except.ok.injEq, Option.some.injEq]
  · simp only [← hmem, ← lookup?_eq_none_iff, Scope.lookup]
    split <;> simp_all
  · rw [close, mem_purge, hmem]

/-- A name that is hidden by an inner block, and found again when the block is closed. -/
theorem history_refines_blocks_hidden :
    ((history (.insert ⟨[97], 0, 1⟩ :: .insert ⟨[97], 1, 2⟩ :: [.purge 1])).lookup? [97] : Option (Entry Nat)) =
      some ⟨[97], 0, 1⟩ := by
  have hnested : Nested (.insert ⟨[97], 0, 1⟩ :: .insert ⟨[97], 1, 2⟩ :: [.purge 1]) _ :=
    .leave (.declare [97] 2 (.enter 1 (by simp) (.declare [97] 1 (.enter 0 (by simp) .start))))
  exact ((history_refines_blocks _).2.2.2.2.2.2 _ hnested [97]).trans rfl

end MiniPascal.Scope
