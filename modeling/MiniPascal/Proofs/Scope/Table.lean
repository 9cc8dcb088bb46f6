import Mathlib.Data.List.Nodup
import MiniPascal.Scope

/-!
# Tables of names

A table of names holds at most one declaration of a name at a level. The declaration that is found for a name is the
innermost one, and names of one level can be dropped without a change to those of the others.
-/

namespace MiniPascal.Scope

open List

variable {α : Type} {s : Scope α} {e : Entry α} {name : Text} {level : Int}

/-! ## Looking a name up -/

theorem foldl_inner_innermost (frame : List (Entry α)) (b : Entry α) :
    ∃ e, frame.foldl inner (some b) = some e ∧ e ∈ b :: frame ∧ ∀ x ∈ b :: frame, x.level ≤ e.level := by
  induction frame generalizing b with
  | nil => exact ⟨b, rfl, by simp⟩
  | cons x frame ih =>
    rw [foldl_cons, inner]
    split
    · next hlt =>
      obtain ⟨e, he, hmem, hmax⟩ := ih x
      have hx := hmax x mem_cons_self
      exact ⟨e, he, mem_cons_of_mem b hmem, forall_mem_cons.mpr ⟨by omega, hmax⟩⟩
    · next hle =>
      obtain ⟨e, he, hmem, hmax⟩ := ih b
      have hb := hmax b mem_cons_self
      simp only [mem_cons, forall_eq_or_imp] at hmem hmax ⊢
      exact ⟨e, he, hmem.imp_right .inr, hb, by omega, hmax.2⟩

/-- A declaration that is found has the name that was looked for, and no declaration of the name is further in. -/
theorem lookup?_innermost (h : s.lookup? name = some e) :
    e ∈ s.entries ∧ e.name = name ∧ ∀ x ∈ s.entries, x.name = name → x.level ≤ e.level := by
  have hfound (x : Entry α) : x ∈ s.entries.filter (fun e => e.name = name) ↔ x ∈ s.entries ∧ x.name = name := by simp
  unfold lookup? at h
  generalize s.entries.filter (fun e => e.name = name) = found at *
  cases found with
  | nil => cases h
  | cons x rest =>
    obtain ⟨y, hy, hmem, hmax⟩ := foldl_inner_innermost rest x
    obtain rfl := Option.some.inj (hy.symm.trans h)
    exact ⟨((hfound y).mp hmem).1, ((hfound y).mp hmem).2, fun z hz hname => hmax z ((hfound z).mpr ⟨hz, hname⟩)⟩

theorem mem_of_lookup? (h : s.lookup? name = some e) : e ∈ s.entries := (lookup?_innermost h).1

/-- A name is not found exactly if it has no declaration. -/
theorem lookup?_eq_none_iff : s.lookup? name = none ↔ ∀ e ∈ s.entries, e.name ≠ name := by
  unfold lookup?
  cases hfound : s.entries.filter (fun e => e.name = name) with
  | nil => simpa using hfound
  | cons x rest =>
    obtain ⟨y, hy, -⟩ := foldl_inner_innermost rest x
    have hx : x ∈ s.entries ∧ x.name = name := by
      simpa using (hfound ▸ mem_cons_self : x ∈ s.entries.filter fun e => e.name = name)
    exact iff_of_false (fun h => nomatch hy.symm.trans h) fun h => h x hx.1 hx.2

def first? (frame : List (Entry α)) (name : Text) : Option (Entry α) := frame.find? fun e => e.name = name

/-- Declarations of one level, after those that are further out: the first one counts. -/
theorem foldl_inner {frame : List (Entry α)} (h : ∀ e ∈ frame, e.level = level) {best : Option (Entry α)}
    (hbest : ∀ b ∈ best, b.level < level) : frame.foldl inner best = frame.head?.or best := by
  cases frame with
  | nil => rfl
  | cons e frame =>
    obtain ⟨he, hframe⟩ := forall_mem_cons.mp h
    have hfirst : inner best e = some e := by
      cases best with
      | none => rfl
      | some b => simp [inner, he, hbest b rfl]
    have hstay : frame.foldl inner (some e) = some e := by
      clear h hfirst
      induction frame with
      | nil => rfl
      | cons x rest ih =>
        obtain ⟨hx, hrest⟩ := forall_mem_cons.mp hframe
        rw [foldl_cons, inner, if_neg (by omega), ih hrest]
    rw [foldl_cons, hfirst, hstay]
    rfl

theorem lookup?_append (level : Int) {older frame : List (Entry α)} (holder : ∀ e ∈ older, e.level < level)
    (hframe : ∀ e ∈ frame, e.level = level) (name : Text) :
    lookup? ⟨older ++ frame⟩ name = (first? frame name).or (lookup? ⟨older⟩ name) := by
  show ((older ++ frame).filter _).foldl inner none = _
  rw [filter_append, foldl_append, foldl_inner (fun e he => hframe e (mem_filter.mp he).1),
    List.head?_filter]
  · rfl
  · exact fun b hb => holder b (mem_of_lookup? (s := ⟨older⟩) hb)

/-! ## Names and their levels -/

theorem declares_iff : s.declares name level = true ↔ ∃ e ∈ s.entries, e.name = name ∧ e.level = level := by
  simp [declares]

theorem ne_of_not_declares (h : s.declares name level = false) (he : e ∈ s.entries) :
    ¬(e.name = name ∧ e.level = level) := fun heq =>
  Bool.false_ne_true (h.symm.trans (declares_iff.mpr ⟨e, he, heq⟩))

def keys (entries : List (Entry α)) : List (Text × Int) := entries.map fun e => (e.name, e.level)

theorem keys_append (before after : List (Entry α)) : keys (before ++ after) = keys before ++ keys after :=
  map_append

/-- No name is declared twice at one level. -/
def Distinct (s : Scope α) : Prop := (keys s.entries).Nodup

theorem Distinct.insert {t : Scope α} (h : s.Distinct) (hinsert : s.insert e = .ok t) : t.Distinct := by
  unfold Scope.insert at hinsert
  split at hinsert
  · cases hinsert
  · next hnew =>
    obtain rfl := Except.ok.inj hinsert
    rw [Distinct, keys_append, nodup_append]
    refine ⟨h, by simp [keys], ?_⟩
    rintro _ hmem _ hlast rfl
    obtain ⟨x, hx, heq⟩ := mem_map.mp hmem
    rw [mem_singleton.mp hlast, Prod.mk.injEq] at heq
    exact ne_of_not_declares (Bool.eq_false_iff.mpr hnew) hx heq

theorem Distinct.purge (h : s.Distinct) (level : Int) : (s.purge level).Distinct :=
  List.Nodup.sublist (List.Sublist.map _ filter_sublist) h

/-- Of several declarations of a name that is declared once at a level there is one innermost one. -/
theorem Distinct.lookup?_eq_some_iff (h : s.Distinct) : s.lookup? name = some e ↔
    e ∈ s.entries ∧ e.name = name ∧ ∀ x ∈ s.entries, x.name = name → x.level ≤ e.level := by
  refine ⟨lookup?_innermost, fun ⟨hmem, hname, hmax⟩ => ?_⟩
  cases hfound : s.lookup? name with
  | none => exact absurd hname (lookup?_eq_none_iff.mp hfound e hmem)
  | some x =>
    obtain ⟨hx, hxname, hxmax⟩ := lookup?_innermost hfound
    have hlevel := Int.le_antisymm (hmax x hx hxname) (hxmax e hmem hname)
    exact congrArg some (inj_on_of_nodup_map h hx hmem (by rw [hxname, hname, hlevel]))

theorem purge_append {kept dropped : List (Entry α)} (hkept : ∀ e ∈ kept, e.level ≠ level)
    (hdropped : ∀ e ∈ dropped, e.level = level) : (purge ⟨kept ++ dropped⟩ level).entries = kept := by
  have hkeep : kept.filter (fun e => e.level ≠ level) = kept :=
    filter_eq_self.mpr fun e he => by simpa using hkept e he
  have hdrop : dropped.filter (fun e => e.level ≠ level) = [] :=
    filter_eq_nil_iff.mpr fun e he => by simpa using hdropped e he
  rw [purge, filter_append, hkeep, hdrop, append_nil]

/-! ## Changes of what a name stands for -/

theorem modify_append (before after : List (Entry α)) (name : Text) (level : Int) (f : α → α) :
    (modify ⟨before ++ after⟩ name level f).entries =
      (modify ⟨before⟩ name level f).entries ++ (modify ⟨after⟩ name level f).entries :=
  map_append

theorem modify_of_ne {entries : List (Entry α)} (h : ∀ e ∈ entries, ¬(e.name = name ∧ e.level = level)) (f : α → α) :
    (modify ⟨entries⟩ name level f).entries = entries := by
  refine (map_congr_left fun e he => ?_).trans (map_id entries)
  simp [h e he]

/-- Only the declaration that is meant changes. -/
theorem modify_entries {before after : List (Entry α)} (hbefore : ∀ x ∈ before, ¬(x.name = e.name ∧ x.level = e.level))
    (hafter : ∀ x ∈ after, ¬(x.name = e.name ∧ x.level = e.level)) (f : α → α) :
    (modify ⟨before ++ e :: after⟩ e.name e.level f).entries = before ++ { e with value := f e.value } :: after := by
  have hchanged : (modify ⟨[e]⟩ e.name e.level f).entries = [{ e with value := f e.value }] := by simp [modify]
  rw [append_cons, modify_append, modify_append, modify_of_ne hbefore, modify_of_ne hafter, hchanged,
    append_assoc, singleton_append]

end MiniPascal.Scope
