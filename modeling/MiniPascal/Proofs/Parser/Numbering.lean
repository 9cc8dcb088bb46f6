import MiniPascal.Proofs.Parser.Declaring
import MiniPascal.Proofs.Tree.Routines

/-!
# Numbers of subprograms

Every heading takes the next number, and a block has the number of its heading and those of the headings
inside it. So no two blocks of a program have the same number.
-/

namespace MiniPascal

open List

namespace Blocks

theorem ids_append (a b : Blocks) : (a.append b).ids = a.ids ++ b.ids := by
  induction a with
  | nil => rfl
  | cons _ _ _ _ _ ih => simp [append, ids, ih]

/-- The numbers of blocks are distinct and lie between two bounds. -/
structure Numbered (low : Nat) (b : Blocks) (high : Nat) : Prop where
  nodup : b.ids.Nodup
  range : ∀ id ∈ b.ids, low ≤ id.index ∧ id.index < high

namespace Numbered

variable {low middle high : Nat} {a b : Blocks}

theorem nil (low high : Nat) : Numbered low .nil high := ⟨nodup_nil, by simp [ids]⟩

theorem mono (h : Numbered low b middle) (hle : middle ≤ high) : Numbered low b high :=
  ⟨h.nodup, fun id hid => ⟨(h.range id hid).1, Nat.lt_of_lt_of_le (h.range id hid).2 hle⟩⟩

theorem append (ha : Numbered low a middle) (hb : Numbered middle b high) (hlow : low ≤ middle)
    (hhigh : middle ≤ high) : Numbered low (a.append b) high := by
  constructor
  · rw [ids_append, nodup_append]
    refine ⟨ha.nodup, hb.nodup, fun x hx y hy heq => ?_⟩
    have := (ha.range x hx).2
    have := (hb.range y hy).1
    rw [heq] at *
    omega
  · intro id hid
    rw [ids_append, mem_append] at hid
    rcases hid with hid | hid
    · have := ha.range id hid
      omega
    · have := hb.range id hid
      omega

end Numbered

end Blocks

namespace Parser

open State

variable {low : Nat} {s : State} {d : Declared}

theorem State.Advances.not_exhausted {n : Nat} {t : State} (h : Advances n s t) (ht : t.exhausted = false) :
    s.exhausted = false := by
  cases hs : s.exhausted with
  | false => rfl
  | true => rw [← h.exhausted hs, ht]

theorem heading_id (function : Bool) (s : State) :
    (heading function s).1.id.index = s.routines ∧ s.routines < (heading function s).2.routines := by
  have hname := (identifier_reads (n := 0) s).2.routines
  rw [heading_run]
  generalize (identifier s).2 = t at *
  dsimp only
  generalize hd : declareAt t.level _ _ _ = d
  have hdeclared := (declareAt_moves (n := 0) t.level (identifier s).1
    (.ofRoutine function { id := ⟨t.routines⟩ }) { t with routines := t.routines + 1 }).2.routines
  rw [hd] at hdeclared
  have hparams := (parameters_declares (n := 0) d.2).moves.2.routines
  have hsignature := (signature_moves (n := 0) function ⟨t.routines⟩ d.1 (identifier s).1 (parameters d.2).1
    (parameters d.2).2.types (parameters d.2).2).2.routines
  refine ⟨hname, ?_⟩
  have : s.routines < t.routines + 1 := by omega
  exact Nat.lt_of_lt_of_le this (Nat.le_trans hdeclared (Nat.le_trans hparams hsignature))

/-- A parser of blocks numbers them from the number of the subprogram on. -/
structure KeepsNumbers (block : Routine → Parser Blocks) : Prop where
  moves : ∀ r, Moves 0 (block r)
  numbered : ∀ r s, (block r s).2.exhausted = false → r.id.index < s.routines →
    (block r s).1.Numbered r.id.index (block r s).2.routines ∧ r.id ∈ (block r s).1.ids

/-- The inner blocks that are declared so far are numbered from a number on. -/
def Declared.Numbered (low : Nat) (d : Declared) (s : State) : Prop :=
  low ≤ s.routines ∧ d.inner.Numbered low s.routines

theorem Declared.Numbered.mono {t : State} (h : d.Numbered low s) (hle : s.routines ≤ t.routines) : d.Numbered low t :=
  ⟨Nat.le_trans h.1 hle, h.2.mono hle⟩

/-- Declarations, as they are at a state, are numbered unless a bound is met. -/
def NumbersAt (low : Nat) (p : Parser (Bool × Declared)) (s : State) : Prop :=
  (p s).2.exhausted = false → (p s).1.2.Numbered low (p s).2

theorem NumbersAt.token_bind {f : Token → Parser (Bool × Declared)} (h : NumbersAt low (f s.current.token) s) :
    NumbersAt low (token >>= f) s := h

theorem variableGroup_inner (d : Declared) (s : State) : (variableGroup d s).1.inner = d.inner := rfl

theorem variableGroup_numbered (hd : d.Numbered low s) : (variableGroup d s).1.Numbered low (variableGroup d s).2 := by
  have hle := ((variableGroup_declares (n := 0) d).declares identifiers_reads s).moves.2.routines
  refine ⟨Nat.le_trans hd.1 hle, ?_⟩
  rw [variableGroup_inner]
  exact hd.2.mono hle

theorem repeatFor_numbered (low : Nat) {step : Declared → Parser (Bool × Declared)} (hmoves : ∀ d, Moves 0 (step d))
    (hstep : ∀ d s, d.Numbered low s → NumbersAt low (step d) s) (k : Nat) (hd : d.Numbered low s)
    (h : (repeatFor step k d s).2.exhausted = false) :
    (repeatFor step k d s).1.Numbered low (repeatFor step k d s).2 := by
  refine repeatFor_keeps (P := Declared.Numbered low) (Q := fun _ s => s.exhausted = false) ?_ ?_ ?_ k d s
    hd h
  · simp [State.exhaust]
  · exact fun d s => (hmoves d s).1.not_exhausted
  · exact fun d s hd h => hstep d s hd h

theorem variableSection_numbered (hd : d.Numbered low s) (h : (variableSection d s).2.exhausted = false) :
    (variableSection d s).1.Numbered low (variableSection d s).2 := by
  have hrun : variableSection d s = repeatFor (entriesStep variableGroup) s.next.fuel d s.next := rfl
  rw [hrun] at h ⊢
  refine repeatFor_numbered low (fun d => ?_) (fun d t hd => ?_) s.next.fuel
    (hd.mono (Nat.le_of_eq (next_same s).routines.symm)) h
  · refine token_reads.moves.bind fun t => ?_
    split
    · exact ((variableGroup_declares d).declares identifiers_reads).moves.bind fun _ => .pure _
    · exact .pure _
  · show NumbersAt low (if t.current.token = .identifier then _ else _) t
    split
    · exact fun _ => variableGroup_numbered hd
    · exact fun _ => hd

section

variable {block : Routine → Parser Blocks} (hb : KeepsNumbers block)
include hb

theorem subprogram_numbered {function : Bool} (h : (subprogram block function s).2.exhausted = false) :
    (subprogram block function s).1.Numbered s.routines (subprogram block function s).2.routines := by
  rw [subprogram_run] at h ⊢
  obtain ⟨hid, hlt⟩ := heading_id function s.next
  rw [(next_same s).routines] at hid hlt
  obtain ⟨hadv, hsame⟩ := expect_reads (n := 0) .semicolon
    (block (heading function s.next).1 (heading function s.next).2).2
  have := (hb.numbered (heading function s.next).1 (heading function s.next).2 (hadv.not_exhausted h)
    (hid.symm ▸ hlt)).1
  rw [hid] at this
  exact this.mono (Nat.le_of_eq hsame.routines.symm)

theorem declaration_numbered (hd : d.Numbered low s) (h : (declaration block d s).2.exhausted = false) :
    (declaration block d s).1.2.Numbered low (declaration block d s).2 := by
  suffices hnumbers : NumbersAt low (declaration block d) s from hnumbers h
  clear h
  have keep {α : Type} {p : Parser α} (hp : Moves 0 p) : NumbersAt low (do let _ ← p; return (true, d)) s :=
    fun _ => hd.mono (hp s).2.routines
  have inner (function : Bool) : NumbersAt low
      (do return (true, { d with inner := d.inner.append (← subprogram block function) })) s := by
    intro h
    have hmoves := (subprogram_moves hb.moves function).moves advance_reads.moves s
    have hle := hmoves.2.routines
    exact ⟨Nat.le_trans hd.1 hle, hd.2.append (subprogram_numbered hb h) hd.1 hle⟩
  refine NumbersAt.token_bind ?_
  split
  · exact keep (constantSection_declares.declares advance_reads).moves
  · exact keep (typeSection_declares.declares advance_reads).moves
  · exact fun h => variableSection_numbered hd h
  · exact inner false
  · exact inner true
  · exact fun _ => hd

end

theorem blockOf_keepsNumbers {block : Routine → Parser Blocks} (hb : KeepsNumbers block) :
    KeepsNumbers (blockOf block) where
  moves r := (blockOf_moves hb.moves r).mono (Nat.zero_le 1)
  numbered r s h hlt := by
    rw [blockOf_run, inside_run] at h ⊢
    dsimp only at h ⊢
    have hdeclared := repeatFor_numbered s.routines (fun d => (declaration_moves hb.moves d).mono
      (Nat.zero_le 1)) (fun d s hd h => declaration_numbered hb hd h) (opened r.id s).fuel (d := {})
      (s := opened r.id s) ⟨Nat.le_refl _, .nil _ _⟩
    generalize repeatFor (declaration block) (opened r.id s).fuel {} (opened r.id s) = q at *
    obtain ⟨hadv, hsame⟩ := body_reads (n := 0) q.2
    obtain ⟨hle, hnodup, hrange⟩ := hdeclared (hadv.not_exhausted h)
    rw [← hsame.routines] at hle hrange
    generalize body q.2 = b at *
    have hids : (blockTree r (q.1, (line q.2).1, b.1, (line b.2).1)).ids = q.1.inner.ids ++ [r.id] := rfl
    refine ⟨⟨?_, fun id hid => ?_⟩, by simp [hids]⟩
    · rw [hids, nodup_append]
      refine ⟨hnodup, by simp, fun x hx y hy heq => ?_⟩
      have := (hrange x hx).1
      rw [heq, mem_singleton.mp hy] at this
      omega
    · show r.id.index ≤ id.index ∧ id.index < b.2.routines
      rw [hids, mem_append, mem_singleton] at hid
      rcases hid with hid | rfl
      · have := hrange id hid
        omega
      · omega

theorem blockWithin_keepsNumbers (n : Nat) : KeepsNumbers (blockWithin n) := by
  induction n with
  | zero =>
    refine ⟨fun _ => exhaust_moves _, fun _ _ h => ?_⟩
    exact absurd h (by simp [blockWithin, State.exhaust])
  | succ n ih => exact blockOf_keepsNumbers ih

theorem block_keepsNumbers : KeepsNumbers block where
  moves r := block_moves r
  numbered r s := (blockWithin_keepsNumbers s.fuel).numbered r s

end Parser

end MiniPascal
