import MiniPascal.Parser.Block

/-!
# Progress of the analysis

Every part of the analysis moves forward: the lexemes in view afterwards are the last of those before,
diagnostics are only added, and no bound on a repetition or a nesting is met, provided that the bound
covers the lexemes that are left. Parts that read expressions and statements leave all declarations
alone.
-/

namespace MiniPascal

open List

/-- Whether a problem is that of a pointer without a base, which is found at the end of a type section. -/
abbrev Problem.isPointerBase : Problem → Bool
  | .undefinedPointerBase _ => true
  | _ => false

def Lexeme.place (l : Lexeme) : Nat × Nat := (l.pos, l.line)

def Diagnostic.place (d : Diagnostic) : Nat × Nat := (d.pos, d.line)

namespace Parser

variable {α β σ : Type} {n : Nat} {p : Parser α} {f : α → Parser β}

namespace State

def lexemes (s : State) : List Lexeme := s.current :: s.rest

def Ended (s : State) : Prop := ∃ l ∈ s.lexemes.getLast?, l.token = .endOfFile

/-- The diagnostics that were recorded for the lexeme in view at the time. -/
def reported (s : State) : List Diagnostic := s.diagnostics.filter fun d => !d.problem.isPointerBase

def baseless (s : State) : List Diagnostic := s.diagnostics.filter fun d => d.problem.isPointerBase

/-- Of all lexemes some have been read, and diagnostics were recorded for some of these in order, one for each. There is
one for the current lexeme if the last error was there. -/
def Reports (all : List Lexeme) (s : State) : Prop :=
  ∃ read, read ++ s.lexemes = all ∧ (s.reported.map Diagnostic.place).Sublist
    ((read ++ if s.lastError = some s.current.pos then [s.current] else []).map Lexeme.place)

/-- One state comes after another; `n` bounds the lexemes for which no bound is met on the way. -/
structure Advances (n : Nat) (s t : State) : Prop where
  lexemes : t.lexemes <:+ s.lexemes
  diagnostics : s.diagnostics <+: t.diagnostics
  lastError : (s.diagnostics = [] → s.lastError = none) → t.diagnostics = [] → t.lastError = none
  exhausted : s.exhausted = true → t.exhausted = true
  bounded : s.Ended → s.lexemes.length ≤ n → t.exhausted = s.exhausted
  reports : ∀ all, s.Reports all → t.Reports all

/-- Two states have the same declarations, and the same pointers without a base. -/
structure SameDeclarations (s t : State) : Prop where
  types : t.types = s.types
  scope : t.scope = s.scope
  level : t.level = s.level
  enclosing : t.enclosing = s.enclosing
  forward : t.forward = s.forward
  routines : t.routines = s.routines
  baseless : t.baseless = s.baseless

theorem length_lexemes (s : State) : s.lexemes.length = s.fuel := rfl

variable {s t : State}

theorem Ended.of_suffix (h : s.Ended) (ht : t.lexemes <:+ s.lexemes) : t.Ended := by
  obtain ⟨l, hl, he⟩ := h
  refine ⟨l, ?_, he⟩
  obtain ⟨before, hb⟩ := ht
  rw [← hb, List.getLast?_append] at hl
  have hne : t.lexemes.getLast? ≠ none := by simp [State.lexemes]
  cases hc : t.lexemes.getLast? with
  | none => exact absurd hc hne
  | some x => simpa [hc] using hl

/-- A state that is not at the end of the file has lexemes after the current one. -/
theorem Ended.rest_ne_nil (h : s.Ended) (ht : s.current.token ≠ .endOfFile) : s.rest ≠ [] := by
  intro hr
  obtain ⟨l, hl, he⟩ := h
  simp only [State.lexemes, hr, List.getLast?_singleton, Option.mem_def, Option.some.injEq] at hl
  exact ht (hl ▸ he)

namespace Advances

theorem refl (n : Nat) (s : State) : Advances n s s :=
  ⟨suffix_rfl, prefix_rfl, fun h => h, id, fun _ _ => rfl, fun _ h => h⟩

theorem mono {m : Nat} (hm : m ≤ n) (h : Advances n s t) : Advances m s t :=
  { h with bounded := fun he hn => h.bounded he (Nat.le_trans hn hm) }

/-- The bound of the second part of a way only has to cover the lexemes that the first part leaves. -/
theorem trans_within {m : Nat} {u : State} (h : Advances n s t)
    (hm : s.Ended → s.lexemes.length ≤ n → t.lexemes.length ≤ m) (h' : Advances m t u) : Advances n s u where
  lexemes := h'.lexemes.trans h.lexemes
  diagnostics := h.diagnostics.trans h'.diagnostics
  lastError hs := h'.lastError (h.lastError hs)
  exhausted hs := h'.exhausted (h.exhausted hs)
  bounded he hn := by rw [h'.bounded (he.of_suffix h.lexemes) (hm he hn), h.bounded he hn]
  reports all hs := h'.reports all (h.reports all hs)

theorem trans {u : State} (h : Advances n s t) (h' : Advances n t u) : Advances n s u :=
  h.trans_within (fun _ => Nat.le_trans h.lexemes.length_le) h'

/-- Where the first part of a way takes a lexeme, the bound of the second part is smaller. -/
theorem trans_shorter {u : State} (h : Advances (n + 1) s t) (hlt : s.Ended → t.lexemes.length < s.lexemes.length)
    (h' : Advances n t u) : Advances (n + 1) s u :=
  h.trans_within (fun he hn => Nat.le_of_lt_succ (Nat.lt_of_lt_of_le (hlt he) hn)) h'

end Advances

namespace SameDeclarations

theorem refl (s : State) : SameDeclarations s s := ⟨rfl, rfl, rfl, rfl, rfl, rfl, rfl⟩

theorem trans {u : State} (h : SameDeclarations s t) (h' : SameDeclarations t u) : SameDeclarations s u :=
  ⟨h'.types.trans h.types, h'.scope.trans h.scope, h'.level.trans h.level,
    h'.enclosing.trans h.enclosing, h'.forward.trans h.forward, h'.routines.trans h.routines,
    h'.baseless.trans h.baseless⟩

end SameDeclarations

/-- No state has so few lexemes that the bound zero covers them. -/
theorem exhaust_advances (s : State) : Advances 0 s s.exhaust := by
  refine ⟨suffix_rfl, prefix_rfl, fun h => h, fun _ => rfl, ?_, fun _ h => h⟩
  intro _ hn
  simp [State.lexemes] at hn

theorem report_advances (p : Problem) (s : State) : Advances n s (s.report p) := by
  unfold report
  split
  · exact .refl n s
  · next hlast =>
    refine ⟨suffix_rfl, ⟨_, rfl⟩, fun _ h => ?_, id, fun _ _ => rfl, ?_⟩
    · simp at h
    · -- No diagnostic was recorded for the current lexeme so far.
      rintro all ⟨read, hall, hsub⟩
      refine ⟨read, hall, ?_⟩
      rw [if_neg hlast, append_nil] at hsub
      rw [if_pos rfl, map_append, reported, filter_append, map_append]
      refine hsub.append ?_
      cases hp : p.isPointerBase <;> simp [hp, Diagnostic.place, Lexeme.place]

theorem report_current (p : Problem) (s : State) : (s.report p).current = s.current := by
  unfold report
  split <;> rfl

theorem report_lexemes (p : Problem) (s : State) : (s.report p).lexemes = s.lexemes := by
  unfold report
  split <;> rfl

theorem report_same {p : Problem} (hp : p.isPointerBase = false) (s : State) : SameDeclarations s (s.report p) := by
  unfold report
  split
  · exact .refl s
  · exact ⟨rfl, rfl, rfl, rfl, rfl, rfl, by simp [baseless, hp]⟩

theorem view_lexemes (l : Lexeme) (rest : List Lexeme) (s : State) : (view (l :: rest) s).lexemes <:+ l :: rest := by
  induction rest generalizing l s with
  | nil =>
    simp only [view]
    split <;> simp [State.lexemes, report] <;> split <;> simp
  | cons l' rest ih =>
    rw [view]
    split
    · exact (ih l' _).trans (suffix_cons _ _)
    · exact (ih l' _).trans (suffix_cons _ _)
    · exact suffix_rfl

/-- A change of the view to a final part of the lexemes. -/
theorem move_advances {l : Lexeme} {rest : List Lexeme} (h : l :: rest <:+ s.lexemes) :
    Advances n s { s with current := l, rest } := by
  refine ⟨h, prefix_rfl, fun hs => hs, id, fun _ _ => rfl, ?_⟩
  rintro all ⟨read, rfl, hsub⟩
  obtain ⟨passed, hpassed⟩ := h
  refine ⟨read ++ passed, by rw [append_assoc, ← hpassed]; rfl, hsub.trans (List.Sublist.map _ ?_)⟩
  cases passed with
  | nil =>
    obtain ⟨rfl, rfl⟩ := List.cons.inj hpassed
    exact (append_nil read).symm ▸ .refl _
  | cons first more =>
    obtain ⟨rfl, -⟩ := List.cons.inj hpassed
    rw [append_assoc]
    refine List.Sublist.append_left ?_ read
    split <;> simp

theorem attribute_advances (line : Nat) (s : State) : Advances n s { s with line } :=
  ⟨suffix_rfl, prefix_rfl, fun hs => hs, id, fun _ _ => rfl, fun _ h => h⟩

theorem view_advances (lexemes : List Lexeme) (s : State) (h : lexemes <:+ s.lexemes) :
    Advances n s (view lexemes s) := by
  induction lexemes generalizing s with
  | nil => exact .refl n s
  | cons l rest ih =>
    -- A lexeme that is reported is left behind, and the view goes on with the rest.
    have skip (p : Problem) :
        Advances n s (view rest { report p { s with current := l, rest } with line := l.line }) := by
      have hreport := (move_advances (n := n) h).trans (report_advances p { s with current := l, rest })
      have hlexemes : (report p { s with current := l, rest }).lexemes = l :: rest := report_lexemes p _
      exact (hreport.trans (attribute_advances _ _)).trans (ih _ (hlexemes ▸ suffix_cons l rest))
    rw [view]
    split
    · exact skip _
    · exact skip _
    · exact move_advances h

theorem view_same (lexemes : List Lexeme) (s : State) : SameDeclarations s (view lexemes s) := by
  induction lexemes generalizing s with
  | nil => exact .refl s
  | cons l rest ih =>
    have skip {p : Problem} (hp : p.isPointerBase = false) : SameDeclarations s
        (view rest { report p { s with current := l, rest } with line := l.line }) := by
      have h := report_same hp { s with current := l, rest }
      have h' : SameDeclarations s { report p { s with current := l, rest } with line := l.line } :=
        ⟨h.types, h.scope, h.level, h.enclosing, h.forward, h.routines, h.baseless⟩
      exact h'.trans (ih _)
    rw [view]
    split
    · exact skip rfl
    · exact skip rfl
    · exact ⟨rfl, rfl, rfl, rfl, rfl, rfl, rfl⟩

theorem next_advances (s : State) : Advances n s s.next := by
  exact (attribute_advances _ s).trans (view_advances _ _ (suffix_cons s.current s.rest))

theorem next_same (s : State) : SameDeclarations s s.next := by
  have h : SameDeclarations s { s with line := s.current.line } := ⟨rfl, rfl, rfl, rfl, rfl, rfl, rfl⟩
  exact h.trans (view_same _ _)

theorem length_next_lt (h : s.Ended) (ht : s.current.token ≠ .endOfFile) :
    s.next.lexemes.length < s.lexemes.length := by
  have hne := h.rest_ne_nil ht
  simp only [next]
  cases hr : s.rest with
  | nil => exact absurd hr hne
  | cons l rest =>
    have hv := (view_lexemes l rest { s with line := s.current.line, rest := l :: rest }).length_le
    have hs : s.lexemes.length = (l :: rest).length + 1 := by simp [State.lexemes, hr]
    omega

end State

open State

/-- A part of the analysis only reads from a state: it moves forward and keeps the declarations. -/
def ReadsAt (n : Nat) (p : Parser α) (s : State) : Prop :=
  Advances n s (p s).2 ∧ SameDeclarations s (p s).2

def Reads (n : Nat) (p : Parser α) : Prop := ∀ s, ReadsAt n p s

/-- A part of the analysis takes at least one lexeme. -/
def Takes (p : Parser α) (s : State) : Prop :=
  s.Ended → (p s).2.lexemes.length < s.lexemes.length

theorem ReadsAt.bind {s : State} (hp : ReadsAt n p s) (hf : ∀ a, Reads n (f a)) : ReadsAt n (p >>= f) s :=
  ⟨hp.1.trans (hf (p s).1 (p s).2).1, hp.2.trans (hf (p s).1 (p s).2).2⟩

/-- What follows a part that takes a lexeme has a smaller bound. -/
theorem ReadsAt.bind_shorter {s : State} (hp : ReadsAt (n + 1) p s) (ht : Takes p s) (hf : ∀ a, Reads n (f a)) :
    ReadsAt (n + 1) (p >>= f) s :=
  ⟨hp.1.trans_shorter ht (hf (p s).1 (p s).2).1, hp.2.trans (hf (p s).1 (p s).2).2⟩

theorem ReadsAt.get_bind {f : State → Parser α} {s : State} (h : ReadsAt n (f s) s) : ReadsAt n (get >>= f) s := h


namespace Reads

theorem mono {m : Nat} (hm : m ≤ n) (h : Reads n p) : Reads m p :=
  fun s => ⟨(h s).1.mono hm, (h s).2⟩

@[grind ←] theorem pure (a : α) : Reads n (pure a : Parser α) := fun s => ⟨.refl n s, .refl s⟩

@[grind ←] theorem bind (hp : Reads n p) (hf : ∀ a, Reads n (f a)) : Reads n (p >>= f) := fun s => (hp s).bind hf

@[grind ←] theorem map (f : α → β) (hp : Reads n p) : Reads n (f <$> p) := fun s => hp s

@[grind ←] theorem get : Reads n (get : Parser State) := fun s => ⟨.refl n s, .refl s⟩

end Reads

theorem Takes.bind {s : State} (hp : Takes p s) (hf : ∀ a, Reads 0 (f a)) : Takes (p >>= f) s := by
  intro he
  have hlen := (hf (p s).1 (p s).2).1.lexemes.length_le
  exact Nat.lt_of_le_of_lt hlen (hp he)


theorem Takes.bind_right {s : State} (hp : ReadsAt 0 p s) (hf : Takes (f (p s).1) (p s).2) : Takes (p >>= f) s := by
  intro he
  have hlen := hp.1.lexemes.length_le
  exact Nat.lt_of_lt_of_le (hf (he.of_suffix hp.1.lexemes)) hlen

/-! ## Single steps -/

section

variable (s : State)

theorem run_bind (p : Parser α) (f : α → Parser β) : (p >>= f) s = f (p s).1 (p s).2 := rfl

theorem get_bind_run (f : State → Parser α) : (get >>= f) s = f s s := rfl

theorem token_bind_run (f : Token → Parser α) : (token >>= f) s = f s.current.token s := rfl

theorem expect_run (t : Token) :
    expect t s = if s.current.token = t then ((), s.next) else ((), s.report (.expected t)) := by
  show (if s.current.token = t then advance else report (.expected t)) s = _
  split <;> rfl

theorem identifier_run :
    identifier s = if s.current.token = .identifier then (s.current.text, s.next)
      else (missingName, s.report .identifierExpected) := by
  show (if s.current.token = .identifier then _ else _ : Parser Text) s = _
  split <;> rfl

theorem resolve_run :
    resolve s = match s.scope.lookup? s.current.text with
      | some e => (e, s.next)
      | none => (placeholder, (s.report (.naming (.undefined s.current.text))).next) := by
  unfold resolve Scope.lookup
  rw [get_bind_run]
  cases s.scope.lookup? s.current.text <;> rfl

end

@[grind ←] theorem token_reads : Reads n token := fun s => ⟨.refl n s, .refl s⟩

@[grind ←] theorem text_reads : Reads n text := fun s => ⟨.refl n s, .refl s⟩

@[grind ←] theorem line_reads : Reads n line := fun s => ⟨.refl n s, .refl s⟩

@[grind ←] theorem types_reads : Reads n types := fun s => ⟨.refl n s, .refl s⟩

@[grind ←] theorem level_reads : Reads n level := fun s => ⟨.refl n s, .refl s⟩

@[grind ←] theorem advance_reads : Reads n advance := fun s => ⟨next_advances s, next_same s⟩

@[grind ←] theorem report_reads {p : Problem} (hp : p.isPointerBase = false) : Reads n (report p) := fun s =>
  ⟨report_advances p s, report_same hp s⟩

@[grind ←] theorem warn_reads (c : Concern) : Reads n (warn c) := fun _ =>
  ⟨⟨suffix_rfl, prefix_rfl, fun h => h, id, fun _ _ => rfl, fun _ h => h⟩, ⟨rfl, rfl, rfl, rfl, rfl, rfl, rfl⟩⟩

@[grind ←] theorem require_reads (c : Bool) {p : Problem} (hp : p.isPointerBase = false) : Reads n (require c p) := by
  grind -ring -linarith [require]

@[grind ←] theorem warnIf_reads (b : Bool) (c : Concern) : Reads n (warnIf b c) := by grind [warnIf]

@[grind ←] theorem advanceIf_reads (b : Bool) : Reads n (advanceIf b) := by grind [advanceIf]

@[grind ←] theorem expect_reads (t : Token) : Reads n (expect t) := by grind [expect]

theorem advance_takes {s : State} (h : s.current.token ≠ .endOfFile) : Takes advance s :=
  fun he => length_next_lt he h

theorem expect_takes {t : Token} {s : State} (h : s.current.token = t) (ht : t ≠ .endOfFile) : Takes (expect t) s := by
  intro he
  rw [expect_run, if_pos h]
  exact length_next_lt he (h ▸ ht)

/-! ## Repetition -/

/-- If a step of a repetition goes on, it has taken a lexeme. -/
def MoreTakes (p : Parser (Bool × σ)) (s : State) : Prop :=
  (p s).1.1 = true → (p s).2.lexemes.length < s.lexemes.length

theorem Takes.more {p : Parser (Bool × σ)} {s : State} (h : Takes p s) (he : s.Ended) : MoreTakes p s :=
  fun _ => h he

theorem MoreTakes.token_bind {f : Token → Parser (Bool × σ)} {s : State} (h : MoreTakes (f s.current.token) s) :
    MoreTakes (token >>= f) s := h

/-- A step that does not go on need not take a lexeme. -/
theorem MoreTakes.stop (x : σ) (s : State) : MoreTakes (pure (false, x)) s :=
  fun h => nomatch (show false = true from h)

/-- A step of a repetition that goes on takes a lexeme; `n` bounds the lexemes that are left. -/
def StepTakes (n : Nat) (step : σ → Parser (Bool × σ)) : Prop :=
  ∀ x s, s.Ended → s.lexemes.length ≤ n → MoreTakes (step x) s

/-- The state after a repetition: that after its first step, or that after the rest of it. -/
theorem repeatFor_succ (step : σ → Parser (Bool × σ)) (k : Nat) (x : σ) (s : State) :
    repeatFor step (k + 1) x s =
      if (step x s).1.1 then repeatFor step k (step x s).1.2 (step x s).2
      else ((step x s).1.2, (step x s).2) := by
  show (if (step x s).1.1 then repeatFor step k (step x s).1.2 else pure (step x s).1.2) (step x s).2 = _
  split <;> rfl

/-- What every step of a repetition does to the state, all of it does, if going past the bound does it
too. -/
theorem repeatFor_induct {R : State → State → Prop} (refl : ∀ s, R s s.exhaust)
    (trans : ∀ {s t u}, R s t → R t u → R s u) {step : σ → Parser (Bool × σ)}
    (hstep : ∀ x s, R s (step x s).2) (k : Nat) (x : σ) (s : State) : R s (repeatFor step k x s).2 := by
  induction k generalizing x s with
  | zero => exact refl s
  | succ k ih =>
    rw [repeatFor_succ]
    split
    · exact trans (hstep x s) (ih _ _)
    · exact hstep x s

section

variable {step : σ → Parser (Bool × σ)} {P Q : σ → State → Prop}
  (hexhaust : ∀ (x : σ) (s : State), ¬Q x s.exhaust)
  (hback : ∀ (x : σ) (s : State), Q (step x s).1.2 (step x s).2 → Q x s)
include hexhaust hback

/-- What holds at the end of a repetition and before every step after which it holds, holds at the start. -/
theorem repeatFor_back (k : Nat) (x : σ) (s : State)
    (h : Q (repeatFor step k x s).1 (repeatFor step k x s).2) : Q x s := by
  induction k generalizing x s with
  | zero => exact absurd h (hexhaust x s)
  | succ k ih =>
    rw [repeatFor_succ] at h
    split at h
    · exact hback x s (ih _ _ h)
    · exact hback x s h

theorem repeatFor_keeps (hstep : ∀ x s, P x s → Q (step x s).1.2 (step x s).2 → P (step x s).1.2 (step x s).2) (k : Nat)
    (x : σ) (s : State) (hx : P x s) (h : Q (repeatFor step k x s).1 (repeatFor step k x s).2) :
    P (repeatFor step k x s).1 (repeatFor step k x s).2 := by
  induction k generalizing x s with
  | zero => exact absurd h (hexhaust x s)
  | succ k ih =>
    rw [repeatFor_succ] at h ⊢
    split
    · next hmore =>
      rw [if_pos hmore] at h
      exact ih _ _ (hstep x s hx (repeatFor_back hexhaust hback k _ _ h)) h
    · next hmore =>
      rw [if_neg hmore] at h
      exact hstep x s hx h

end

/-- A repetition whose bound covers the lexemes that are left ends by itself. -/
theorem repeatFor_exhausted {step : σ → Parser (Bool × σ)}
    (hstep : ∀ x s, Advances n s (step x s).2) (htakes : StepTakes n step) (k : Nat) (x : σ) (s : State)
    (he : s.Ended) (hn : s.lexemes.length ≤ n) (hk : s.lexemes.length ≤ k) :
    (repeatFor step k x s).2.exhausted = s.exhausted := by
  induction k generalizing x s with
  | zero => simp [State.lexemes] at hk
  | succ k ih =>
    have hadv := hstep x s
    have hlen := hadv.lexemes.length_le
    rw [repeatFor_succ]
    split
    · next hmore =>
      have hlt := htakes x s he hn hmore
      rw [ih _ _ (he.of_suffix hadv.lexemes) (by omega) (by omega), hadv.bounded he hn]
    · exact hadv.bounded he hn


theorem loop_run (step : σ → Parser (Bool × σ)) (x : σ) (s : State) : loop step x s = repeatFor step s.fuel x s := rfl

theorem loop_advances {step : σ → Parser (Bool × σ)} (hstep : ∀ x s, Advances n s (step x s).2)
    (htakes : StepTakes n step) (x : σ) (s : State) : Advances n s (loop step x s).2 := by
  -- The bound zero covers no lexemes, so that it leaves all but the last of what is to be shown.
  have h : Advances 0 s (loop step x s).2 :=
    repeatFor_induct exhaust_advances .trans (fun x s => (hstep x s).mono (Nat.zero_le n)) s.fuel x s
  refine { h with bounded := fun he hn => ?_ }
  exact repeatFor_exhausted hstep htakes _ x s he hn (Nat.le_of_eq (length_lexemes s))

theorem loop_reads {step : σ → Parser (Bool × σ)} (hstep : ∀ x, Reads n (step x))
    (htakes : StepTakes n step) (x : σ) : Reads n (loop step x) := by
  intro s
  refine ⟨loop_advances (fun x s => (hstep x s).1) htakes x s, ?_⟩
  refine repeatFor_induct (R := SameDeclarations) ?_ .trans (fun x s => (hstep x s).2) s.fuel x s
  exact fun s => ⟨rfl, rfl, rfl, rfl, rfl, rfl, rfl⟩

def separatedStep (separator : Token) (item : σ → Parser σ) (x : σ) : Parser (Bool × σ) := do
  let x ← item x
  if (← token) = separator then
    advance
    return (true, x)
  else return (false, x)

theorem separated_eq (separator : Token) (item : σ → Parser σ) (x : σ) :
    separated separator item x = loop (separatedStep separator item) x := rfl

theorem separatedStep_run (separator : Token) (item : σ → Parser σ) (x : σ) (s : State) :
    separatedStep separator item x s =
      if (item x s).2.current.token = separator then ((true, (item x s).1), (item x s).2.next)
      else ((false, (item x s).1), (item x s).2) := by
  show (if (item x s).2.current.token = separator then _ else _ : Parser (Bool × σ)) (item x s).2 = _
  split <;> rfl

theorem separatedStep_takes {separator : Token} (hsep : separator ≠ .endOfFile) {item : σ → Parser σ}
    (hitem : ∀ x s, Advances n s (item x s).2) : StepTakes n (separatedStep separator item) := by
  intro x s he _
  unfold MoreTakes
  rw [separatedStep_run]
  split
  · next htoken =>
    intro _
    have hadv := (hitem x s).lexemes
    have hlt := length_next_lt (he.of_suffix hadv) (htoken ▸ hsep)
    exact Nat.lt_of_lt_of_le hlt hadv.length_le
  · simp

@[grind ←] theorem separated_reads {separator : Token} {item : σ → Parser σ} (hitem : ∀ x, Reads n (item x)) (x : σ)
    (hsep : separator ≠ .endOfFile) : Reads n (separated separator item x) := by
  refine loop_reads (fun x => ?_) (separatedStep_takes hsep fun x s => (hitem x s).1) x
  grind [separatedStep]

/-! ## Names -/

@[grind ←] theorem identifier_reads : Reads n identifier := by grind [identifier]

theorem identifier_takes {s : State} (h : s.current.token = .identifier) : Takes identifier s := by
  intro he
  rw [identifier_run, if_pos h]
  exact length_next_lt he (by simp [h])

@[grind ←] theorem identifiers_reads : Reads n identifiers :=
  separated_reads (fun _ => identifier_reads.bind fun _ => .pure _) [] (by decide)

@[grind ←] theorem resolve_reads : Reads n resolve := by grind [resolve]

theorem resolve_takes {s : State} (h : s.current.token ≠ .endOfFile) : Takes resolve s := by
  intro he
  rw [resolve_run]
  split
  · exact length_next_lt he h
  · have hended := he.of_suffix (report_advances (n := 0) (.naming (.undefined s.current.text)) s).lexemes
    have hlt := length_next_lt hended (by rw [report_current]; exact h)
    rwa [report_lexemes] at hlt

end Parser

end MiniPascal
