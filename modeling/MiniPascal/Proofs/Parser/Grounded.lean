import MiniPascal.Proofs.Parser.Declaring
import MiniPascal.Proofs.Scope.Table
import MiniPascal.Proofs.Tree.Typing

/-!
# States that obey the typing rules

In the analysis of a source that is accepted, every declared name stands for something that the typing
rules allow, given the context of the whole program. Parts of the analysis that only read keep such
states, and what they yield is typed.
-/

namespace MiniPascal

/-- The value of a number is what its class promises, and no lexeme makes pointers if sizes are to be
exact. -/
structure Lexeme.Regular (exact : Prop) (l : Lexeme) : Prop where
  integer : l.token = .integerLiteral → ∃ n, l.value.getD (.integer 0) = .integer n ∧ (Datum.integer n).Bounded
  real : l.token = .realLiteral → ∃ x, l.value.getD (.real 0) = .real x
  caret : exact → l.token ≠ .caret

namespace Context

/-- A table of types on the way to that of the whole program. -/
structure Stage (C : Context) (ts : TypeTable) : Prop where
  builtins : TypeTable.builtins.Grows ts
  formed : ts.Formed C.exact
  ordered : ts.Ordered
  grows : ts.Grows C.types
  retains : ts.Retains C.types

/-- A subprogram as a declared name of a level: calls of it reach it. -/
structure Offers (C : Context) (ts : TypeTable) (level : Int) (r : Routine) : Prop where
  reached : C.Calls { routine := r.id, hops := C.levels.length - level, result := r.result } r
  params : ∀ f ∈ r.params, ts.Has f.type

def Allows (C : Context) (ts : TypeTable) (level : Int) : Declaration → Prop
  | .variable offset type =>
    ts.Has type ∧ C.Declares { hops := C.levels.length - level, offset, type }
  | .constant value type => ts.Has type ∧ C.Value type value
  | .procedure r => C.Offers ts level r ∧ r.result = none
  | .function r => C.Offers ts level r ∧ ∃ t, r.result = some t ∧ ts.Has t ∧ ts.isAggregate t = false
  | .typeName type => ts.Has type

/-- A declared name belongs to a block around and stands for something that is allowed. -/
structure Admits (C : Context) (ts : TypeTable) (e : Scope.Entry Declaration) : Prop where
  nonneg : 0 ≤ e.level
  level : e.level ≤ C.levels.length
  value : C.Allows ts e.level e.value

end Context

namespace Parser

open State

variable {α β σ : Type} {s : State}

/-- Nothing is wrong so far, and no bound was met. -/
structure State.Clean (s : State) : Prop where
  diagnostics : s.diagnostics = []
  exhausted : s.exhausted = false

/-- What is not reported in the end was not reported before. -/
theorem State.Advances.silent {n : Nat} {t : State} (h : Advances n s t) (ht : t.diagnostics = []) :
    s.diagnostics = [] := List.prefix_nil.mp (ht ▸ h.diagnostics)

theorem State.Advances.clean {n : Nat} {t : State} (h : Advances n s t) (ht : t.Clean) : s.Clean where
  diagnostics := h.silent ht.diagnostics
  exhausted := by
    cases hs : s.exhausted with
    | false => rfl
    | true => rw [← h.exhausted hs, ht.exhausted]

/-- A state in which everything that is declared obeys the typing rules. -/
structure State.Grounded (C : Context) (s : State) : Prop where
  lastError : s.diagnostics = [] → s.lastError = none
  ended : s.Ended
  lexemes : ∀ l ∈ s.lexemes, l.Regular C.exact
  short : C.exact → s.lexemes.length ≤ 2 ^ 48
  stage : C.Stage s.types
  level : s.level = C.levels.length
  enclosing : s.enclosing = C.ids
  entries : ∀ e ∈ s.scope.entries, C.Admits s.types e
  forward : ∀ f ∈ s.forward, ¬C.exact ∧ s.types.Waits f.type

variable {C : Context} {now : TypeTable} {c : Prop}

theorem State.Grounded.reads {t : State} (h : s.Grounded C) (hadv : Advances 0 s t) (hsame : SameDeclarations s t) :
    t.Grounded C where
  lastError := hadv.lastError h.lastError
  ended := h.ended.of_suffix hadv.lexemes
  lexemes l hl := h.lexemes l (hadv.lexemes.subset hl)
  short hx := Nat.le_trans hadv.lexemes.length_le (h.short hx)
  stage := hsame.types ▸ h.stage
  level := hsame.level.trans h.level
  enclosing := hsame.enclosing.trans h.enclosing
  entries := by
    rw [hsame.scope, hsame.types]
    exact h.entries
  forward := by
    rw [hsame.forward, hsame.types]
    exact h.forward

section

variable (h : s.diagnostics = [] → s.lastError = none)

include h

theorem State.diagnostics_report_ne (p : Problem) : (s.report p).diagnostics ≠ [] := by
  intro hnone
  have hs := (report_advances (n := 0) p s).silent hnone
  simp [State.report, h hs] at hnone

theorem State.not_clean_report (p : Problem) :
    ¬(s.report p).Clean := fun hclean => diagnostics_report_ne h p hclean.diagnostics

theorem State.lexemes_view {l : Lexeme} {rest : List Lexeme}
    (hnone : (view (l :: rest) s).diagnostics = []) : (view (l :: rest) s).lexemes = l :: rest := by
  have hreport (p : Problem) :
      (view rest { report p { s with current := l, rest } with line := l.line }).diagnostics ≠ [] := by
    intro hview
    have hback := (view_advances (n := 0) rest _ (by
      show rest <:+ (report p _).lexemes
      rw [report_lexemes]
      exact List.suffix_cons l rest)).silent hview
    exact diagnostics_report_ne (s := { s with current := l, rest }) h p hback
  rw [view] at hnone ⊢
  split at hnone
  · exact absurd hnone (hreport _)
  · exact absurd hnone (hreport _)
  · rfl

/-- If the next lexeme comes into view without a report, only the current one is taken. -/
theorem State.lexemes_next (hended : s.Ended)
    (ht : s.current.token ≠ .endOfFile) (hnone : s.next.diagnostics = []) : s.next.lexemes = s.rest := by
  have hne := hended.rest_ne_nil ht
  unfold next at hnone ⊢
  cases hrest : s.rest with
  | nil => exact absurd hrest hne
  | cons l rest =>
    rw [hrest] at hnone
    exact lexemes_view (by exact h) hnone

end

/-- A part of the analysis only reads, and what it yields from a state that obeys the typing rules has a
property, provided that nothing is reported and that a condition holds. -/
structure Gives (C : Context) (now : TypeTable) (c : Prop) (p : Parser α) (H : α → Prop) : Prop where
  reads : Reads 0 p
  gives : c → ∀ s, s.Grounded C → s.types = now → (p s).2.Clean → H (p s).1

namespace Gives

variable {p : Parser α} {f : α → Parser β} {G : α → Prop} {H : β → Prop}

theorem bind (hp : Gives C now c p G) (hf : ∀ a, Gives C now (c ∧ G a) (f a) H) : Gives C now c (p >>= f) H where
  reads := hp.reads.bind fun a => (hf a).reads
  gives hc s hs hnow hclean := by
    obtain ⟨hadv, hsame⟩ := hp.reads s
    have hmid := ((hf _).reads _).1.clean hclean
    have hG := hp.gives hc s hs hnow hmid
    exact (hf _).gives ⟨hc, hG⟩ _ (hs.reads hadv hsame) (hsame.types.trans hnow) hclean

theorem pure {a : α} {H : α → Prop} (h : c → H a) : Gives C now c (pure a : Parser α) H where
  reads := .pure a
  gives hc _ _ _ _ := h hc

theorem mono {d : Prop} {H' : α → Prop} (hd : d → c) (h : Gives C now c p G) (hH : d → ∀ a, G a → H' a) :
    Gives C now d p H' where
  reads := h.reads
  gives hdd s hs hnow hclean := hH hdd _ (h.gives (hd hdd) s hs hnow hclean)

theorem weaken (h : Gives C now True p G) : Gives C now c p G := h.mono (fun _ => trivial) fun _ _ h => h

/-- What follows a part of which nothing is asked but that it only reads. -/
theorem read (hp : Reads 0 p) (hf : ∀ a, Gives C now c (f a) H) : Gives C now c (p >>= f) H :=
  bind (G := fun _ => True) ⟨hp, fun _ _ _ _ _ => trivial⟩ fun a => (hf a).mono And.left fun _ _ h => h

/-- A part that reports a problem yields nothing that counts. -/
theorem report {p : Problem} (hp : p.isPointerBase = false) {H : Unit → Prop} : Gives C now c (report p) H where
  reads := report_reads hp
  gives _ _ hs _ hclean := absurd hclean (not_clean_report hs.lastError p)

theorem report_bind {p : Problem} (hp : p.isPointerBase = false) {f : Unit → Parser β} (hf : Reads 0 (f ())) :
    Gives C now c (Parser.report p >>= f) H :=
  (report hp (H := fun _ => False)).bind fun _ => ⟨hf, fun h => h.2.elim⟩

section

variable {f : Unit → Parser β}

theorem require {b : Bool} {p : Problem} (hp : p.isPointerBase = false) (hf : Gives C now (c ∧ b = true) (f ()) H) :
    Gives C now c (require b p >>= f) H := by
  refine bind (G := fun _ => b = true) ?_ fun _ => hf
  unfold Parser.require
  split
  · next hb => exact pure fun _ => hb
  · exact report hp

theorem advance (hf : Gives C now c (f ()) H) : Gives C now c (advance >>= f) H := read advance_reads fun _ => hf

theorem expect {t : Token} (hf : Gives C now c (f ()) H) : Gives C now c (expect t >>= f) H :=
  read (expect_reads t) fun _ => hf

end

theorem get {f : State → Parser β} (hf : ∀ s, Gives C now (c ∧ s.Grounded C ∧ s.types = now) (f s) H) :
    Gives C now c (get >>= f) H := bind ⟨Reads.get, fun _ _ hs hnow _ => ⟨hs, hnow⟩⟩ hf

theorem types {f : TypeTable → Parser β} (hf : ∀ ts, Gives C now (c ∧ ts = now) (f ts) H) :
    Gives C now c (types >>= f) H := bind ⟨types_reads, fun _ _ _ hnow _ => hnow⟩ hf

theorem level {f : Int → Parser β} (hf : ∀ l : Int, Gives C now (c ∧ l = C.levels.length) (f l) H) :
    Gives C now c (level >>= f) H := bind ⟨level_reads, fun _ _ hs _ _ => hs.level⟩ hf

theorem line {f : Nat → Parser β} (hf : ∀ n, Gives C now c (f n) H) : Gives C now c (line >>= f) H := read line_reads hf

theorem token {f : Token → Parser β} (hf : ∀ t, Gives C now c (f t) H) : Gives C now c (token >>= f) H :=
  read token_reads hf

/-- Past a bound nothing counts. -/
theorem exhaust (a : α) (H : α → Prop) : Gives C now c (fun s => (a, s.exhaust) : Parser α) H where
  reads s := ⟨exhaust_advances s, ⟨rfl, rfl, rfl, rfl, rfl, rfl, rfl⟩⟩
  gives _ _ _ _ hclean := by simpa [State.exhaust] using hclean.exhausted

theorem of_fuel {p : Nat → Parser α} (h : ∀ k, Gives C now c (p k) G) : Gives C now c (fun s => p s.fuel s) G where
  reads s := (h s.fuel).reads s
  gives hc s hs hnow hclean := (h s.fuel).gives hc s hs hnow hclean

/-- A property that every step of a repetition keeps holds of its result. -/
theorem loop {step : σ → Parser (Bool × σ)} {I : σ → Prop}
    (hstep : ∀ x, Gives C now (c ∧ I x) (step x) fun r => I r.2) {x : σ} (hx : c → I x) :
    Gives C now c (loop step x) I where
  reads := loop_reads (fun x => (hstep x).reads) (fun _ s _ hn => absurd hn (by simp [State.lexemes])) x
  gives hc s hs hnow hclean := by
    refine (repeatFor_keeps (P := fun x s => I x ∧ s.Grounded C ∧ s.types = now)
      (Q := fun _ s => s.Clean) ?_ ?_ ?_ s.fuel x s ⟨hx hc, hs, hnow⟩ hclean).1
    · exact fun _ s h => by simpa [State.exhaust] using h.exhausted
    · exact fun x s h => ((hstep x).reads s).1.clean h
    · rintro x s ⟨hI, hs, hnow⟩ h
      obtain ⟨hadv, hsame⟩ := (hstep x).reads s
      exact ⟨(hstep x).gives ⟨hc, hI⟩ s hs hnow h, hs.reads hadv hsame, hsame.types.trans hnow⟩

theorem separated {separator : Token} {item : σ → Parser σ} {I : σ → Prop}
    (hitem : ∀ x, Gives C now (c ∧ I x) (item x) I) {x : σ} (hx : c → I x) :
    Gives C now c (separated separator item x) I := by
  refine loop (fun x => ?_) hx
  refine (hitem x).bind fun y => token fun t => ?_
  split
  · exact advance <| pure And.right
  · exact pure And.right

/-- A name that is found stands for something that the typing rules allow. -/
theorem resolve {f : Scope.Entry Declaration → Parser β} (hf : ∀ e, Gives C now (c ∧ C.Admits now e) (f e) H) :
    Gives C now c (resolve >>= f) H := by
  refine bind ⟨resolve_reads, fun _ s hs hnow hclean => ?_⟩ hf
  rw [resolve_run] at hclean ⊢
  cases h : s.scope.lookup? s.current.text with
  | some e => exact hnow ▸ hs.entries e (Scope.mem_of_lookup? h)
  | none =>
    simp only [h] at hclean
    exact absurd ((next_advances (n := 0) _).clean hclean) (not_clean_report hs.lastError _)

end Gives

end Parser

end MiniPascal
