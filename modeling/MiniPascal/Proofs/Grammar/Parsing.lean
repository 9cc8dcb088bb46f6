import MiniPascal.Proofs.Grammar.Basic
import MiniPascal.Proofs.Parser.Grounded

/-!
# Parts of the analysis and phrases

As long as nothing is reported, the tokens that a part of the analysis takes are a phrase of the grammar. The
rules here say that for the steps from which all parts are put together.
-/

namespace MiniPascal

/-- The built-in types of numbers, truth values and characters. -/
def TypeId.Basic (t : TypeId) : Prop := t.index < 4

instance (t : TypeId) : Decidable t.Basic := inferInstanceAs (Decidable (_ < _))

namespace Parser

open State Ebnf

variable {α β σ : Type} {q : Problem} {step : σ → Parser (Bool × σ)}

namespace State

def tokens (s : State) : List Token := s.lexemes.map (·.token)

/-- A state that the analysis of a source can come to. The basic types have no hosts, and only types that were
declared wait for their bases. -/
structure Viable (s : State) : Prop where
  lastError : s.diagnostics = [] → s.lastError = none
  ended : s.Ended
  types : TypeTable.builtins.Grows s.types
  hostless : ∀ t : TypeId, t.Basic → (s.types.get t).base = none
  forward : ∀ f ∈ s.forward, ¬f.type.Basic

variable {s : State}

theorem Viable.reads {t : State} (h : s.Viable) (hadv : Advances 0 s t) (hsame : SameDeclarations s t) : t.Viable where
  lastError := hadv.lastError h.lastError
  ended := h.ended.of_suffix hadv.lexemes
  types := hsame.types ▸ h.types
  hostless := hsame.types ▸ h.hostless
  forward := hsame.forward ▸ h.forward

theorem viable_builtins (hlast : s.lastError = none) (hended : s.Ended) (htypes : s.types = .builtins)
    (hforward : s.forward = []) : s.Viable where
  lastError _ := hlast
  ended := hended
  types := htypes ▸ .refl _
  hostless t ht := by
    have hbasic : ∀ i < 4, (TypeTable.builtins.get ⟨i⟩).base = none := by decide
    rw [htypes]
    exact hbasic t.index ht
  forward f hf := by
    rw [hforward] at hf
    cases hf

theorem tokens_eq {t : State} (h : t.lexemes = s.lexemes) : t.tokens = s.tokens := by
  unfold tokens
  rw [h]

theorem tokens_next (h : s.Viable) (ht : s.current.token ≠ .endOfFile) (hclean : s.next.Clean) :
    s.tokens = s.current.token :: s.next.tokens := by
  unfold tokens
  rw [lexemes_next h.lastError h.ended ht hclean.diagnostics]
  rfl

end State

/-- A part of the analysis moves forward and adds types. -/
def Goes (p : Parser α) : Prop := ∀ s, Advances 0 s (p s).2 ∧ s.types.Grows (p s).2.types

namespace Goes

variable {p : Parser α} {f : α → Parser β}

theorem bind (hp : Goes p) (hf : ∀ a, Goes (f a)) : Goes (p >>= f) := fun s =>
  ⟨(hp s).1.trans (hf (p s).1 (p s).2).1, (hp s).2.trans (hf (p s).1 (p s).2).2⟩

theorem pure (a : α) : Goes (pure a : Parser α) := fun s => ⟨.refl 0 s, .refl _⟩

theorem of_moves (h : Moves 0 p) : Goes p := fun s => ⟨(h s).1, (h s).2.types⟩

theorem of_reads (h : Reads 0 p) : Goes p := of_moves h.moves

theorem loop (hstep : ∀ x, Goes (step x)) (k : Nat) (x : σ) : Goes (repeatFor step k x) := fun s =>
  ⟨repeatFor_induct exhaust_advances .trans (fun x s => (hstep x s).1) k x s,
    repeatFor_induct (R := fun s t => s.types.Grows t.types) (fun _ => .refl _) .trans (fun x s => (hstep x s).2) k x s⟩

end Goes

/-- From a state with a property a part of the analysis leads to a result and a state with a property, provided that
nothing is reported. -/
structure Ensures (c : State → Prop) (p : Parser α) (H : α → State → Prop) : Prop where
  goes : Goes p
  holds : ∀ s, s.Viable → c s → (p s).2.Clean → (p s).2.Viable ∧ H (p s).1 (p s).2

/-- The tokens that a part of the analysis takes are a phrase. -/
def Parses (p : Parser α) (e : Ebnf) : Prop :=
  ∀ K, Ensures (fun s => K s.tokens) p fun _ s => e.After K s.tokens

/-- What is left starts with a token. -/
def Sees (t : Token) (K : List Token → Prop) (l : List Token) : Prop := l.head? = some t ∧ K l

/-- The tokens that a part of the analysis takes are a phrase, if it starts at a given one. -/
def ParsesAt (t : Token) (p : Parser α) (e : Ebnf) : Prop :=
  ∀ K, Ensures (fun s => Sees t K s.tokens) p fun _ s => e.After K s.tokens

/-- A part of the analysis takes no tokens. -/
def Stays (p : Parser α) : Prop :=
  ∀ K : List Token → Prop, Ensures (fun s => K s.tokens) p fun _ s => K s.tokens

namespace Ensures

variable {c d : State → Prop} {p : Parser α} {f : α → Parser β} {G H : α → State → Prop} {I : β → State → Prop}
  {K : List Token → Prop}

theorem bind (hp : Ensures c p G) (hf : ∀ a, Ensures (G a) (f a) I) : Ensures c (p >>= f) I where
  goes := hp.goes.bind fun a => (hf a).goes
  holds s hs hc hclean := by
    have hmid := ((hf (p s).1).goes (p s).2).1.clean hclean
    obtain ⟨hs', hG⟩ := hp.holds s hs hc hmid
    exact (hf (p s).1).holds (p s).2 hs' hG hclean

theorem pure {a : α} (h : ∀ s, c s → H a s) : Ensures c (pure a : Parser α) H where
  goes := .pure a
  holds s hs hc _ := ⟨hs, h s hc⟩

theorem pre (h : ∀ s, d s → c s) (hp : Ensures c p H) : Ensures d p H where
  goes := hp.goes
  holds s hs hd := hp.holds s hs (h s hd)

theorem post (h : ∀ a s, G a s → H a s) (hp : Ensures c p G) : Ensures c p H where
  goes := hp.goes
  holds s hs hc hclean := ⟨(hp.holds s hs hc hclean).1, h _ _ (hp.holds s hs hc hclean).2⟩

theorem of_reads (hp : Reads 0 p) (h : ∀ s, s.Viable → c s → (p s).2.Clean → H (p s).1 (p s).2) : Ensures c p H where
  goes := .of_reads hp
  holds s hs hc hclean := ⟨hs.reads (hp s).1 (hp s).2, h s hs hc hclean⟩

theorem keep {Q : TypeTable → Prop} (hQ : ∀ ts ts', ts.Grows ts' → Q ts → Q ts') (hp : Ensures c p H) :
    Ensures (fun s => Q s.types ∧ c s) p fun a s => Q s.types ∧ H a s where
  goes := hp.goes
  holds s hs hc hclean :=
    ⟨(hp.holds s hs hc.2 hclean).1, hQ _ _ (hp.goes s).2 hc.1, (hp.holds s hs hc.2 hclean).2⟩

/-- One of two properties. -/
theorem or (hp : Ensures c p G) (hp' : Ensures d p H) : Ensures (fun s => c s ∨ d s) p fun a s => G a s ∨ H a s where
  goes := hp.goes
  holds s hs hc hclean := by
    rcases hc with hc | hd
    · exact ⟨(hp.holds s hs hc hclean).1, .inl (hp.holds s hs hc hclean).2⟩
    · exact ⟨(hp'.holds s hs hd hclean).1, .inr (hp'.holds s hs hd hclean).2⟩

/-- A condition that the state has no part in. -/
theorem given {P : Prop} (hp : Goes p) (h : P → Ensures c p H) : Ensures (fun s => P ∧ c s) p H where
  goes := hp
  holds s hs hc := (h hc.1).holds s hs hc.2

/-- After a report nothing has to be ensured. -/
theorem report (hq : q.isPointerBase = false) {H : Unit → State → Prop} : Ensures c (report q) H :=
  of_reads (report_reads hq) fun _ hs _ hclean => absurd hclean (not_clean_report hs.lastError q)

theorem report_bind (hq : q.isPointerBase = false) {f : Unit → Parser β} (hf : Goes (f ())) :
    Ensures c (Parser.report q >>= f) I :=
  (report hq (H := fun _ _ => False)).bind fun _ => ⟨hf, fun _ _ hfalse => hfalse.elim⟩

theorem required (b : Bool) (hq : q.isPointerBase = false) :
    Ensures c (Parser.require b q) fun _ s => b = true ∧ c s := by
  unfold Parser.require
  split
  · next hb => exact pure fun s hs => ⟨hb, hs⟩
  · exact report hq

theorem types_known : Ensures c types fun ts s => s.types = ts ∧ c s := of_reads types_reads fun _ _ hc _ => ⟨rfl, hc⟩

/-! What follows a step that reads something. -/

theorem require {b : Bool} {f : Unit → Parser β} (hq : q.isPointerBase = false) (hf : Ensures c (f ()) I) :
    Ensures c (require b q >>= f) I := (required b hq).bind fun _ => hf.pre fun _ => And.right

theorem types {f : TypeTable → Parser β} (hf : ∀ ts, Ensures c (f ts) I) : Ensures c (types >>= f) I :=
  types_known.bind fun ts => (hf ts).pre fun _ => And.right

theorem text {f : Text → Parser β} (hf : ∀ t, Ensures c (f t) I) : Ensures c (text >>= f) I :=
  (of_reads text_reads fun _ _ hc _ => hc).bind hf

theorem line {f : Nat → Parser β} (hf : ∀ n, Ensures c (f n) I) : Ensures c (line >>= f) I :=
  (of_reads line_reads fun _ _ hc _ => hc).bind hf

theorem level {f : Int → Parser β} (hf : ∀ n, Ensures c (f n) I) : Ensures c (level >>= f) I :=
  (of_reads level_reads fun _ _ hc _ => hc).bind hf

/-- The lexeme in view. -/
theorem current {f : State → Parser β} (hf : ∀ a, Ensures (fun s => Sees a.current.token K s.tokens) (f a) I) :
    Ensures (fun s => K s.tokens) (get >>= f) I :=
  (of_reads Reads.get fun _ _ hK _ => ⟨rfl, hK⟩).bind hf

theorem token {f : Token → Parser β} (hf : ∀ t, Ensures (fun s => Sees t K s.tokens) (f t) I) :
    Ensures (fun s => K s.tokens) (token >>= f) I :=
  (of_reads token_reads fun _ _ hK _ => ⟨rfl, hK⟩).bind hf

theorem ifToken {t : Token} {p q : Parser β} (hp : Ensures (fun s => Sees t K s.tokens) p I)
    (hq : Ensures (fun s => K s.tokens) q I) :
    Ensures (fun s => K s.tokens) (Parser.token >>= fun t' => if t' = t then p else q) I := by
  refine .token fun t' => ?_
  split
  · next heq => exact heq ▸ hp
  · exact hq.pre fun _ => And.right

/-- The token in view is taken. -/
theorem advance {t : Token} {f : Unit → Parser β} (ts : List Token) (ht : t ≠ .endOfFile ∧ t ∈ ts)
    (hf : Ensures (fun s => (oneOf ts).After K s.tokens) (f ()) I) :
    Ensures (fun s => Sees t K s.tokens) (advance >>= f) I := by
  refine (of_reads advance_reads fun s hs ⟨hhead, hK⟩ hclean => ?_).bind fun _ => hf
  have hcurrent : s.current.token = t := Option.some.inj hhead
  have hnext := tokens_next hs (hcurrent ▸ ht.1) hclean
  rw [hcurrent] at hnext
  exact .token ht.2 (hnext ▸ hK)

theorem shift {t : Token} {f : Unit → Parser β} (ht : t ≠ .endOfFile)
    (hf : Ensures (fun s => (tok t).After K s.tokens) (f ()) I) :
    Ensures (fun s => Sees t K s.tokens) (Parser.advance >>= f) I := advance [t] ⟨ht, List.mem_singleton.mpr rfl⟩ hf

theorem taken {t : Token} (ht : t ≠ .endOfFile) : ParsesAt t Parser.advance (tok t) := fun _ =>
  shift ht (.pure fun _ h => h)

theorem expected {t : Token} (ht : t ≠ .endOfFile) : Parses (Parser.expect t) (tok t) := fun K =>
  ifToken (taken ht K) (report rfl)

theorem expect {t : Token} {f : Unit → Parser β} (ht : t ≠ .endOfFile)
    (hf : Ensures (fun s => (tok t).After K s.tokens) (f ()) I) :
    Ensures (fun s => K s.tokens) (Parser.expect t >>= f) I := (expected ht _).bind fun _ => hf

theorem identifier : Parses identifier ident := fun _ =>
  .ifToken (.text fun _ => .shift nofun <| .pure fun _ h => h) (.report_bind rfl (.pure _))

/-- A name that is resolved is taken. -/
theorem resolve : ParsesAt .identifier resolve ident := by
  refine fun K => bind (G := fun _ s => Sees .identifier K s.tokens) (of_reads Reads.get fun _ _ hc _ => hc) fun s => ?_
  split
  · exact .shift nofun <| .pure fun _ h => h
  · exact report_bind rfl (.of_reads (advance_reads.bind fun _ => .pure _))

/-- Past a bound nothing has to be ensured. -/
theorem exhaust (a : α) : Ensures c (fun s => (a, s.exhaust) : Parser α) H where
  goes s := ⟨exhaust_advances s, .refl _⟩
  holds _ _ _ hclean := by simpa [State.exhaust] using hclean.exhausted

theorem of_fuel {p : Nat → Parser α} (h : ∀ k, Ensures c (p k) H) : Ensures c (fun s => p s.fuel s) H where
  goes s := (h s.fuel).goes s
  holds s hs hc hclean := (h s.fuel).holds s hs hc hclean

/-- A repetition, given what holds after its first step. -/
theorem repeat_once {G : Bool × σ → State → Prop} {Q : σ → State → Prop} {x : σ} (hstep : Ensures c (step x) G)
    (hmore : ∀ k y, Ensures (G (true, y)) (repeatFor step k y) Q) (hlast : ∀ y s, G (false, y) s → Q y s) (k : Nat) :
    Ensures c (repeatFor step k x) Q := by
  cases k with
  | zero => exact .exhaust x
  | succ k =>
    refine hstep.bind fun r => ?_
    obtain ⟨more, y⟩ := r
    cases more with
    | true => exact hmore k y
    | false => exact .pure (hlast y)

/-- A repetition, with what holds before every step and what holds after the last one. -/
theorem loop {J Q : σ → State → Prop}
    (hstep : ∀ x, Ensures (J x) (step x) fun r s => if r.1 then J r.2 s else Q r.2 s) (x : σ) :
    Ensures (J x) (loop step x) Q := by
  refine .of_fuel (p := fun k => repeatFor step k x) fun k => ?_
  induction k generalizing x with
  | zero => exact .exhaust x
  | succ k ih =>
    refine (hstep x).bind fun r => ?_
    obtain ⟨more, y⟩ := r
    cases more with
    | true => exact ih y
    | false => exact .pure fun _ h => h

end Ensures

theorem Parses.goes {p : Parser α} {e : Ebnf} (hp : Parses p e) : Goes p := (hp fun _ => True).goes

namespace Stays

variable {p : Parser α} {f : α → Parser β}

theorem goes (hp : Stays p) : Goes p := (hp fun _ => True).goes

theorem bind (hp : Stays p) (hf : ∀ a, Stays (f a)) : Stays (p >>= f) := fun K => (hp K).bind fun a => hf a K

theorem pure (a : α) : Stays (pure a : Parser α) := fun _ => .pure fun _ h => h

theorem types {f : TypeTable → Parser β} (hf : ∀ ts, Stays (f ts)) : Stays (types >>= f) := fun K =>
  .types fun ts => hf ts K

theorem line {f : Nat → Parser β} (hf : ∀ n, Stays (f n)) : Stays (line >>= f) := fun K => .line fun n => hf n K

theorem level {f : Int → Parser β} (hf : ∀ n, Stays (f n)) : Stays (level >>= f) := fun K => .level fun n => hf n K

theorem report_bind (hq : q.isPointerBase = false) {f : Unit → Parser β} (hf : Goes (f ())) :
    Stays (Parser.report q >>= f) := fun _ => .report_bind hq hf

theorem require {b : Bool} {f : Unit → Parser β} (hq : q.isPointerBase = false) (hf : Stays (f ())) :
    Stays (require b q >>= f) := fun K => .require hq (hf K)

theorem warnIf (b : Bool) (q : Concern) : Stays (warnIf b q) := fun K => by
  refine .of_reads (warnIf_reads b q) fun s _ hK _ => ?_
  unfold Parser.warnIf
  split <;> exact hK

end Stays

/-- Phrases that are repeated as long as there are any. -/
theorem loop_parses {e : Ebnf} (hstep : ∀ x K, Ensures (fun s => K s.tokens) (step x)
    fun r s => if r.1 then e.After K s.tokens else K s.tokens) (x : σ) : Parses (loop step x) (rep e) := by
  intro K
  refine (Ensures.loop (J := fun _ s => (rep e).After K s.tokens) (Q := fun _ s => (rep e).After K s.tokens)
    (fun y => (hstep y _).post ?_) x).pre fun s hs => .finished hs
  rintro ⟨more, z⟩ s hs
  cases more with
  | true => exact .further hs
  | false => exact hs

theorem separator_ensures {t : Token} (ht : t ≠ .endOfFile) (x : σ) {K : List Token → Prop}
    {H : Bool × σ → State → Prop} (hmore : ∀ s, (tok t).After K s.tokens → H (true, x) s)
    (hlast : ∀ s, K s.tokens → H (false, x) s) : Ensures (fun s => K s.tokens)
      (do if (← token) = t then advance; return (true, x) else return (false, x) : Parser (Bool × σ)) H :=
  .ifToken (.shift ht <| .pure hmore) (.pure hlast)

/-- Phrases with a separator between them. Each stands at the start or after a separator. -/
theorem separated_parses {separator : Token} (hsep : separator ≠ .endOfFile) {item : σ → Parser σ} {e : Ebnf}
    (hitem : ∀ x, Parses (item x) e) (x : σ) : Parses (separated separator item x) (sepBy e separator) := by
  intro K
  refine .pre (fun s hs => .inl hs) (.loop (J := fun _ s => e.Before separator K s.tokens) (fun y => ?_) x)
  refine (hitem y (e.Before separator K)).bind fun z => ?_
  exact (separator_ensures hsep z (fun s h => .inr h) fun s h => h).pre fun s h => h.separated

theorem identifiers_parses : Parses identifiers (rule .identList) := by
  intro K
  refine (separated_parses (by decide) (e := ident) (fun names => ?_) [] K).post fun _ s hs => .rule hs
  exact fun K => (Ensures.identifier K).bind fun _ => .pure fun s hs => hs

end Parser

end MiniPascal
