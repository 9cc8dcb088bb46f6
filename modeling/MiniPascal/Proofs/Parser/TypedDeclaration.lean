import MiniPascal.Proofs.Parser.TypedStatement

/-!
# Declarations that are accepted obey the typing rules

The analysis of constants, types and variables leads from states that obey the typing rules to such
states, unless it reports a problem.
-/

namespace MiniPascal

open List

namespace TypeTable

/-- A property of tables that is not lost when they grow. -/
class Persists (c : TypeTable → Prop) : Prop where
  grow : ∀ ⦃ts ts' : TypeTable⦄, ts.Grows ts' → c ts → c ts'

instance (p : Prop) : Persists fun _ => p := ⟨fun _ _ _ h => h⟩

instance {c d : TypeTable → Prop} [hc : Persists c] [hd : Persists d] : Persists fun ts => c ts ∧ d ts :=
  ⟨fun _ _ hgrows h => ⟨hc.grow hgrows h.1, hd.grow hgrows h.2⟩⟩

instance (t : TypeId) : Persists fun ts => ts.Has t := ⟨fun _ _ hgrows h => hgrows.has h⟩

instance (t : TypeId) (k : TypeKind) : Persists fun ts => ts.Has t ∧ ts.kind t = k :=
  ⟨fun _ _ hgrows h => ⟨hgrows.has h.1, (hgrows.kind h.1).trans h.2⟩⟩

instance (ts : TypeTable) : Persists ts.Grows := ⟨fun _ _ hgrows h => h.trans hgrows⟩

instance {α : Type} (l : List α) (c : α → TypeTable → Prop) [h : ∀ a, Persists (c a)] :
    Persists fun ts => ∀ a ∈ l, c a ts := ⟨fun _ _ hgrows hall a ha => (h a).grow hgrows (hall a ha)⟩

end TypeTable

open TypeTable

namespace Parser

open State

variable {α β σ : Type} {C : Context} {s : State} {names : List Text} {fields : List (Text × TypeId)} {type : TypeId}

/-- A state from which a program can be accepted: nothing is wrong, and the types go on to be those of the
whole program. -/
structure State.Final (C : Context) (s : State) : Prop where
  clean : s.Clean
  types : s.types.Grows C.types
  bases : s.Pending → s.types.Retains C.types

theorem State.Final.back {n : Nat} {p : Parser α} (h : (p s).2.Final C) (hp : MovesAt n p s) : s.Final C :=
  ⟨hp.1.clean h.clean, hp.2.types.trans h.types, fun hs =>
    (hp.2.bases hs).2.trans hp.2.types (h.bases (hp.2.bases hs).1)⟩

theorem State.Grounded.pending (h : s.Grounded C) : s.Pending := fun f hf => (h.forward f hf).2

theorem allows_grow {ts ts' : TypeTable} (hgrows : ts.Grows ts') {level : Int} :
    {d : Declaration} → C.Allows ts level d → C.Allows ts' level d
  | .variable .., h => ⟨hgrows.has h.1, h.2⟩
  | .constant .., h => ⟨hgrows.has h.1, h.2⟩
  | .procedure _, h => ⟨⟨h.1.reached, fun f hf => hgrows.has (h.1.params f hf)⟩, h.2⟩
  | .function r, h => by
    obtain ⟨hoffers, t, hresult, hhas, hscalar⟩ := h
    refine ⟨⟨hoffers.reached, fun f hf => hgrows.has (hoffers.params f hf)⟩, t, hresult, hgrows.has hhas, ?_⟩
    rw [TypeTable.isAggregate, hgrows.kind hhas]
    exact hscalar
  | .typeName _, h => hgrows.has h

/-- The types may grow on the way to those of the whole program. -/
theorem State.Grounded.retype (h : s.Grounded C) {ts : TypeTable} (hgrows : s.types.Grows ts)
    (hformed : ts.Formed C.exact) (hordered : ts.Ordered)
    (hbases : ∀ f ∈ s.forward, (ts.get f.type).base = (s.types.get f.type).base)
    (hfinal : Final C { s with types := ts }) : Grounded C { s with types := ts } where
  lastError := h.lastError
  ended := h.ended
  lexemes := h.lexemes
  short := h.short
  stage := ⟨h.stage.builtins.trans hgrows, hformed, hordered, hfinal.types,
    hfinal.bases fun f hf => (h.pending f hf).grow hgrows (hbases f hf)⟩
  level := h.level
  enclosing := h.enclosing
  entries e he := ⟨(h.entries e he).nonneg, (h.entries e he).level, allows_grow hgrows (h.entries e he).value⟩
  forward f hf := ⟨(h.forward f hf).1, (h.forward f hf).2.grow hgrows (hbases f hf)⟩

/-- A part of the analysis leads from states that obey the typing rules to such states, and what it yields
has a property, provided that the program is accepted and that a condition holds of the types. -/
structure Makes (C : Context) (c : TypeTable → Prop) (p : Parser α) (H : α → TypeTable → Prop) : Prop where
  moves : Moves 0 p
  makes : ∀ s, s.Grounded C → c s.types → (p s).2.Final C → (p s).2.Grounded C ∧ H (p s).1 (p s).2.types

namespace Makes

variable {c : TypeTable → Prop} {p : Parser α} {f : α → Parser β} {G : α → TypeTable → Prop}
  {H : β → TypeTable → Prop} {I : σ → TypeTable → Prop}

theorem bind [hc : Persists c] (hp : Makes C c p G)
    (hf : ∀ a, Makes C (fun ts => c ts ∧ G a ts) (f a) H) : Makes C c (p >>= f) H where
  moves := hp.moves.bind fun a => (hf a).moves
  makes s hs hcs hfinal := by
    have hlast : (f (p s).1 (p s).2).2.Final C := hfinal
    have hmid := hlast.back ((hf (p s).1).moves (p s).2)
    obtain ⟨hs', hG⟩ := hp.makes s hs hcs hmid
    exact (hf (p s).1).makes (p s).2 hs' ⟨hc.grow (hp.moves s).2.types hcs, hG⟩ hfinal

theorem pure {a : α} (h : ∀ ts, c ts → G a ts) : Makes C c (pure a : Parser α) G where
  moves := .pure a
  makes s hs hcs _ := ⟨hs, h s.types hcs⟩

theorem mono {d : TypeTable → Prop} {G' : α → TypeTable → Prop} (hd : ∀ ts, d ts → c ts)
    (h : Makes C c p G) (hG : ∀ ts, d ts → ∀ ts', ts.Grows ts' → ∀ a, G a ts' → G' a ts') : Makes C d p G' where
  moves := h.moves
  makes s hs hds hfinal := by
    obtain ⟨hs', hG'⟩ := h.makes s hs (hd _ hds) hfinal
    exact ⟨hs', hG s.types hds _ (h.moves s).2.types _ hG'⟩

theorem weaken (h : Makes C (fun _ => True) p G) : Makes C c p G := h.mono (fun _ _ => trivial) fun _ _ _ _ _ h => h

/-- What follows from the condition may be assumed. -/
theorem assume {q : Prop} (hp : Moves 0 p) (hq : ∀ ts, c ts → q) (h : q → Makes C c p G) : Makes C c p G where
  moves := hp
  makes s hs hcs hfinal := (h (hq _ hcs)).makes s hs hcs hfinal

theorem of_gives (hr : Reads 0 p) (h : ∀ ts, C.Stage ts → Gives C ts (c ts) p fun a => G a ts) : Makes C c p G where
  moves := hr.moves
  makes s hs hcs hfinal := by
    obtain ⟨hadv, hsame⟩ := hr s
    refine ⟨hs.reads hadv hsame, ?_⟩
    rw [hsame.types]
    exact (h s.types hs.stage).gives hcs s hs rfl hfinal.clean

/-- What only reads changes nothing that counts. -/
theorem read (hr : Reads 0 p) (hf : ∀ a, Makes C c (f a) H) : Makes C c (p >>= f) H where
  moves := hr.moves.bind fun a => (hf a).moves
  makes s hs hcs hfinal := by
    obtain ⟨hadv, hsame⟩ := hr s
    exact (hf (p s).1).makes (p s).2 (hs.reads hadv hsame) (hsame.types ▸ hcs) hfinal

/-- The types that are read, and what holds of them. -/
theorem types : Makes C c types fun ts' ts => c ts' ∧ C.Stage ts' ∧ ts'.Grows ts where
  moves := types_reads.moves
  makes s hs hcs _ := ⟨hs, hcs, hs.stage, .refl s.types⟩

theorem get : Makes C c (get : Parser State) fun s ts => c s.types ∧ s.Grounded C ∧ s.types.Grows ts where
  moves := Reads.get.moves
  makes s hs hcs _ := ⟨hs, hcs, hs, .refl s.types⟩

theorem token {f : Token → Parser β} (hf : ∀ t, Makes C c (f t) H) : Makes C c (token >>= f) H := .read token_reads hf

theorem advance {f : Unit → Parser β} (hf : Makes C c (f ()) H) : Makes C c (advance >>= f) H :=
  .read advance_reads fun _ => hf

theorem expect {t : Token} {f : Unit → Parser β} (hf : Makes C c (f ()) H) : Makes C c (expect t >>= f) H :=
  .read (expect_reads t) fun _ => hf

theorem of_reads (hr : Reads 0 p) : Makes C c p fun _ _ => True :=
  of_gives hr fun _ _ => ⟨hr, fun _ _ _ _ _ => trivial⟩

theorem report_bind {q : Problem} (hq : q.isPointerBase = false) {g : Unit → Parser α} (hg : Moves 0 (g ())) :
    Makes C c (report q >>= g) G where
  moves := (report_reads hq).moves.bind fun _ => hg
  makes s hs _ hfinal := by
    have hmid : (s.report q).Clean := (hg (s.report q)).1.clean hfinal.clean
    exact absurd hmid (not_clean_report hs.lastError q)

/-- Past a bound nothing counts. -/
theorem exhaust (a : α) (G : α → TypeTable → Prop) : Makes C c (fun s => (a, s.exhaust) : Parser α) G where
  moves := exhaust_moves a
  makes _ _ _ hfinal := by simpa [State.exhaust] using hfinal.clean.exhausted

theorem of_fuel {p : Nat → Parser α} (h : ∀ k, Makes C c (p k) G) : Makes C c (fun s => p s.fuel s) G where
  moves s := (h s.fuel).moves s
  makes s hs hcs hfinal := (h s.fuel).makes s hs hcs hfinal

/-- A property that every step of a repetition keeps holds of its result. -/
theorem loop {step : σ → Parser (Bool × σ)} [hc : Persists c]
    (hstep : ∀ x, Makes C (fun ts => c ts ∧ I x ts) (step x) fun r ts => I r.2 ts) {x : σ} (hx : ∀ ts, c ts → I x ts) :
    Makes C c (loop step x) I where
  moves := loop_moves (fun x => (hstep x).moves) (fun _ s _ hn => absurd hn (by simp [State.lexemes])) x
  makes s hs hcs hfinal := by
    have h := repeatFor_keeps (P := fun x s => s.Grounded C ∧ c s.types ∧ I x s.types)
      (Q := fun _ s => s.Final C) ?_ ?_ ?_ s.fuel x s ⟨hs, hcs, hx _ hcs⟩ hfinal
    · exact ⟨h.1, h.2.2⟩
    · exact fun _ s h => by simpa [State.exhaust] using h.clean.exhausted
    · exact fun x s h => h.back ((hstep x).moves s)
    · rintro x s ⟨hs, hcs, hI⟩ h
      obtain ⟨hs', hI'⟩ := (hstep x).makes s hs ⟨hcs, hI⟩ h
      exact ⟨hs', hc.grow ((hstep x).moves s).2.types hcs, hI'⟩

theorem separated {separator : Token} {item : σ → Parser σ} [Persists c] [∀ x, Persists (I x)]
    (hitem : ∀ x, Makes C (fun ts => c ts ∧ I x ts) (item x) I) {x : σ} (hx : ∀ ts, c ts → I x ts) :
    Makes C c (separated separator item x) I := by
  refine loop (fun x => ?_) hx
  refine (hitem x).bind fun y => .token fun t => ?_
  split
  · exact .advance <| .pure fun _ => And.right
  · exact .pure fun _ => And.right

end Makes

/-! ## Constants -/

section

variable {now : TypeTable} {c : Prop} (hn : C.Stage now)
include hn

theorem value_builtin (type : TypeId) {value : Datum} (ht : TypeTable.builtins.Has type)
    (hholds : (TypeTable.builtins.kind type).holds value = true) (hbounded : value.Bounded) :
    now.Has type ∧ C.Value type value :=
  ⟨hn.has_builtin ht, by rw [hn.kind_builtin ht]; exact hholds, fun _ => hbounded⟩

theorem unsignedConstant_gives : Gives C now c unsignedConstant fun r =>
    ∀ x, r = some x → now.Has x.2 ∧ C.Value x.2 x.1 := by
  refine .get fun s => ?_
  dsimp only
  split
  · next htoken =>
    refine .advance <| .pure ?_
    rintro ⟨-, hs, -⟩ x hx
    obtain ⟨n, hvalue, hbounded⟩ := (hs.lexemes s.current (by simp [State.lexemes])).integer htoken
    obtain rfl := Option.some.inj hx
    simp only [hvalue]
    exact value_builtin hn _ (by decide) rfl hbounded
  · next htoken =>
    refine .advance <| .pure ?_
    rintro ⟨-, hs, -⟩ x hx
    obtain ⟨v, hvalue⟩ := (hs.lexemes s.current (by simp [State.lexemes])).real htoken
    obtain rfl := Option.some.inj hx
    simp only [hvalue]
    exact value_builtin hn _ (by decide) rfl trivial
  · refine .require rfl <| .advance <| .pure ?_
    rintro - x hx
    obtain rfl := Option.some.inj hx
    exact value_builtin hn .char (by decide) rfl trivial
  · refine .resolve fun e => ?_
    split
    · next value type hvalue =>
      refine .pure ?_
      rintro ⟨-, hadmits⟩ x hx
      obtain rfl := Option.some.inj hx
      have := hadmits.value
      rwa [hvalue] at this
    · exact .report_bind rfl (.pure _)
  · exact .report_bind rfl (.pure _)

theorem negated_gives {value : Datum} (h : c → now.Has type ∧ C.Value type value) :
    Gives C now c (negated value type) fun x => now.Has x.2 ∧ C.Value x.2 x.1 := by
  refine .types fun ts => ?_
  split
  · next hkind =>
    refine .pure ?_
    rintro ⟨hc, rfl⟩
    obtain ⟨hhas, hholds, hbounded⟩ := h hc
    rw [hn.rootKind hhas] at hkind
    refine ⟨hhas, by rw [hkind]; rfl, fun hx => ?_⟩
    have hbounded := hbounded hx
    rw [hkind] at hholds
    cases value with
    | integer n =>
      have hneg : (-n).toInt = -n.toInt :=
        Word.toInt_neg ⟨by have := hbounded.2; omega, by have := hbounded.1; omega⟩
      show -2 ^ 48 < (-n).toInt ∧ (-n).toInt < 2 ^ 48
      obtain ⟨h₁, h₂⟩ := hbounded
      omega
    | boolean | character | real | address => simp [TypeKind.holds] at hholds
  · next hkind =>
    refine .pure ?_
    rintro ⟨hc, rfl⟩
    obtain ⟨hhas, -⟩ := h hc
    rw [hn.rootKind hhas] at hkind
    exact ⟨hhas, by rw [hkind]; rfl, fun _ => trivial⟩
  · exact .report_bind rfl (.pure _)

theorem constant_gives : Gives C now c constant fun x => now.Has x.2 ∧ C.Value x.2 x.1 := by
  refine .read sign_reads fun sign => (unsignedConstant_gives hn).bind fun found => ?_
  split
  · split
    · exact negated_gives hn fun hc => hc.2 _ rfl
    · exact .pure fun hc => hc.2 _ rfl
  · exact .pure fun _ => value_builtin hn .integer (by decide) rfl ⟨by decide, by decide⟩

omit hn in
theorem typeIdentifier_gives : Gives C now c typeIdentifier now.Has := by
  refine .token fun t => ?_
  split
  · refine .resolve fun e => ?_
    split
    · next type hvalue =>
      refine .pure ?_
      rintro ⟨-, hadmits⟩
      have := hadmits.value
      rwa [hvalue] at this
    · exact .report_bind rfl (.pure _)
  · exact .report_bind rfl (.pure _)

end

variable {c : TypeTable → Prop}

/-! ## Names and types -/

/-- Further names may be declared that are allowed. -/
theorem State.Grounded.extend (h : s.Grounded C) {entries : List (Scope.Entry Declaration)}
    (hentries : ∀ e ∈ entries, C.Admits s.types e) : Grounded C { s with scope := ⟨entries⟩ } where
  lastError := h.lastError
  ended := h.ended
  lexemes := h.lexemes
  short := h.short
  stage := h.stage
  level := h.level
  enclosing := h.enclosing
  entries := hentries
  forward := h.forward

theorem declareAt_scope {level : Int} {name : Text} {value : Declaration}
    (hs : s.diagnostics = [] → s.lastError = none) (hclean : (declareAt level name value s).2.Clean) :
    declareAt level name value s = (true, { s with scope := ⟨s.scope.entries ++ [⟨name, level, value⟩]⟩ }) ∧
      s.scope.declares name level = false := by
  rw [declareAt_run] at hclean ⊢
  unfold Scope.insert at hclean ⊢
  by_cases h : s.scope.declares name level = true
  · simp only [h, if_true] at hclean
    exact absurd hclean (not_clean_report hs _)
  · rw [if_neg h]
    exact ⟨rfl, by simpa using h⟩

theorem declare_makes {name : Text} {value : Declaration}
    (h : ∀ ts, C.Stage ts → c ts → C.Allows ts C.levels.length value) :
    Makes C c (declare name value) fun _ _ => True where
  moves := (declare_declares name value).moves
  makes s hs hcs hfinal := by
    have hclean : (declareAt s.level name value s).2.Clean := hfinal.clean
    have hrun : (declare name value s).2 = (declareAt s.level name value s).2 := rfl
    rw [hrun, (declareAt_scope hs.lastError hclean).1]
    refine ⟨hs.extend fun e he => ?_, trivial⟩
    rcases mem_append.mp he with he | he
    · exact hs.entries e he
    · obtain rfl := mem_singleton.mp he
      refine ⟨?_, ?_, ?_⟩
      · rw [hs.level]
        exact Int.natCast_nonneg _
      · exact Int.le_of_eq hs.level
      · rw [hs.level]
        exact h _ hs.stage hcs

theorem addType_makes {d : TypeDesc} (h : ∀ ts, C.Stage ts → c ts → (ts.add d).2.Grows C.types → d.Formed C.exact ts) :
    Makes C c (addType d) fun t ts => ts.Has t ∧ ts.kind t = d.kind where
  moves := addType_moves d
  makes s hs hcs hfinal := by
    have hd := h s.types hs.stage hcs hfinal.types
    refine ⟨hs.retype (s.types.grows_add d) (hs.stage.formed.add hd) (hs.stage.ordered.add hd)
      (fun f hf => congrArg TypeDesc.base (TypeTable.get_add_of_has d (hs.forward f hf).2.has)) hfinal,
      s.types.has_add d, ?_⟩
    exact congrArg TypeDesc.kind (s.types.get_add d)

def oneMore (names : List Text) : Parser (List Text) := do return names ++ [← identifier]

theorem oneMore_reads (names : List Text) : Reads 0 (oneMore names) := identifier_reads.bind fun _ => .pure _

theorem oneMore_run (he : s.Ended) (hs : s.diagnostics = [] → s.lastError = none) (hclean : (oneMore names s).2.Clean) :
    oneMore names s = (names ++ [s.current.text], s.next) ∧ s.next.lexemes.length < s.lexemes.length := by
  have hclean : (identifier s).2.Clean := hclean
  show (names ++ [(identifier s).1], (identifier s).2) = _ ∧ _
  rw [identifier_run] at hclean ⊢
  split at hclean
  · next ht => exact ⟨by rw [if_pos ht], length_next_lt he (by simp [ht])⟩
  · exact absurd hclean (not_clean_report hs _)

theorem oneMore_moves (names : List Text) : Moves 0 (separatedStep .comma oneMore names) :=
  separatedStep_moves (fun names => (oneMore_reads names).moves) names

/-- What was taken of the lexemes pays for the names. -/
structure Paid (limit : Nat) (names : List Text) (s : State) : Prop where
  ended : s.Ended
  lastError : s.diagnostics = [] → s.lastError = none
  length : names.length + s.lexemes.length ≤ limit

theorem Paid.oneMore {limit : Nat} (h : Paid limit names s) (hclean : (separatedStep .comma oneMore names s).2.Clean) :
    Paid limit (separatedStep .comma Parser.oneMore names s).1.2 (separatedStep .comma Parser.oneMore names s).2 ∧
      0 < (separatedStep .comma Parser.oneMore names s).1.2.length := by
  have hadv := (oneMore_moves names s).1
  rw [separatedStep_run] at hclean hadv ⊢
  have hfirst : (Parser.oneMore names s).2.Clean := by
    split at hclean
    · exact (next_advances (n := 0) _).clean hclean
    · exact hclean
  obtain ⟨hrun, hlt⟩ := oneMore_run h.ended h.lastError hfirst
  have hnext := (next_advances (n := 0) s.next).lexemes.length_le
  have hlength := h.length
  refine ⟨⟨h.ended.of_suffix hadv.lexemes, hadv.lastError h.lastError, ?_⟩, ?_⟩
  all_goals
    rw [hrun]
    split <;> simp only [length_append, length_cons, length_nil] <;> omega

theorem length_identifiers (he : s.Ended) (hs : s.diagnostics = [] → s.lastError = none)
    (hclean : (identifiers s).2.Clean) :
    0 < (identifiers s).1.length ∧ (identifiers s).1.length ≤ s.lexemes.length := by
  have hexhaust (_ : List Text) (s : State) : ¬s.exhaust.Clean := fun h => by
    simpa [State.exhaust] using h.exhausted
  have hback (names : List Text) (s : State) := (oneMore_moves names s).1.clean
  have hrun : identifiers s = repeatFor (separatedStep .comma oneMore) (s.rest.length + 1) [] s := rfl
  have hstart : Paid s.lexemes.length [] s := ⟨he, hs, by simp⟩
  have hfirst := hstart.oneMore
  rw [hrun, repeatFor_succ] at hclean ⊢
  split
  · next hmore =>
    rw [if_pos hmore] at hclean
    have hend := repeatFor_keeps
      (P := fun names t => Paid s.lexemes.length names t ∧ 0 < names.length) hexhaust hback
      (fun _ _ h hclean => h.1.oneMore hclean) _ _ _
      (hfirst (repeatFor_back hexhaust hback _ _ _ hclean)) hclean
    exact ⟨hend.2, Nat.le_trans (Nat.le_add_right _ _) hend.1.length⟩
  · next hmore =>
    rw [if_neg hmore] at hclean
    have hend := hfirst hclean
    exact ⟨hend.2, Nat.le_trans (Nat.le_add_right _ _) hend.1.length⟩

theorem declareValues_makes [Persists c] {n : Nat} (htype : ∀ ts, c ts → ts.Has type ∧ ts.kind type = .enumeration)
    (hn : ∀ ts, c ts → C.exact → n + names.length ≤ 2 ^ 48) :
    Makes C c (declareValues type n names) fun _ _ => True := by
  induction names generalizing n with
  | nil => exact .pure fun _ _ => trivial
  | cons name rest ih =>
    refine Makes.bind (declare_makes fun ts hstage hcs => ?_) fun _ =>
      (ih fun ts hcs hx => ?_).mono (fun _ h => h.1) fun _ _ _ _ _ h => h
    · obtain ⟨hhas, hkind⟩ := htype ts hcs
      refine ⟨hhas, ?_, fun hx => ?_⟩
      · rw [hstage.kind hhas, hkind]
        rfl
      · have hlt := hn ts hcs hx
        rw [length_cons] at hlt
        show -2 ^ 48 < (Int64.ofNat n).toInt ∧ (Int64.ofNat n).toInt < 2 ^ 48
        rw [Word.toInt_ofNat (by omega)]
        omega
    · have hlt := hn ts hcs hx
      rw [length_cons] at hlt
      omega

theorem enumeration_makes [Persists c] : Makes C c enumeration fun t ts => ts.Has t := by
  have names : Makes C c identifiers fun names _ =>
      C.exact → 0 < names.length ∧ names.length ≤ 2 ^ 48 := by
    refine ⟨identifiers_reads.moves, fun s hs _ hfinal => ?_⟩
    obtain ⟨hadv, hsame⟩ := identifiers_reads (n := 0) s
    obtain ⟨hpos, hle⟩ := length_identifiers hs.ended hs.lastError hfinal.clean
    exact ⟨hs.reads hadv hsame, fun hx => ⟨hpos, Nat.le_trans hle (hs.short hx)⟩⟩
  refine .advance <| names.bind fun names => .expect <| .bind (addType_makes ?_) fun type => ?_
  · rintro ts - ⟨-, hlength⟩ -
    exact .enumeration [] (fun hx => (hlength hx).1) fun hx => (hlength hx).2
  · refine .bind (declareValues_makes (fun ts h => h.2) ?_) fun _ => .pure fun ts h => h.1.2.1
    rintro ts ⟨⟨-, hlength⟩, -⟩ hx
    rw [Nat.zero_add]
    exact (hlength hx).2

theorem constant_makes : Makes C c constant fun x ts => ts.Has x.2 ∧ C.Value x.2 x.1 :=
  .of_gives constant_reads fun _ hstage => constant_gives hstage

theorem subrange_makes [Persists c] : Makes C c subrange fun t ts => ts.Has t := by
  refine constant_makes.bind fun lower => .expect <| constant_makes.bind fun upper => Makes.types.bind fun ts => ?_
  split
  · split
    · next d hd =>
      refine (addType_makes ?_).mono (fun _ h => h) fun _ _ _ _ _ h => h.1
      rintro now - ⟨-, ⟨⟨-, hlower, -⟩, -⟩, hstage, hgrows⟩ -
      exact (hstage.formed.subrange hlower hd).grow hgrows
    · exact .report_bind rfl (.pure _)
  · exact .report_bind rfl (.pure _)

theorem arrayOver_makes [Persists c] {element : TypeId} {indices : List TypeId}
    (h : ∀ ts, c ts → ts.Has element ∧ ∀ t ∈ indices, ts.Has t) :
    Makes C c (arrayOver element indices) fun t ts => ts.Has t := by
  induction indices generalizing element c with
  | nil => exact .pure fun ts hcs => (h ts hcs).1
  | cons index rest ih =>
    refine Makes.types.bind fun ts => ?_
    split
    · next d hd =>
      refine Makes.bind (addType_makes ?_) fun array => ih ?_
      · rintro now - ⟨-, hcs, hstage, hgrows⟩ -
        obtain ⟨helement, hindices⟩ := h ts hcs
        exact (hstage.formed.array (hindices index (by simp)) helement hd).grow hgrows
      · rintro now ⟨⟨hcs, -⟩, harray, -⟩
        exact ⟨harray, fun t ht => (h now hcs).2 t (by simp [ht])⟩
    · exact .report_bind rfl (.pure _)

/-- What a part of the analysis leads to from one state. -/
def MakesAt (C : Context) (p : Parser α) (H : α → TypeTable → Prop) (s : State) : Prop :=
  (p s).2.Final C → (p s).2.Grounded C ∧ H (p s).1 (p s).2.types

theorem MakesAt.get_bind {f : State → Parser α} {H : α → TypeTable → Prop} (h : MakesAt C (f s) H s) :
    MakesAt C (get >>= f) H s := h

theorem deferred_makes (hx : ¬C.exact) (hs : s.Grounded C) (htoken : s.current.token = .identifier) :
    MakesAt C (deferred s.current) (fun t ts => ts.Has t) s := by
  intro hfinal
  have hadd : Makes C (fun _ => True) (addType (.pointer none)) fun t ts => ts.Has t ∧ ts.kind t = .pointer :=
    addType_makes fun _ _ _ _ => .pointer fun t ht => nomatch ht
  let u : State := { s with types := (s.types.add (.pointer none)).2 }
  have hfinal : (defer u.current (s.types.add (.pointer none)).1 u).2.Final C := hfinal
  have htype := waits_add s.types
  obtain ⟨ht, -⟩ := hadd.makes s hs trivial (hfinal.back (defer_declaresAt (n := 0) (s := u) htype htoken).moves)
  obtain ⟨hadv, hsame⟩ := advance_reads (n := 0) { u with
    forward := s.forward ++ [⟨s.current.text, (s.types.add (.pointer none)).1, s.current.pos, s.current.line⟩] }
  refine ⟨State.Grounded.reads ?_ hadv hsame, hsame.types ▸ htype.has⟩
  refine ⟨ht.lastError, ht.ended, ht.lexemes, ht.short, ht.stage, ht.level, ht.enclosing, ht.entries, fun f hf => ?_⟩
  rcases mem_append.mp hf with hf | hf
  · exact ht.forward f hf
  · obtain rfl := mem_singleton.mp hf
    exact ⟨hx, htype⟩

theorem pointerType_makes [Persists c] (hx : ¬C.exact) (inSection : Bool) :
    Makes C c (pointerType inSection) fun t ts => ts.Has t := by
  have pointer {c : TypeTable → Prop} {base : TypeId} (h : ∀ ts, C.Stage ts → c ts → ts.Has base) :
      Makes C c (addType (.pointer (some base))) fun t ts => ts.Has t :=
    (addType_makes fun ts hstage hcs _ => .pointer fun t ht =>
      ⟨hx, Option.some.inj ht ▸ h ts hstage hcs⟩).mono (fun _ h => h) fun _ _ _ _ _ h => h.1
  have integer {c : TypeTable → Prop} :
      Makes C c (addType (.pointer (some .integer))) fun t ts => ts.Has t :=
    pointer fun _ hstage _ => hstage.has_builtin (by decide)
  refine .advance ⟨(pointerTo_declares inSection).moves, fun s hs _ => ?_⟩
  show MakesAt C (pointerTo inSection) (fun t ts => ts.Has t) s
  refine MakesAt.get_bind ?_
  have here {p : Parser TypeId} (h : Makes C s.types.Grows p fun t ts => ts.Has t) :
      MakesAt C p (fun t ts => ts.Has t) s := h.makes s hs (.refl _)
  split
  · next htoken =>
    split
    · next e he =>
      refine here (.advance ?_)
      split
      · next type hvalue =>
        refine pointer ?_
        intro ts _ hgrows
        have := (hs.entries e (Scope.mem_of_lookup? he)).value
        rw [hvalue] at this
        exact hgrows.has this
      · exact .report_bind rfl (addType_moves _)
    · split
      · exact deferred_makes hx hs htoken
      · exact here (.read resolve_reads fun _ => integer)
  · exact here (.report_bind rfl (addType_moves _))

theorem addFields_makes [Persists c] (names : List Text) (h : ∀ ts, c ts → ts.Has type ∧ ∀ f ∈ fields, ts.Has f.2) :
    Makes C c (addFields type fields names) fun fields ts => ∀ f ∈ fields, ts.Has f.2 := by
  induction names generalizing fields c with
  | nil => exact .pure fun ts hcs => (h ts hcs).2
  | cons name rest ih =>
    refine .read (require_reads _ rfl) fun _ => ih fun ts hcs => ?_
    obtain ⟨htype, hfields⟩ := h ts hcs
    exact ⟨htype, forall_mem_append.mpr ⟨hfields, forall_mem_singleton.mpr htype⟩⟩

section

variable {typeSpec : Bool → Parser TypeId}
  (ht : ∀ inSection, Makes C (fun _ => True) (typeSpec inSection) fun t ts => ts.Has t)
include ht

variable (inSection : Bool)

theorem arrayType_makes [Persists c] : Makes C c (arrayType typeSpec inSection) fun t ts => ts.Has t := by
  refine .advance <| .expect <| .bind (.separated (I := fun indices ts => ∀ t ∈ indices, ts.Has t)
    (fun indices => (ht false).weaken.bind fun t => .pure ?_) fun _ _ => by simp) fun indices =>
    .expect <| .expect <| (ht inSection).weaken.bind fun element => arrayOver_makes ?_
  · rintro ts ⟨⟨-, hindices⟩, hhas⟩
    exact forall_mem_append.mpr ⟨hindices, forall_mem_singleton.mpr hhas⟩
  · rintro ts ⟨⟨-, hindices⟩, helement⟩
    exact ⟨helement, fun t ht => hindices t (mem_reverse.mp ht)⟩

theorem fieldGroup_makes [Persists c] (h : ∀ ts, c ts → ∀ f ∈ fields, ts.Has f.2) :
    Makes C c (fieldGroup typeSpec inSection fields) fun r ts => ∀ f ∈ r.2, ts.Has f.2 := by
  refine .token fun t => ?_
  split
  · refine .read identifiers_reads fun names => .expect <| (ht inSection).weaken.bind fun type =>
      .bind (addFields_makes names fun ts hcs => ⟨hcs.2, h ts hcs.1⟩) fun fields => .token fun t => ?_
    split
    · exact .advance <| .pure fun _ => And.right
    · exact .pure fun _ => And.right
  · exact .pure h

/-- A record that is part of a program is not too large if no type of the program is. -/
theorem recordType_makes (hsmall : C.exact → C.types.Small) [Persists c] :
    Makes C c (recordType typeSpec inSection) fun t ts => ts.Has t := by
  refine .advance <| .bind (.loop (I := fun fields ts => ∀ f ∈ fields, ts.Has f.2)
    (fun _ => fieldGroup_makes ht inSection fun _ => And.right) fun _ _ => by simp) fun fields => .expect ?_
  split
  · exact .report_bind rfl (.pure _)
  · next hne =>
    refine Makes.types.bind fun ts => (addType_makes ?_).mono (fun _ h => h) fun _ _ _ _ _ h => h.1
    rintro now - ⟨-, ⟨-, hfields⟩, hstage, hgrows⟩ hfinal
    refine (hstage.formed.record (fun _ => by simpa using hne) hfields fun hx => ?_).grow hgrows
    have hhas : ∀ f ∈ (ts.record fields).fields, ts.Has f.type := fun f hf => hfields _ (mem_of_placeFields hf)
    have halike := hfinal.alike (now.has_add (ts.record fields))
    have hlt := hsmall hx _ _ (hfinal.has (now.has_add (ts.record fields))).getElem?
    rw [halike.fields, now.get_add] at hlt
    rwa [((hgrows.trans (now.grows_add _)).trans hfinal).total hhas] at hlt

theorem typeSpecOf_makes (hsmall : C.exact → C.types.Small) [Persists c] :
    Makes C c (typeSpecOf typeSpec inSection) fun t ts => ts.Has t := by
  refine Makes.get.bind fun s => ?_
  split
  · split
    · exact subrange_makes
    · exact .of_gives typeIdentifier_reads fun _ _ => typeIdentifier_gives
  · exact enumeration_makes
  · exact subrange_makes
  · exact subrange_makes
  · exact subrange_makes
  · exact subrange_makes
  · exact arrayType_makes ht inSection
  · exact recordType_makes ht inSection hsmall
  · next htoken =>
    refine .assume (pointerType_declares inSection).moves ?_ fun hx => pointerType_makes hx inSection
    rintro ts ⟨-, -, hs, -⟩ hx
    exact (hs.lexemes s.current (by simp [State.lexemes])).caret hx htoken
  · exact .report_bind rfl (.pure _)

end

theorem typeSpecWithin_makes (hsmall : C.exact → C.types.Small) (n : Nat) (inSection : Bool) :
    Makes C (fun _ => True) (typeSpecWithin n inSection) fun t ts => ts.Has t := by
  induction n generalizing inSection with
  | zero => exact .exhaust _ _
  | succ n ih => exact typeSpecOf_makes ih inSection hsmall

theorem typeSpec_makes (hsmall : C.exact → C.types.Small) (inSection : Bool) :
    Makes C c (typeSpec inSection) fun t ts => ts.Has t :=
  .of_fuel fun k => (typeSpecWithin_makes hsmall k inSection).weaken

/-! ## Sections -/

theorem entries_makes [Persists c] {entry : Unit → Parser Unit}
    (h : ∀ x, Makes C c (entry x) fun _ _ => True) : Makes C c (entries entry ()) fun _ _ => True := by
  refine .loop (fun x => .token fun t => ?_) fun _ _ => trivial
  split
  · exact .bind ((h x).mono (fun _ => And.left) fun _ _ _ _ _ h => h) fun _ => .pure fun _ _ => trivial
  · exact .pure fun _ _ => trivial

theorem constantSection_makes [Persists c] : Makes C c constantSection fun _ _ => True :=
  .advance <| entries_makes fun _ => .read identifier_reads fun _ => .expect <|
    constant_makes.bind fun _ => .bind (declare_makes fun _ _ hc => hc.2) fun _ => .of_reads (expect_reads _)

theorem nameType_makes (type : TypeId) (name : Text) : Makes C c (nameType type name) fun _ _ => True := by
  refine ⟨nameType_moves type name, fun s hs _ hfinal => ⟨?_, trivial⟩⟩
  have hrun : (nameType type name s).2 = if (s.types.get type).name.isEmpty then
      { s with types := s.types.setName type name } else s := rfl
  rw [hrun] at hfinal ⊢
  split
  · next hempty =>
    rw [if_pos hempty] at hfinal
    exact hs.retype (s.types.grows_setName type name) (hs.stage.formed.setName type name)
      (hs.stage.ordered.setName type name) (fun _ _ => s.types.base_setName type _ name) hfinal
  · exact hs

theorem State.Grounded.forget (hs : s.Grounded C) : (forget s).2.Grounded C :=
  ⟨hs.lastError, hs.ended, hs.lexemes, hs.short, hs.stage, hs.level, hs.enclosing, hs.entries, fun _ hf => nomatch hf⟩

theorem forget_makes : Makes C c forget fun _ _ => True :=
  ⟨forget_moves, fun _ hs _ _ => ⟨hs.forget, trivial⟩⟩

/-- Pointers that wait get their bases, and the types stay formed as they should be. -/
theorem State.Grounded.rebased (hs : s.Grounded C) :
    (rebased s.scope s.types s.forward).Formed C.exact ∧ (rebased s.scope s.types s.forward).Ordered := by
  refine (foldlRecOn (motive := fun ts : TypeTable => s.types.Grows ts ∧ ts.Formed C.exact ∧ ts.Ordered) _ _
    ⟨.refl _, hs.stage.formed, hs.stage.ordered⟩ ?_).2
  rintro ts ⟨hgrows, hformed, hordered⟩ f hf
  obtain ⟨hx, hwaits⟩ := hs.forward f hf
  have hkind := (hgrows.kind hwaits.has).trans hwaits.kind
  have hbase : s.types.Has ((denoted s.scope f.name).getD .integer) := by
    cases hdenoted : denoted s.scope f.name with
    | none => exact hs.stage.builtins.has (by decide)
    | some type =>
      obtain ⟨e, he, -, hvalue⟩ := entry_of_denoted hdenoted
      have hhas := (hs.entries e he).value
      rwa [hvalue] at hhas
  refine ⟨hgrows.trans (ts.grows_setBase _ _), hformed.setBase (fun _ => hkind) fun u hu => ⟨hx, ?_⟩,
    hordered.setBase hkind _⟩
  exact Option.some.inj hu ▸ hgrows.has hbase

theorem settlement_makes : Makes C c settlement fun _ _ => True := by
  refine ⟨settlement_moves, fun s hs _ hfinal => ⟨?_, trivial⟩⟩
  have hclean := hfinal.clean.diagnostics
  rw [settlement_run] at hclean hfinal ⊢
  rw [(append_eq_nil_iff.mp hclean).2, append_nil] at hfinal ⊢
  exact hs.forget.retype (grows_rebased _ _ _) hs.rebased.1 hs.rebased.2 (fun _ hf => nomatch hf) hfinal

theorem typeSection_makes (hsmall : C.exact → C.types.Small) [Persists c] : Makes C c typeSection fun _ _ => True :=
  .advance <| forget_makes.bind fun _ => .bind (entries_makes fun _ => .read identifier_reads fun name =>
    .expect <| (typeSpec_makes hsmall true).bind fun type => (nameType_makes type name).bind fun _ =>
    (declare_makes fun _ _ hc => hc.1.2).bind fun _ => .of_reads (expect_reads _)) fun _ => settlement_makes

end Parser

end MiniPascal
