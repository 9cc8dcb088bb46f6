import MiniPascal.Proofs.Parser.TypedDeclaration

/-!
# Headings that are accepted are typed

While a heading is read, its subprogram is declared without parameters, and its parameters are declared
without their places. Once it is read, everything is in place for the block of the subprogram.
-/

namespace MiniPascal

open List Parser

variable {e : Scope.Entry Declaration} {id : RoutineId} {ts : TypeTable} {type : TypeId}

namespace Context

variable {C : Context} {l : Level}

@[simp] theorem length_levels_enter (C : Context) (l : Level) : (C.enter l).levels.length = C.levels.length + 1 := rfl

/-- What a block around declares is seen one hop further away from inside a further block. -/
theorem declares_enter {hops : Int} {offset : Int64} (h : 0 ≤ hops) :
    (C.enter l).Declares { hops := hops + 1, offset, type } ↔ C.Declares { hops, offset, type } := by
  constructor
  · rintro ⟨k, m, hk, hm, hf⟩
    have hk : hops + 1 = k := hk
    cases k with
    | zero => omega
    | succ k => exact ⟨k, m, by show hops = k; omega, hm, hf⟩
  · rintro ⟨k, m, hk, hm, hf⟩
    have hk : hops = k := hk
    exact ⟨k + 1, m, by show hops + 1 = (k + 1 : Nat); omega, hm, hf⟩

theorem calls_enter {hops : Int} {r : Routine} {result : Option TypeId} (h : 0 ≤ hops) :
    (C.enter l).Calls { routine := id, hops := hops + 1, result } r ↔ C.Calls { routine := id, hops, result } r := by
  constructor
  · rintro ⟨k, hk, hle, hid, hresult, hknown⟩
    have hk : hops + 1 = k := hk
    cases k with
    | zero => omega
    | succ k => exact ⟨k, by show hops = k; omega, by simpa using hle, hid, hresult, hknown⟩
  · rintro ⟨k, hk, hle, hid, hresult, hknown⟩
    have hk : hops = k := hk
    exact ⟨k + 1, by show hops + 1 = (k + 1 : Nat); omega, by simpa using hle, hid, hresult, hknown⟩

/-- What is allowed for a name of a block around is the same inside a further block. -/
theorem allows_enter {level : Int} (h : level ≤ C.levels.length) {d : Declaration} :
    (C.enter l).Allows ts level d ↔ C.Allows ts level d := by
  have hops : ((C.enter l).levels.length : Int) - level = C.levels.length - level + 1 := by
    rw [length_levels_enter]
    omega
  have offers {r : Routine} : (C.enter l).Offers ts level r ↔ C.Offers ts level r := by
    constructor
    · rintro ⟨hreached, hparams⟩
      rw [hops] at hreached
      exact ⟨(calls_enter (by omega)).mp hreached, hparams⟩
    · rintro ⟨hreached, hparams⟩
      refine ⟨?_, hparams⟩
      rw [hops]
      exact (calls_enter (by omega)).mpr hreached
  match d with
  | .variable offset type =>
    simp only [Allows, hops]
    rw [declares_enter (by omega)]
  | .constant .. => exact Iff.rfl
  | .procedure r => simp only [Allows, offers]
  | .function r => simp only [Allows, offers]
  | .typeName _ => exact Iff.rfl

theorem admits_enter (h : C.Admits ts e) : (C.enter l).Admits ts e :=
  ⟨h.nonneg, by rw [length_levels_enter]; have := h.level; omega, (allows_enter h.level).mpr h.value⟩

/-- A name that is not one of the inner block is allowed outside. -/
theorem admits_leave (h : (C.enter l).Admits ts e) (hne : e.level ≠ (C.enter l).levels.length) : C.Admits ts e := by
  have hle : e.level ≤ C.levels.length := by
    have := h.level
    rw [length_levels_enter] at this hne
    omega
  exact ⟨h.nonneg, hle, (allows_enter hle).mp h.value⟩

end Context

namespace Parser

open State TypeTable

variable {α : Type} {C : Context}

theorem typeIdentifier_run (s : State) :
    typeIdentifier s = if s.current.token = .identifier then
      match (resolve s).1.value with
      | .typeName type => (type, (resolve s).2)
      | _ => (.integer, (resolve s).2.report (.notAType (resolve s).1.name))
    else (.integer, s.report .typeIdentifierExpected) := by
  show (if s.current.token = .identifier then _ else _ : Parser TypeId) s = _
  split
  · show (match (resolve s).1.value with
      | .typeName type => pure type
      | _ => _ : Parser TypeId) (resolve s).2 = _
    cases (resolve s).1.value <;> rfl
  · rfl

theorem typeIdentifier_found {s : State} (hs : s.diagnostics = [] → s.lastError = none)
    (hclean : (typeIdentifier s).2.Clean) : ∃ e ∈ s.scope.entries, e.value = .typeName (typeIdentifier s).1 := by
  rw [typeIdentifier_run] at hclean ⊢
  by_cases ht : s.current.token = .identifier
  · rw [if_pos ht] at hclean ⊢
    have hadv := (resolve_reads (n := 0) s).1
    cases hvalue : (resolve s).1.value with
    | typeName type =>
      simp only [hvalue] at hclean ⊢
      rw [resolve_run] at hclean hvalue
      cases hlookup : s.scope.lookup? s.current.text with
      | some e =>
        simp only [hlookup] at hvalue
        exact ⟨e, Scope.mem_of_lookup? hlookup, hvalue⟩
      | none =>
        simp only [hlookup] at hclean
        exact absurd ((next_advances (n := 0) _).clean hclean) (not_clean_report hs _)
    | _ =>
      simp only [hvalue] at hclean
      exact absurd hclean (not_clean_report (hadv.lastError hs) _)
  · rw [if_neg ht] at hclean
    exact absurd hclean (not_clean_report hs _)

theorem State.Grounded.opened_reads {p : Parser α} {s : State} (h : Grounded C (opened id s)) (hp : Reads 0 p) :
    Grounded C (opened id (p s).2) := by
  obtain ⟨hadv, hsame⟩ := hp s
  refine h.reads ?_ ?_
  · exact ⟨hadv.lexemes, hadv.diagnostics, hadv.lastError, hadv.exhausted, hadv.bounded, hadv.reports⟩
  · exact ⟨hsame.types, hsame.scope, congrArg (· + 1) hsame.level, congrArg (id :: ·) hsame.enclosing,
      hsame.forward, hsame.routines, hsame.baseless⟩

def paramEntry (level : Int) (f : Field) : Scope.Entry Declaration :=
  ⟨f.name, level + 1, .variable f.offset f.type⟩

/-- A state within a heading. Apart from the subprogram to be declared and from its parameters the declared
names obey the typing rules. -/
structure Drafted (C : Context) (before : List (Scope.Entry Declaration)) (pending : Scope.Entry Declaration)
    (params : List Field) (s : State) : Prop where
  grounded : Grounded C { s with scope := ⟨before⟩ }
  scope : s.scope.entries = before ++ pending :: params.map (paramEntry s.level)
  level : pending.level = s.level
  fresh : ∀ e ∈ before, ¬(e.name = pending.name ∧ e.level = pending.level)
  untyped : ∀ t, pending.value ≠ .typeName t
  names : (params.map Field.name).Nodup
  types : ∀ f ∈ params, s.types.Has f.type

namespace Drafted

variable {before : List (Scope.Entry Declaration)} {pending : Scope.Entry Declaration} {params : List Field}
  {s : State}

section

variable (h : Drafted C before pending params s)

include h

theorem reads {p : Parser α} (hp : Reads 0 p) : Drafted C before pending params (p s).2 := by
  obtain ⟨hadv, hsame⟩ := hp s
  refine ⟨h.grounded.reads ?_ ?_, ?_, ?_, h.fresh, h.untyped, h.names, ?_⟩
  · exact ⟨hadv.lexemes, hadv.diagnostics, hadv.lastError, hadv.exhausted, hadv.bounded, hadv.reports⟩
  · exact ⟨hsame.types, rfl, hsame.level, hsame.enclosing, hsame.forward, hsame.routines, hsame.baseless⟩
  · rw [hsame.scope, hsame.level]
    exact h.scope
  · rw [hsame.level]
    exact h.level
  · rw [hsame.types]
    exact h.types

theorem lastError : s.diagnostics = [] → s.lastError = none :=
  h.grounded.lastError

theorem level_before (he : e ∈ before) : e.level ≤ s.level := by
  have := (h.grounded.entries e he).level
  rw [← h.grounded.level] at this
  exact this

theorem typeIdentifier (hclean : (typeIdentifier s).2.Clean) : s.types.Has (typeIdentifier s).1 := by
  obtain ⟨e, he, hvalue⟩ := typeIdentifier_found h.lastError hclean
  rw [h.scope, mem_append, mem_cons] at he
  rcases he with he | rfl | he
  · have := (h.grounded.entries e he).value
    rwa [hvalue] at this
  · exact absurd hvalue (h.untyped _)
  · obtain ⟨f, -, rfl⟩ := mem_map.mp he
    simp [paramEntry] at hvalue

theorem declareParameter {name : Text} (htype : s.types.Has type)
    (hclean : (declareAt (s.level + 1) name (.variable 0 type) s).2.Clean) :
    Drafted C before pending (params ++ [⟨name, type, 0⟩]) (declareAt (s.level + 1) name (.variable 0 type) s).2 := by
  obtain ⟨hrun, hnew⟩ := declareAt_scope h.lastError hclean
  rw [hrun]
  refine ⟨h.grounded, ?_, h.level, h.fresh, h.untyped, ?_, ?_⟩
  · show s.scope.entries ++ _ = _
    rw [h.scope, map_append, append_assoc]
    rfl
  · rw [map_append, nodup_append]
    refine ⟨h.names, by simp, ?_⟩
    intro a ha b hb heq
    obtain ⟨f, hf, rfl⟩ := mem_map.mp ha
    have hb : b = name := by simpa using hb
    refine Scope.ne_of_not_declares hnew (e := paramEntry s.level f) ?_ ⟨heq.trans hb, rfl⟩
    rw [h.scope]
    simp only [mem_append, mem_cons, mem_map]
    exact .inr (.inr ⟨f, hf, rfl⟩)
  · intro f hf
    rcases mem_append.mp hf with hf | hf
    · exact h.types f hf
    · obtain rfl := mem_singleton.mp hf
      exact htype

theorem declareParameters {names : List Text} (htype : s.types.Has type)
    (hclean : (declareParameters type names s).2.Clean) :
    Drafted C before pending (params ++ names.map fun name => ⟨name, type, 0⟩)
      (declareParameters type names s).2 := by
  induction names generalizing params s with
  | nil => rwa [map_nil, append_nil]
  | cons name rest ih =>
    have hrun : declareParameters type (name :: rest) s =
        declareParameters type rest (declareAt (s.level + 1) name (.variable 0 type) s).2 := rfl
    rw [hrun] at hclean ⊢
    obtain ⟨hadv, hdev⟩ := declareAt_moves (n := 0) (s.level + 1) name (.variable 0 type) s
    have hfirst := (declareParameters_declares (n := 0) type rest _).moves.1.clean hclean
    have := ih (h.declareParameter htype hfirst) (hdev.types.has htype) hclean
    rwa [append_assoc] at this

end

theorem placeParameter {A B : List Field} {f g : Field} (h : Drafted C before pending (A ++ g :: B) s)
    (hname : g.name = f.name) (htype : g.type = f.type) : Drafted C before pending (A ++ f :: B)
      { s with scope := s.scope.modify f.name (s.level + 1) (Declaration.atOffset f.offset) } := by
  have hnames := h.names
  rw [map_append, map_cons, nodup_append, nodup_cons] at hnames
  obtain ⟨-, ⟨hB, -⟩, hA⟩ := hnames
  have hscope : s.scope.entries = (before ++ pending :: A.map (paramEntry s.level)) ++
      paramEntry s.level g :: B.map (paramEntry s.level) := by
    rw [h.scope, map_append, map_cons, append_assoc]
    rfl
  refine ⟨h.grounded, ?_, h.level, h.fresh, h.untyped, ?_, ?_⟩
  · show (Scope.modify ⟨s.scope.entries⟩ f.name (s.level + 1) _).entries = _
    rw [hscope, ← hname]
    refine (Scope.modify_entries (e := paramEntry s.level g) ?_ ?_ _).trans ?_
    · intro x hx
      rcases mem_append.mp hx with hx | hx
      · have := h.level_before hx
        exact fun heq => by
          have hlevel : x.level = s.level + 1 := heq.2
          omega
      rcases mem_cons.mp hx with rfl | hx
      · exact fun heq => by
          have hlevel : x.level = s.level + 1 := heq.2
          rw [h.level] at hlevel
          omega
      · obtain ⟨y, hy, rfl⟩ := mem_map.mp hx
        exact fun heq => hA y.name (mem_map_of_mem hy) g.name (by simp) heq.1
    · intro x hx
      obtain ⟨y, hy, rfl⟩ := mem_map.mp hx
      exact fun heq => hB (mem_map.mpr ⟨y, hy, heq.1⟩)
    · simp [paramEntry, Declaration.atOffset, hname, htype]
  · rw [map_append, map_cons, ← hname, ← map_cons, ← map_append]
    exact h.names
  · intro x hx
    rcases mem_append.mp hx with hx | hx
    · exact h.types x (by simp [hx])
    rcases mem_cons.mp hx with rfl | hx
    · exact htype ▸ h.types g (by simp)
    · exact h.types x (by simp [hx])

theorem placeParameters {A fs gs : List Field} (h : Drafted C before pending (A ++ gs) s)
    (heq : gs.map (fun f => (f.name, f.type)) = fs.map fun f => (f.name, f.type)) :
    Drafted C before pending (A ++ fs) (placeParameters fs s).2 := by
  induction fs generalizing A gs s with
  | nil =>
    rw [map_nil, map_eq_nil_iff] at heq
    rw [heq] at h
    exact h
  | cons f rest ih =>
    cases gs with
    | nil => simp at heq
    | cons g gs =>
      rw [map_cons, map_cons, List.cons.injEq, Prod.mk.injEq] at heq
      have hstep := h.placeParameter heq.1.1 heq.1.2
      have := ih (A := A ++ [f]) (by rwa [append_assoc]) heq.2
      rw [append_assoc] at this
      exact this

end Drafted

/-- Parameters that have no places yet. -/
def unplaced (params : List (Text × TypeId)) : List Field := params.map fun p => ⟨p.1, p.2, 0⟩

def parameterGroup (params : List (Text × TypeId)) : Parser (List (Text × TypeId)) := do
  let names ← identifiers
  expect .colon
  let type ← typeIdentifier
  declareParameters type names
  return params ++ names.map fun name => (name, type)

theorem parameterGroup_moves (params : List (Text × TypeId)) : Moves 0 (parameterGroup params) :=
  identifiers_reads.moves.bind fun _ => (expect_reads _).moves.bind fun _ =>
    typeIdentifier_reads.moves.bind fun _ => (declareParameters_declares _ _).moves.bind fun _ => .pure _

def parameterList : Parser (List (Text × TypeId)) :=
  loop (separatedStep .semicolon parameterGroup) []

theorem parameters_run (s : State) :
    parameters s = if s.current.token = .leftParen then
      ((parameterList s.next).1, (expect .rightParen (parameterList s.next).2).2) else ([], s) := by
  have heq : parameters = token >>= fun t => if t = .leftParen then
      advance >>= fun _ => parameterList >>= fun params => expect .rightParen >>= fun _ => pure params
    else pure [] := rfl
  rw [heq, token_bind_run]
  split
  · rw [run_bind, run_bind, run_bind]
    rfl
  · rfl

namespace Drafted

variable {before : List (Scope.Entry Declaration)} {pending : Scope.Entry Declaration}
  {named : List (Text × TypeId)} {s : State}

theorem parameterGroup (h : Drafted C before pending (unplaced named) s) (hclean : (parameterGroup named s).2.Clean) :
    Drafted C before pending (unplaced (parameterGroup named s).1) (parameterGroup named s).2 := by
  have hstart := (h.reads identifiers_reads).reads (expect_reads .colon)
  generalize hs' : (expect .colon (identifiers s).2).2 = s' at hstart
  have hrun : Parser.parameterGroup named s =
      (named ++ (identifiers s).1.map fun name => (name, (Parser.typeIdentifier s').1),
        (Parser.declareParameters (Parser.typeIdentifier s').1 (identifiers s).1 (Parser.typeIdentifier s').2).2) := by
    unfold Parser.parameterGroup
    rw [run_bind, run_bind, run_bind, run_bind, hs']
    rfl
  rw [hrun] at hclean ⊢
  have htype := hstart.typeIdentifier ((declareParameters_declares (n := 0) _ _ _).moves.1.clean hclean)
  obtain ⟨-, hsame⟩ := typeIdentifier_reads (n := 0) s'
  have := (hstart.reads typeIdentifier_reads).declareParameters (hsame.types ▸ htype) hclean
  rw [unplaced, map_append, map_map]
  exact this

theorem parameterList (h : Drafted C before pending [] s) (hclean : (parameterList s).2.Clean) :
    Drafted C before pending (unplaced (parameterList s).1) (parameterList s).2 := by
  have hrun : Parser.parameterList s = repeatFor (separatedStep .semicolon Parser.parameterGroup) s.fuel [] s := rfl
  rw [hrun] at hclean ⊢
  refine repeatFor_keeps (P := fun named s => Drafted C before pending (unplaced named) s)
    (Q := fun _ s => s.Clean) ?_ ?_ ?_ s.fuel [] s h hclean
  · exact fun _ s h => by simpa [State.exhaust] using h.exhausted
  · exact fun named s => (separatedStep_moves parameterGroup_moves named s).1.clean
  · intro named s h hclean
    have hgroup := h.parameterGroup
    rw [separatedStep_run] at hclean ⊢
    generalize Parser.parameterGroup named s = r at hgroup hclean ⊢
    split
    · next hmore =>
      rw [if_pos hmore] at hclean
      exact (hgroup ((next_advances (n := 0) _).clean hclean)).reads advance_reads
    · next hmore =>
      rw [if_neg hmore] at hclean
      exact hgroup hclean

theorem parameters (h : Drafted C before pending [] s) (hclean : (Parser.parameters s).2.Clean) :
    Drafted C before pending (unplaced (parameters s).1) (parameters s).2 := by
  rw [parameters_run] at hclean ⊢
  split
  · next ht =>
    rw [if_pos ht] at hclean
    have hnext : Drafted C before pending [] s.next := h.reads advance_reads
    have hlist := hnext.parameterList
    generalize Parser.parameterList s.next = r at hlist hclean
    have hclose := expect_reads (n := 0) .rightParen
    exact (hlist ((hclose r.2).1.clean hclean)).reads hclose
  · exact h

theorem resultOf {params : List Field} (function : Bool) (h : Drafted C before pending params s)
    (hclean : (resultOf function s).2.Clean) :
    match (resultOf function s).1 with
    | some t => function = true ∧ s.types.Has t ∧ s.types.isAggregate t = false
    | none => function = false := by
  cases function with
  | false => rfl
  | true =>
    have hstart := h.reads (expect_reads .colon)
    obtain ⟨-, hsame⟩ := expect_reads (n := 0) .colon s
    generalize hs' : (expect .colon s).2 = s' at hstart hsame
    obtain ⟨hadv, hsame'⟩ := typeIdentifier_reads (n := 0) s'
    have hrun : Parser.resultOf true s = (some (Parser.typeIdentifier s').1,
        (require (!(Parser.typeIdentifier s').2.types.isAggregate (Parser.typeIdentifier s').1)
          .aggregateResult (Parser.typeIdentifier s').2).2) := by
      rw [← hs']
      rfl
    rw [hrun] at hclean ⊢
    have hhas := hstart.typeIdentifier ((require_reads (n := 0) _ rfl _).1.clean hclean)
    rw [hsame'.types, hsame.types] at hclean
    rw [hsame.types] at hhas
    refine ⟨rfl, hhas, ?_⟩
    cases hagg : s.types.isAggregate (Parser.typeIdentifier s').1 with
    | false => rfl
    | true =>
      rw [hagg] at hclean
      exact absurd hclean (not_clean_report (hadv.lastError hstart.lastError) _)

/-- Once a heading is read, everything is in place for the block of the subprogram. -/
theorem enter {function : Bool} {r : Routine} (h : Drafted C before pending r.params s)
    (hresult : match r.result with
      | some t => function = true ∧ s.types.Has t ∧ s.types.isAggregate t = false
      | none => function = false) (hknown : C.known r C.levels) (V : List Field) :
    Grounded (C.enter ⟨r, V⟩) (opened r.id { s with scope :=
      ⟨before ++ { pending with value := .ofRoutine function r } :: r.params.map (paramEntry s.level)⟩ }) where
  lastError := h.grounded.lastError
  ended := h.grounded.ended
  lexemes := h.grounded.lexemes
  short := h.grounded.short
  stage := ⟨h.grounded.stage.builtins, h.grounded.stage.formed, h.grounded.stage.ordered,
    h.grounded.stage.grows, h.grounded.stage.retains⟩
  level := by
    show s.level + 1 = _
    rw [show s.level = C.levels.length from h.grounded.level]
    rfl
  enclosing := congrArg (r.id :: ·) h.grounded.enclosing
  forward := h.grounded.forward
  entries e he := by
    have hlevel : s.level = C.levels.length := h.grounded.level
    rcases mem_append.mp he with he | he
    · exact Context.admits_enter (h.grounded.entries e he)
    rcases mem_cons.mp he with rfl | he
    · have hoffers : (C.enter ⟨r, V⟩).Offers s.types s.level r := by
        refine ⟨⟨1, ?_, by simp, rfl, rfl, hknown⟩, h.types⟩
        show ((C.levels.length + 1 : Nat) : Int) - s.level = _
        omega
      refine ⟨by rw [h.level]; omega, by rw [h.level]; simp; omega, ?_⟩
      rw [h.level]
      cases hr : r.result with
      | some t =>
        rw [hr] at hresult
        obtain ⟨rfl, hhas, hscalar⟩ := hresult
        exact ⟨hoffers, t, hr, hhas, hscalar⟩
      | none =>
        rw [hr] at hresult
        obtain rfl := hresult
        exact ⟨hoffers, hr⟩
    · obtain ⟨f, hf, rfl⟩ := mem_map.mp he
      refine ⟨by simp [paramEntry]; omega, by simp [paramEntry]; omega, h.types f hf, 0, ⟨r, V⟩, ?_, rfl, f,
        mem_append_left _ hf, rfl, rfl⟩
      show ((C.levels.length + 1 : Nat) : Int) - (s.level + 1) = _
      omega

end Drafted

theorem placeParameters_types (params : List Field) (s : State) : (placeParameters params s).2.types = s.types := by
  induction params generalizing s with
  | nil => rfl
  | cons f rest ih => exact ih _

/-- The parameters lie right below the frame. -/
theorem routineOf_wellPlaced {named : List (Text × TypeId)} {result : Option TypeId}
    (htypes : ∀ f ∈ placed ts named, ts.Has f.type)
    (hresult : ∀ t, result = some t → ts.Has t ∧ ts.isAggregate t = false) :
    (routineOf id named ts result).WellPlaced ts where
  types := htypes
  size := by
    show (ts.placeFields 0 named).2 = ts.width (ts.placeFields _ named).1
    rw [placeFields_end, Int64.zero_add]
    exact width_placeFields _ _ _
  placed := placed_placeFields _ _
  result := hresult

theorem Drafted.signature {before : List (Scope.Entry Declaration)} {pending : Scope.Entry Declaration}
    {named : List (Text × TypeId)} {s : State} (h : Drafted C before pending (unplaced named) s) {function : Bool}
    (hfinal : (signature function id true pending.name named s.types s).2.Final C)
    (hknown : C.known (signature function id true pending.name named s.types s).1 C.levels) :
    (signature function id true pending.name named s.types s).1.WellPlaced C.types ∧
      ∀ V, Grounded (C.enter ⟨(signature function id true pending.name named s.types s).1, V⟩)
        (opened (signature function id true pending.name named s.types s).1.id
          (signature function id true pending.name named s.types s).2) := by
  have hgrows := (hfinal.back (signature_moves (n := 0) function id true pending.name named s.types s)).types
  rw [signature_run] at hfinal hknown ⊢
  have htypes := placeParameters_types (placed s.types named) s
  have hplaced : Drafted C before pending (placed s.types named)
      (Parser.placeParameters (placed s.types named) s).2 := by
    refine h.placeParameters (A := []) ?_
    show List.map _ (List.map _ named) = List.map _ (s.types.placeFields _ named).1
    rw [map_placeFields, map_map]
    exact map_id _
  generalize (Parser.placeParameters (placed s.types named) s).2 = s' at *
  have hdrafted := hplaced.reads (resultOf_reads function)
  have hresult := hplaced.resultOf function
  have hsame := (resultOf_reads (n := 0) function s').2.types
  generalize Parser.resultOf function s' = q at *
  dsimp only at hfinal hknown ⊢
  have hcomplete := (expect_reads (n := 0) .semicolon _).1.clean hfinal.clean
  have hresult := hresult ((complete_moves (n := 0) _ _ _ _).1.clean hcomplete)
  constructor
  · refine (routineOf_wellPlaced ?_ ?_).grow hgrows
    · exact htypes ▸ hplaced.types
    · intro t ht
      rw [ht, htypes] at hresult
      exact hresult.2
  · intro V
    rw [← hsame] at hresult
    generalize hr : routineOf id named s.types q.1 = r at *
    have hparams : r.params = placed s.types named := by rw [← hr]; rfl
    have hresult' : r.result = q.1 := by rw [← hr]; rfl
    rw [← hparams] at hdrafted
    rw [← hresult'] at hresult
    have hscope : q.2.scope.modify pending.name q.2.level (fun _ => .ofRoutine function r) =
        ⟨before ++ { pending with value := .ofRoutine function r } :: r.params.map (paramEntry q.2.level)⟩ := by
      show Scope.modify ⟨q.2.scope.entries⟩ _ _ _ = _
      rw [hdrafted.scope, ← hdrafted.level]
      refine congrArg Scope.mk (Scope.modify_entries hdrafted.fresh ?_ fun _ => .ofRoutine function r)
      intro x hx heq
      obtain ⟨f, -, rfl⟩ := mem_map.mp hx
      have : pending.level + 1 = pending.level := heq.2
      omega
    have hcompleted : (complete true pending.name (.ofRoutine function r) q.2).2 =
        { q.2 with scope := q.2.scope.modify pending.name q.2.level fun _ => .ofRoutine function r } := rfl
    refine Grounded.opened_reads ?_ (expect_reads .semicolon)
    rw [hcompleted, hscope]
    exact hdrafted.enter hresult hknown V

/-- A heading whose subprogram is known prepares the block of the subprogram. -/
theorem heading_grounded (function : Bool) {s : State} (hs : s.Grounded C)
    (hfinal : (heading function s).2.Final C) (hknown : C.known (heading function s).1 C.levels) :
    (heading function s).1.WellPlaced C.types ∧ ∀ V, Grounded (C.enter ⟨(heading function s).1, V⟩)
        (opened (heading function s).1.id (heading function s).2) := by
  rw [heading_run] at hfinal hknown ⊢
  obtain ⟨hadv, hsame⟩ := identifier_reads (n := 0) s
  have hstart := hs.reads hadv hsame
  generalize (identifier s).1 = name at *
  generalize (identifier s).2 = t at *
  dsimp only at hfinal hknown ⊢
  generalize hvalue : Declaration.ofRoutine function { id := ⟨t.routines⟩ } = value at *
  have hparameters := hfinal.back (signature_moves (n := 0) _ _ _ _ _ _ _)
  have hdeclare := hparameters.back (parameters_declares (n := 0) _).moves
  obtain ⟨hrun, hnew⟩ :=
    declareAt_scope (s := { t with routines := t.routines + 1 }) hstart.lastError hdeclare.clean
  rw [hrun] at hfinal hknown hparameters ⊢
  have hdrafted : Drafted C t.scope.entries ⟨name, t.level, value⟩ []
      { t with
        routines := t.routines + 1
        scope := ⟨t.scope.entries ++ [⟨name, t.level, value⟩]⟩ } := by
    refine ⟨⟨hstart.lastError, hstart.ended, hstart.lexemes, hstart.short, hstart.stage, hstart.level,
      hstart.enclosing, hstart.entries, hstart.forward⟩, rfl, rfl, ?_, ?_, nodup_nil, by simp⟩
    · exact fun e he => Scope.ne_of_not_declares hnew he
    · intro type
      rw [← hvalue]
      cases function <;> simp [Declaration.ofRoutine]
  exact (hdrafted.parameters hparameters.clean).signature hfinal hknown

end Parser

end MiniPascal
