import MiniPascal.Proofs.Parser.TypedProgram

/-!
# Names that are declared and dropped

The declarations of a block only add names, all of them at the level of the block, whether or not the source
is in order. A heading adds the name of its subprogram at the current level and its parameters one level
further in, and the block of the subprogram drops all names of that level again. So a subprogram leaves its
own name behind and nothing else.
-/

namespace MiniPascal.Parser

open List Scope

open State

variable {s : State} {older : List (Scope.Entry Declaration)} {os : List (Text × Int × DeclKind)}

/-! ## Declarations -/

theorem declareAt_fresh {level : Int} {name : Text} {value : Declaration}
    (h : (declareAt level name value s).1 = true) : ∀ e ∈ s.scope.entries, ¬(e.name = name ∧ e.level = level) := by
  rw [declareAt_run] at h
  unfold Scope.insert at h
  cases hnew : s.scope.declares name level with
  | true => simp [hnew] at h
  | false => exact fun e he => ne_of_not_declares hnew he

/-! ## Headings -/

def subprogramKind (function : Bool) : DeclKind := if function then .function else .procedure

theorem kind_ofRoutine (function : Bool) (r : Routine) :
    (Declaration.ofRoutine function r).kind = subprogramKind function := by
  cases function <;> rfl

/-- A name with its level and the kind of what it stands for. -/
def outline (e : Scope.Entry Declaration) : Text × Int × DeclKind := (e.name, e.level, e.value.kind)

/-- Some names come first, and those after them are of given levels and kinds. -/
def Outlined (older : List (Scope.Entry Declaration)) (os : List (Text × Int × DeclKind)) (s : State) : Prop :=
  ∃ rest, s.scope.entries = older ++ rest ∧ rest.map outline = os

namespace Outlined

variable (h : Outlined older os s)

include h

theorem same {t : State} (hsame : SameDeclarations s t) : Outlined older os t := by
  rwa [Outlined, hsame.scope]

/-- Names may stand for something else of the same kind. -/
theorem modify {name : Text} {level : Int} {f : Declaration → Declaration}
    (holder : ∀ e ∈ older, ¬(e.name = name ∧ e.level = level))
    (hkind : ∀ d : Declaration, (name, level, d.kind) ∈ os → (f d).kind = d.kind) :
    Outlined older os { s with scope := s.scope.modify name level f } := by
  obtain ⟨rest, hscope, rfl⟩ := h
  refine ⟨(modify ⟨rest⟩ name level f).entries, ?_, ?_⟩
  · show (modify ⟨s.scope.entries⟩ _ _ _).entries = _
    rw [hscope, modify_append, modify_of_ne holder]
  · rw [Scope.modify, map_map]
    refine map_congr_left fun e he => ?_
    dsimp only [Function.comp]
    split
    · next heq =>
      rw [Bool.and_eq_true, decide_eq_true_eq, decide_eq_true_eq] at heq
      obtain ⟨rfl, rfl⟩ := heq
      exact congrArg (e.name, e.level, ·) (hkind e.value (mem_map_of_mem he))
    · rfl

theorem placeParameters (fields : List Field) (holder : ∀ e ∈ older, e.level ≠ s.level + 1) :
    (placeParameters fields s).2.level = s.level ∧ Outlined older os (placeParameters fields s).2 := by
  induction fields generalizing s with
  | nil => exact ⟨rfl, h⟩
  | cons f rest ih =>
    exact ih (h.modify (fun e he heq => holder e he heq.2) fun d _ => by cases d <;> rfl) holder

theorem complete {function declared : Bool} {name : Text} (r : Routine)
    (holder : declared = true → ∀ e ∈ older, ¬(e.name = name ∧ e.level = s.level))
    (hkind : ∀ k, (name, s.level, k) ∈ os → k = subprogramKind function) :
    (complete declared name (.ofRoutine function r) s).2.level = s.level ∧
      Outlined older os (complete declared name (.ofRoutine function r) s).2 := by
  cases declared with
  | false => exact ⟨rfl, h⟩
  | true => exact ⟨rfl, h.modify (holder rfl) fun d hd => (kind_ofRoutine _ _).trans (hkind _ hd).symm⟩

theorem signature (function declared : Bool) (name : Text) (id : RoutineId) (named : List (Text × TypeId))
    (ts : TypeTable) (holder : ∀ e ∈ older, e.level ≤ s.level)
    (hfresh : declared = true → ∀ e ∈ older, ¬(e.name = name ∧ e.level = s.level))
    (hkind : ∀ k, (name, s.level, k) ∈ os → k = subprogramKind function) :
    (signature function id declared name named ts s).2.level = s.level ∧
      Outlined older os (signature function id declared name named ts s).2 := by
  rw [signature_run]
  obtain ⟨hlevel, hplaced⟩ := h.placeParameters (placed ts named) fun e he => by
    have := holder e he
    omega
  obtain ⟨-, hresult⟩ := resultOf_reads (n := 0) function (Parser.placeParameters (placed ts named) s).2
  have hlevel := hresult.level.trans hlevel
  generalize resultOf function (Parser.placeParameters (placed ts named) s).2 = q at *
  obtain ⟨hcomplete, hnames⟩ := (hplaced.same hresult).complete (routineOf id named ts q.1) (by rwa [hlevel])
    (by rwa [hlevel])
  obtain ⟨-, hexpect⟩ := expect_reads (n := 0) .semicolon
    (Parser.complete declared name (.ofRoutine function (routineOf id named ts q.1)) q.2).2
  exact ⟨hexpect.level.trans (hcomplete.trans hlevel), hnames.same hexpect⟩

end Outlined

/-- What a heading adds to the names of a state: that of its subprogram, unless it is taken, and its
parameters. -/
structure Heads (function : Bool) (name : Text) (s t : State) (own params : List (Scope.Entry Declaration)) :
    Prop where
  level : t.level = s.level
  names : t.scope.entries = s.scope.entries ++ own ++ params
  single : own.length ≤ 1
  own : ∀ e ∈ own, e.name = name ∧ e.level = s.level ∧ e.value.kind = subprogramKind function
  params : ∀ e ∈ params, e.level = s.level + 1
  distinct : s.scope.Distinct → t.scope.Distinct

theorem heading_names (function : Bool) (hs : ∀ e ∈ s.scope.entries, e.level ≤ s.level) :
    ∃ own params, Heads function (identifier s).1 s (heading function s).2 own params := by
  rw [heading_run]
  obtain ⟨-, hident⟩ := identifier_reads (n := 0) s
  generalize (identifier s).2 = t at *
  generalize (identifier s).1 = name at *
  rw [← hident.scope, ← hident.level] at hs
  suffices ∃ own params, Heads function name t _ own params by
    obtain ⟨own, params, h⟩ := this
    exact ⟨own, params, hident.level ▸ h.level, hident.scope ▸ h.names, h.single, hident.level ▸ h.own,
      hident.level ▸ h.params, hident.scope ▸ h.distinct⟩
  dsimp only
  have hnames := declareAt_names t.level name (.ofRoutine function { id := ⟨t.routines⟩ })
    { t with routines := t.routines + 1 }
  have hfresh : (declareAt t.level name (.ofRoutine function { id := ⟨t.routines⟩ })
      { t with routines := t.routines + 1 }).1 = true →
        ∀ e ∈ t.scope.entries, ¬(e.name = name ∧ e.level = t.level) := declareAt_fresh
  have hadds := declareAt_adds (k := 0) name (.ofRoutine function { id := ⟨t.routines⟩ })
    { t with routines := t.routines + 1 }
  simp only [Int.add_zero] at hadds
  generalize declareAt t.level name (.ofRoutine function { id := ⟨t.routines⟩ })
    { t with routines := t.routines + 1 } = d at *
  obtain ⟨own, hown, hsingle, hentries⟩ : ∃ own : List (Scope.Entry Declaration),
      (∀ e ∈ own, outline e = (name, t.level, subprogramKind function)) ∧ own.length ≤ 1 ∧
        d.2.scope.entries = t.scope.entries ++ own := by
    refine ⟨_, fun e he => ?_, ?_, hnames⟩
    · split at he
      · rw [mem_singleton.mp he, outline, kind_ofRoutine]
      · cases he
    · split <;> simp
  have hlevel : d.2.level = t.level := hadds.level
  have hparams : State.Adds 1 d.2 (parameters d.2).2 := parameters_declares.adds (n := 0) d.2
  generalize parameters d.2 = q at *
  obtain ⟨params, hscope, hparamLevel⟩ := hparams.names
  have hqlevel : q.2.level = t.level := hparams.level.trans hlevel
  rw [hlevel] at hparamLevel
  rw [hentries, append_assoc] at hscope
  have hkind (k : DeclKind) (hk : (name, t.level, k) ∈ (own ++ params).map outline) : k = subprogramKind function := by
    obtain ⟨e, he, heq⟩ := mem_map.mp hk
    rcases mem_append.mp he with he | he
    · simpa [hown e he] using heq.symm
    · have hinner : e.level = t.level := congrArg (·.2.1) heq
      have := hparamLevel e he
      omega
  obtain ⟨hsigLevel, rest, hrest, houtline⟩ := Outlined.signature ⟨_, hscope, rfl⟩ function d.1 name ⟨t.routines⟩ q.1
    q.2.types (by rwa [hqlevel]) (by rwa [hqlevel]) (by rwa [hqlevel])
  have hkeys : Scope.keys rest = Scope.keys (own ++ params) := by
    simpa [Scope.keys, outline, Function.comp_def] using congrArg (List.map fun o => (o.1, o.2.1)) houtline
  have hdistinct (ht : t.scope.Distinct) : q.2.scope.Distinct := hparams.distinct (hadds.distinct ht)
  rw [Scope.Distinct.eq_def q.2.scope, hscope, Scope.keys_append, ← hkeys, ← Scope.keys_append, ← hrest] at hdistinct
  obtain ⟨own', params', rfl, hown', hparams'⟩ := map_eq_append_iff.mp (houtline.trans map_append)
  refine ⟨own', params', hsigLevel.trans hqlevel, hrest.trans (append_assoc _ _ _).symm, ?_, fun e he => ?_,
    fun e he => ?_, hdistinct⟩
  · rwa [← length_map outline, hown', length_map]
  · obtain ⟨x, hx, heq⟩ := mem_map.mp (hown' ▸ mem_map_of_mem he)
    simpa [outline] using heq.symm.trans (hown x hx)
  · obtain ⟨x, hx, heq⟩ := mem_map.mp (hparams' ▸ mem_map_of_mem he)
    exact (congrArg (·.2.1) heq).symm.trans (hparamLevel x hx)

/-! ## Blocks -/

/-- A bound covers the lexemes left, and no name belongs to a block further in. -/
structure State.Settled (n : Nat) (s : State) : Prop where
  ended : s.Ended
  bound : s.lexemes.length ≤ n
  level : ∀ e ∈ s.scope.entries, e.level ≤ s.level

theorem State.Settled.adds {n : Nat} {t : State} (h : s.Settled n) (hlexemes : t.lexemes <:+ s.lexemes)
    (hadds : State.Adds 0 s t) : t.Settled n where
  ended := h.ended.of_suffix hlexemes
  bound := Nat.le_trans hlexemes.length_le h.bound
  level e he := by
    obtain ⟨own, hown, hlevel⟩ := hadds.names
    rw [hown] at he
    rw [hadds.level]
    rcases mem_append.mp he with he | he
    · exact h.level e he
    · have := hlevel e he
      omega

/-- Blocks drop the names of their level and no others, as long as a bound covers the lexemes left. -/
def Drops (n : Nat) (block : Routine → Parser Blocks) : Prop :=
  ∀ routine s, s.Ended → s.lexemes.length ≤ n → (∀ e ∈ s.scope.entries, e.level ≤ s.level + 1) →
    (block routine s).2.scope = s.scope.purge (s.level + 1)

section

variable {n : Nat} {block : Routine → Parser Blocks}

theorem subprogram_names (hmoves : ∀ routine, Moves 0 (block routine)) (hblock : Drops n block) (function : Bool)
    (hs : s.Settled (n + 1)) (htoken : s.current.token ≠ .endOfFile) : State.Adds 0 s (subprogram block function s).2 ∧
      ∃ own, (subprogram block function s).2.scope.entries = s.scope.entries ++ own ∧ own.length ≤ 1 ∧
        ∀ e ∈ own, e.name = (identifier s.next).1 ∧ e.level = s.level ∧ e.value.kind = subprogramKind function := by
  rw [subprogram_run]
  have hnext := next_same s
  have hlt := length_next_lt hs.ended htoken
  obtain ⟨own, params, hheads⟩ := heading_names function (s := s.next) (by
    rw [hnext.scope, hnext.level]
    exact hs.level)
  have hlexemes := ((heading_moves (n := 0) function) s.next).1.lexemes
  generalize heading function s.next = h at *
  dsimp only
  have hnames := hheads.names
  rw [hnext.scope] at hnames
  have hended := (hs.ended.of_suffix (next_advances (n := 0) s).lexemes).of_suffix hlexemes
  have hbound := hs.bound
  have hlen := hlexemes.length_le
  have hlevel : h.2.level = s.level := hheads.level.trans hnext.level
  have hown := hheads.own
  have hparams := hheads.params
  rw [hnext.level] at hown hparams
  have hkept : ∀ e ∈ s.scope.entries ++ own, e.level ≤ s.level := by
    intro e he
    rcases mem_append.mp he with he | he
    · exact hs.level e he
    · exact Int.le_of_eq (hown e he).2.1
  have hpurge := hblock h.1 h.2 hended (by omega) (by
    rw [hnames, hlevel]
    intro e he
    rcases mem_append.mp he with he | he
    · exact Int.le_trans (hkept e he) (by omega)
    · exact Int.le_of_eq (hparams e he))
  have hentries : (block h.1 h.2).2.scope.entries = s.scope.entries ++ own := by
    rw [hpurge, hlevel]
    show (purge ⟨h.2.scope.entries⟩ _).entries = _
    rw [hnames]
    exact purge_append (fun e he => by have := hkept e he; omega) hparams
  obtain ⟨-, hexpect⟩ := expect_reads (n := 0) .semicolon (block h.1 h.2).2
  rw [← hexpect.scope] at hentries
  refine ⟨⟨?_, ⟨own, hentries, ?_⟩, fun hdistinct => ?_⟩, own, hentries, hheads.single, hown⟩
  · exact hexpect.level.trans ((hmoves h.1 h.2).2.level.trans hlevel)
  · intro e he
    rw [(hown e he).2.1, Int.add_zero]
  · rw [hexpect.scope, hpurge]
    exact (hheads.distinct (hnext.scope ▸ hdistinct)).purge _

theorem declaration_adds (hmoves : ∀ routine, Moves 0 (block routine)) (hblock : Drops n block) (d : Declared)
    (hs : s.Settled (n + 1)) : AddsAt 0 (declaration block d) s := by
  have subprogram (function : Bool) (htoken : s.current.token ≠ .endOfFile) :
      AddsAt 0 (subprogram block function) s :=
    (subprogram_names hmoves hblock function hs htoken).1
  have sections {α : Type} {p : Parser α} {f : α → Bool × Declared} (h : BeginsWith (Declares 0 0) advance p) :
      AddsAt 0 (p >>= fun a => pure (f a)) s := ((h.declares advance_reads).adds s).bind fun _ => .refl
  refine AddsAt.token_bind ?_
  split
  · exact sections constantSection_declares
  · exact sections typeSection_declares
  · exact sections (variableSection_declares d)
  · next htoken => exact (subprogram false (by simp [htoken])).bind fun _ => .refl
  · next htoken => exact (subprogram true (by simp [htoken])).bind fun _ => .refl
  · exact .refl s

theorem declarations_adds (hmoves : ∀ routine, Moves n (block routine)) (hblock : Drops n block) (d : Declared)
    (hs : s.Settled (n + 1)) : State.Adds 0 s (loop (declaration block) d s).2 := by
  have hmoves' (routine : Routine) : Moves 0 (block routine) := (hmoves routine).mono (Nat.zero_le n)
  have hrepeat (k : Nat) : ∀ (d : Declared) (t : State), t.Settled (n + 1) → State.Adds 0 s t →
      State.Adds 0 s (repeatFor (declaration block) k d t).2 := by
    induction k with
    | zero => exact fun d t _ h => h.trans (.of_same rfl rfl)
    | succ k ih =>
      intro d t ht h
      have hstep : State.Adds 0 t (declaration block d t).2 := declaration_adds hmoves' hblock d ht
      rw [repeatFor_succ]
      split
      · exact ih _ _ (ht.adds (declaration_moves hmoves d t).1.lexemes hstep) (h.trans hstep)
      · exact h.trans hstep
  exact hrepeat s.fuel d s hs (.refl s)

theorem blockOf_drops (hmoves : ∀ routine, Moves n (block routine)) (hblock : Drops n block) :
    Drops (n + 1) (blockOf block) := by
  intro routine s hended hbound hlevel
  have hopened : (opened routine.id s).Settled (n + 1) := ⟨hended, hbound, hlevel⟩
  have hadds := declarations_adds hmoves hblock {} hopened
  obtain ⟨-, hbody⟩ := body_reads (n := 0) (loop (declaration block) {} (opened routine.id s)).2
  obtain ⟨own, hown, hownLevel⟩ := hadds.names
  rw [blockOf_run, inside_run]
  show purge (body (loop (declaration block) {} (opened routine.id s)).2).2.scope
    (body (loop (declaration block) {} (opened routine.id s)).2).2.level = _
  rw [hbody.scope, hbody.level, hadds.level]
  show purge ⟨_⟩ (s.level + 1) = purge _ _
  rw [hown]
  have hdrop : own.filter (fun e => e.level ≠ s.level + 1) = [] :=
    filter_eq_nil_iff.mpr fun e he => by simpa [opened] using hownLevel e he
  rw [purge, purge, filter_append, hdrop, append_nil]
  rfl

end

theorem blockWithin_drops (n : Nat) : Drops n (blockWithin n) := by
  induction n with
  | zero =>
    intro routine s _ hbound
    simp [State.lexemes] at hbound
  | succ n ih => exact blockOf_drops (blockWithin_moves n) ih

end MiniPascal.Parser
