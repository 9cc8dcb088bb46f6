import MiniPascal.Proofs.Parser.Pointers
import MiniPascal.Proofs.Scopes
import Mathlib.Data.List.Forall2

/-!
# Pointers to types that are declared later

The pointers that a type section adds to the types are those that are written in it, in order. Each of them has a
base when the section is over. If its name is not declared before the section, the base is the type for which the
section declares the name, no matter where in the section. A name that is declared further out stands for what it is
there, up to its own declaration.
-/

namespace MiniPascal.Parser

open State

theorem programHeading_lastError (source : Text) :
    (programHeading source).2.diagnostics = [] → (programHeading source).2.lastError = none := by
  obtain ⟨l, rest, -, hstart, -⟩ := ofSource_start (n := 0) source
  obtain ⟨hpreamble, -⟩ := preamble_reads (ofSource source)
  have hquiet := (hstart.trans hpreamble).lastError fun _ => rfl
  unfold programHeading
  generalize preamble (ofSource source) = q at *
  dsimp only
  have hquiet : ({ q.2 with routines := q.2.routines + 1 } : State).diagnostics = [] →
      ({ q.2 with routines := q.2.routines + 1 } : State).lastError = none := hquiet
  generalize ({ q.2 with routines := q.2.routines + 1 } : State) = t at *
  exact (declare_declares (n := 0) _ _ t).moves.1.lastError hquiet

/-- The first problem that the analysis of a source meets at a place is going to be recorded. -/
theorem Inside.ready {source : Text} {n : Nat} {frames : List Frame} {level : Int} {s : State}
    (h : Inside source n frames level s) : s.Ready := by
  refine ⟨?_, h.framed.ended⟩
  induction h with
  | program =>
    have hquiet := programHeading_lastError source
    generalize programHeading source = q at *
    exact hquiet
  | part place moves adds ih => exact (moves _).1.lastError ih
  | subprogram function place start ih =>
    exact ((subprogram_moves (blockWithin_moves _) function).moves advance_reads.moves _).1.lastError ih
  | heading function place start moves adds ih =>
    exact (moves _).1.lastError ((announce_declares function _).moves.1.lastError ((next_advances (n := 0) _).lastError ih))
  | @enter n _ _ s function _ _ ih =>
    have hquiet := (heading_moves (n := 0) function s.next).1.lastError ((next_advances (n := 0) s).lastError ih)
    generalize Parser.heading function s.next = q at *
    exact hquiet

/-- A pointer to what a name stands for, written between two states. It has a base: the type that the name stands for
where the pointer is written, or in the end, if the name is not declared there. For a name that was not declared
before, that is the type for which the name is declared in between. -/
structure Binds (s t : State) (name : Text) (type : TypeId) : Prop where
  isSome : (t.types.get type).base.isSome
  own : s.scope.lookup? name = none → ∀ base, ⟨name, s.level, .typeName base⟩ ∈ added s t →
    (t.types.get type).base = some base
  seen : ∃ scope : Scope Declaration, s.scope.entries <+: scope.entries ∧ scope.entries <+: t.scope.entries ∧
    (t.types.get type).base = (denoted scope name).or (denoted t.scope name)

/-- A name that is declared only between two states stands for its one declaration, up to any state in between. -/
theorem denoted_own {s t : State} (hadds : State.Adds 0 s t) (hdistinct : s.scope.Distinct) {name : Text}
    (hnew : s.scope.lookup? name = none) {base : TypeId} (hown : ⟨name, s.level, .typeName base⟩ ∈ added s t)
    {scope : Scope Declaration} (hscope : scope.entries <+: t.scope.entries) {type : TypeId}
    (h : denoted scope name = some type) : type = base := by
  obtain ⟨e, he, hname, hvalue⟩ := entry_of_denoted h
  obtain ⟨own, hentries, hlevel⟩ := hadds.names
  rw [added_eq hentries] at hown
  have he := hscope.subset he
  rw [hentries] at he
  rcases List.mem_append.mp he with he | he
  · exact absurd hname (Scope.lookup?_eq_none_iff.mp hnew e he)
  · -- Both declarations are of the same name and level, and there is only one of these.
    have hkeys : (Scope.keys own).Nodup := by
      have := hadds.distinct hdistinct
      rw [Scope.Distinct, hentries, Scope.keys_append] at this
      exact (List.nodup_append.mp this).2.1
    have hlevel' := hlevel e he
    rw [Int.add_zero] at hlevel'
    have heq := List.inj_on_of_nodup_map hkeys he hown (by rw [hname, hlevel'])
    rw [heq] at hvalue
    cases hvalue
    rfl

/-- The pointers of a type section that is accepted, at any place in the analysis of a source, are those that are
written in it, in order, and each of them is bound. -/
theorem typeSection_binds_pointers {source : Text} {n : Nat} {f : Frame} {frames : List Frame} {s : State}
    (place : Inside source n (f :: frames) s.level s) (start : s.current.token = .kwType)
    (accepted : (typeSection s).2.diagnostics = []) : ∃ taken, s.lexemes = taken ++ (typeSection s).2.lexemes ∧
      List.Forall₂ (Binds s (typeSection s).2) (pointees taken)
        ((typeSection s).2.types.pointersFrom s.types.descs.size) := by
  obtain ⟨taken, ps, hlexemes, hnames, htypes, hresolves⟩ := typeSection_writes place.ready start accepted
  refine ⟨taken, hlexemes, ?_⟩
  rw [hnames, htypes, List.forall₂_map_left_iff, List.forall₂_map_right_iff, List.forall₂_same]
  intro p hp
  obtain ⟨hfirst, hlast, hbase, hsome⟩ := hresolves p hp
  refine ⟨hsome, fun hnew base hown => ?_, p.seen, hfirst, hlast, hbase⟩
  obtain ⟨type, htype⟩ := Option.isSome_iff_exists.mp hsome
  rw [htype]
  rw [htype] at hbase
  have hdenoted {scope : Scope Declaration} (hscope : scope.entries <+: (typeSection s).2.scope.entries)
      (h : denoted scope p.name = some type) : some type = some base :=
    congrArg some (denoted_own ((typeSection_declares.declares (n := 0) advance_reads).adds s) place.framed.distinct hnew hown hscope h)
  rcases Option.or_eq_some_iff.mp hbase.symm with h | ⟨-, h⟩
  · exact hdenoted hlast h
  · exact hdenoted List.prefix_rfl h

def programStart (source : Text) : State := opened (programHeading source).1 (programHeading source).2

def procedureStart (s : State) : State := opened (heading false s.next).1.id (heading false s.next).2

/-- A list of numbers, with a pointer before the declaration of its cells and one inside. -/
def listSource : Text :=
  Text.ofChars "program p;type list=^cell;cell=record next:^cell;value:real end;begin end.".toList

/-- Both pointers lead to cells. -/
theorem typeSection_binds_pointers_list : ∃ n f frames s, Inside listSource n (f :: frames) s.level s ∧
    s.current.token = .kwType ∧ (typeSection s).2.diagnostics = [] ∧
    s.scope.lookup? (Text.ofChars "cell".toList) = none ∧
    ⟨Text.ofChars "cell".toList, s.level, .typeName ⟨7⟩⟩ ∈ added s (typeSection s).2 ∧
    (typeSection s).2.types.pointersFrom s.types.descs.size = [⟨5⟩, ⟨6⟩] ∧
    ∃ taken, s.lexemes = taken ++ (typeSection s).2.lexemes ∧
      List.Forall₂ (Binds s (typeSection s).2) (pointees taken) [⟨5⟩, ⟨6⟩] := by
  have place : Inside listSource _ _ 1 (programStart listSource) := .program
  have facts : 1 = (programStart listSource).level ∧ (programStart listSource).current.token = .kwType ∧
      (typeSection (programStart listSource)).2.diagnostics = [] ∧
      (programStart listSource).scope.lookup? (Text.ofChars "cell".toList) = none ∧
      ⟨Text.ofChars "cell".toList, (programStart listSource).level, .typeName ⟨7⟩⟩ ∈
        added (programStart listSource) (typeSection (programStart listSource)).2 ∧
      (typeSection (programStart listSource)).2.types.pointersFrom (programStart listSource).types.descs.size =
        [⟨5⟩, ⟨6⟩] := by decide +kernel
  generalize programStart listSource = s at *
  obtain ⟨hlevel, start, accepted, hnew, hown, htypes⟩ := facts
  rw [hlevel] at place
  have hbinds := typeSection_binds_pointers place start accepted
  rw [htypes] at hbinds
  exact ⟨_, _, _, s, place, start, accepted, hnew, hown, htypes, hbinds⟩

/-- A procedure with cells of its own, in a program where the name stands for numbers. -/
def shadowingSource : Text :=
  Text.ofChars ("program p;type cell=real;procedure q;type cell=record next:^cell;value:real end;" ++
    "begin end;begin end.").toList

/-- The pointer inside a cell of the procedure leads to a number, not to a cell. -/
theorem typeSection_binds_outer : ∃ n f frames s, Inside shadowingSource n (f :: frames) s.level s ∧
    s.current.token = .kwType ∧ (typeSection s).2.diagnostics = [] ∧
    (∃ taken, s.lexemes = taken ++ (typeSection s).2.lexemes ∧ pointees taken = [Text.ofChars "cell".toList]) ∧
    (typeSection s).2.types.pointersFrom s.types.descs.size = [⟨5⟩] ∧
    ⟨Text.ofChars "cell".toList, s.level, .typeName ⟨6⟩⟩ ∈ added s (typeSection s).2 ∧
    ((typeSection s).2.types.get ⟨5⟩).base = some .real := by
  have outer : Inside shadowingSource (programHeading shadowingSource).2.rest.length _ 1
    (programStart shadowingSource) := .program
  have facts : 0 < (programHeading shadowingSource).2.rest.length ∧ 1 = (programStart shadowingSource).level ∧
      (typeSection (programStart shadowingSource)).2.current.token = subprogramToken false ∧
      (typeSection (programStart shadowingSource)).2.level + 1 =
        (procedureStart (typeSection (programStart shadowingSource)).2).level := by decide +kernel
  have inner :
      let s := procedureStart (typeSection (programStart shadowingSource)).2
      let t := (typeSection s).2
      s.current.token = .kwType ∧ t.diagnostics = [] ∧ s.lexemes = s.lexemes.take 14 ++ t.lexemes ∧
        pointees (s.lexemes.take 14) = [Text.ofChars "cell".toList] ∧
        t.types.pointersFrom s.types.descs.size = [⟨5⟩] ∧
        ⟨Text.ofChars "cell".toList, s.level, .typeName ⟨6⟩⟩ ∈ added s t ∧
        (t.types.get ⟨5⟩).base = some .real := by decide +kernel
  generalize programStart shadowingSource = s at *
  generalize (programHeading shadowingSource).2.rest.length = n at *
  obtain ⟨hpos, hlevel, hprocedure, hinner⟩ := facts
  obtain ⟨n, rfl⟩ := Nat.exists_eq_succ_of_ne_zero (Nat.ne_of_gt hpos)
  rw [hlevel] at outer
  have hdeclares := typeSection_declares.declares (n := 0) advance_reads
  have after := outer.part hdeclares.moves hdeclares.adds
  rw [← (hdeclares.adds s).level] at after
  have place := after.enter false hprocedure
  rw [hinner] at place
  obtain ⟨start, accepted, htaken, hnames, htypes, hown, hbase⟩ := inner
  exact ⟨_, _, _, _, place, start, accepted, ⟨_, htaken, hnames⟩, htypes, hown, hbase⟩

end MiniPascal.Parser
