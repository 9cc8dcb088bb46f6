import MiniPascal.Proofs.Parser.Scoping

/-!
# Blocks and their names

Wherever the analysis of a source stands, the declared names are those of the blocks around that place, one
frame of names for each block: what the block has declared so far. A name is looked up in these frames from
the innermost one outwards. A subprogram that is passed leaves its own name in the frame around it and nothing
else, and at the end only the names of the outermost level are left. All of this holds of sources with
mistakes in them, too.
-/

namespace MiniPascal.Parser

open List

open State

/-! ## Frames -/

/-- The names that a block has declared, oldest first. -/
abbrev Frame := List (Scope.Entry Declaration)

/-- Frames of blocks inside one another, the innermost one first; the outermost level is zero. -/
def Nested : Int → List Frame → Prop
  | level, [] => level = -1
  | level, f :: frames => (∀ e ∈ f, e.level = level) ∧ Nested (level - 1) frames

theorem Nested.le {level : Int} {frames : List Frame} (h : Nested level frames) :
    ∀ e ∈ frames.reverse.flatten, e.level ≤ level := by
  induction frames generalizing level with
  | nil => simp
  | cons f frames ih =>
    intro e he
    rw [reverse_cons, flatten_concat, mem_append] at he
    rcases he with he | he
    · have := ih h.2 e he
      omega
    · exact Int.le_of_eq (h.1 e he)

theorem Nested.level_of_mem {level : Int} {frames : List Frame} (h : Nested level frames) {f : Frame}
    (hf : f ∈ frames) : ∃ l, ∀ e ∈ f, e.level = l := by
  induction frames generalizing level with
  | nil => simp at hf
  | cons g frames ih =>
    rcases mem_cons.mp hf with rfl | hf
    · exact ⟨level, h.1⟩
    · exact ih h.2 hf

/-- A name stands for its declaration in the innermost frame that has one. -/
theorem Nested.lookup? {level : Int} {frames : List Frame} (h : Nested level frames) (name : Text) :
    Scope.lookup? ⟨frames.reverse.flatten⟩ name = frames.findSome? fun f => Scope.first? f name := by
  induction frames generalizing level with
  | nil => rfl
  | cons f frames ih =>
    rw [reverse_cons, flatten_concat, List.findSome?_cons, ← ih h.2,
      Scope.lookup?_append level (fun e he => by have := h.2.le e he; omega) h.1]
    cases Scope.first? f name <;> rfl

/-! ## Places -/

/-- The names that are declared between two states. -/
def added (s t : State) : Frame := t.scope.entries.drop s.scope.entries.length

theorem added_eq {s t : State} {own : Frame} (h : t.scope.entries = s.scope.entries ++ own) : added s t = own := by
  rw [added, h, drop_left]

theorem filter_level {own params : Frame} {level : Int} (hown : ∀ e ∈ own, e.level = level)
    (hparams : ∀ e ∈ params, e.level = level + 1) : (own ++ params).filter (fun e => e.level = level + 1) = params ∧
      (own ++ params).filter (fun e => e.level = level) = own := by
  have all {frame : Frame} {l : Int} (h : ∀ e ∈ frame, e.level = l) :
      frame.filter (fun e => e.level = l) = frame :=
    filter_eq_self.mpr fun e he => by simpa using h e he
  have none {frame : Frame} {l m : Int} (h : ∀ e ∈ frame, e.level = l) (hne : l ≠ m) :
      frame.filter (fun e => e.level = m) = [] :=
    filter_eq_nil_iff.mpr fun e he => by simpa [h e he] using hne
  rw [filter_append, filter_append, all hown, all hparams, none hown (by omega),
    none hparams (by omega), append_nil, nil_append]
  exact ⟨rfl, rfl⟩

def subprogramToken (function : Bool) : Token := if function then .kwFunction else .kwProcedure

/-- The name of a subprogram, at the start of its heading. -/
def announce (function : Bool) : Parser Bool := do
  let name ← identifier
  let id ← freshRoutine
  declareAt (← level) name (.ofRoutine function { id })

/-- The state after the heading of a program, with the number of the program. -/
def programHeading (source : Text) : RoutineId × State :=
  let q := preamble (ofSource source)
  (⟨q.2.routines⟩, (declare q.1 (.procedure { id := ⟨q.2.routines⟩ }) { q.2 with routines := q.2.routines + 1 }).2)

/-- The analysis of a source stands at a place inside some blocks, with what each of them has declared so far,
the innermost one first. The number bounds the blocks inside the innermost one, and the level is that of the
names that are declared at the place. A place is reached from the opening of a block by parts that only
declare names of the block, and by whole subprograms; and from the start of a subprogram by its heading. -/
inductive Inside (source : Text) : Nat → List Frame → Int → State → Prop where
  | program : Inside source (programHeading source).2.rest.length [[], (programHeading source).2.scope.entries] 1
      (opened (programHeading source).1 (programHeading source).2)
  | part {n : Nat} {f : Frame} {frames : List Frame} {s : State} {α : Type} {p : Parser α}
      (place : Inside source n (f :: frames) s.level s) (moves : Moves 0 p) (adds : Adds 0 p) :
      Inside source n ((f ++ added s (p s).2) :: frames) s.level (p s).2
  | subprogram {n : Nat} {f : Frame} {frames : List Frame} {s : State} (function : Bool)
      (place : Inside source n (f :: frames) s.level s) (start : s.current.token = subprogramToken function) :
      Inside source n ((f ++ added s (subprogram (blockWithin n) function s).2) :: frames) s.level
        (subprogram (blockWithin n) function s).2
  | heading {n : Nat} {f : Frame} {frames : List Frame} {s : State} {α : Type} {p : Parser α} (function : Bool)
      (place : Inside source (n + 1) (f :: frames) s.level s) (start : s.current.token = subprogramToken function)
      (moves : Moves 0 p) (adds : Adds 1 p) :
      Inside source n
        (added (announce function s.next).2 (p (announce function s.next).2).2 ::
          (f ++ added s (announce function s.next).2) :: frames)
        (s.level + 1) (p (announce function s.next).2).2
  | enter {n : Nat} {f : Frame} {frames : List Frame} {s : State} (function : Bool)
      (place : Inside source (n + 1) (f :: frames) s.level s) (start : s.current.token = subprogramToken function) :
      Inside source n
        ((added s (heading function s.next).2).filter (fun e => e.level = s.level + 1) ::
          (f ++ (added s (heading function s.next).2).filter fun e => e.level = s.level) :: frames)
        (s.level + 1) (opened (heading function s.next).1.id (heading function s.next).2)

/-- The names at a place are those of the frames around it, and the lexemes left are covered by the bound. -/
structure Framed (n : Nat) (frames : List Frame) (level : Int) (s : State) : Prop where
  ended : s.Ended
  bound : s.lexemes.length ≤ n + 1
  names : s.scope.entries = frames.reverse.flatten
  nested : Nested level frames
  distinct : s.scope.Distinct

namespace Framed

variable {n : Nat} {f own : Frame} {frames : List Frame} {level : Int} {s t : State}

theorem settled (h : Framed n frames s.level s) : s.Settled (n + 1) :=
  ⟨h.ended, h.bound, by rw [h.names]; exact h.nested.le⟩

/-- More names of the innermost block. -/
theorem add (h : Framed n (f :: frames) s.level s) (hlexemes : t.lexemes <:+ s.lexemes)
    (hadds : State.Adds 0 s t) : Framed n ((f ++ added s t) :: frames) s.level t := by
  obtain ⟨own, hown, hlevel⟩ := hadds.names
  refine ⟨h.ended.of_suffix hlexemes, Nat.le_trans hlexemes.length_le h.bound, ?_, ⟨fun e he => ?_, h.nested.2⟩,
    hadds.distinct h.distinct⟩
  · rw [added_eq hown, hown, h.names]
    simp
  · rcases mem_append.mp he with he | he
    · exact h.nested.1 e he
    · rw [added_eq hown] at he
      rw [hlevel e he, Int.add_zero]

/-- A new frame inside the others. -/
theorem push (h : Framed (n + 1) (f :: frames) s.level s) (hended : t.Ended) (hbound : t.lexemes.length ≤ n + 1)
    {own params : Frame} (hnames : t.scope.entries = s.scope.entries ++ own ++ params)
    (hown : ∀ e ∈ own, e.level = s.level) (hparams : ∀ e ∈ params, e.level = s.level + 1)
    (hdistinct : t.scope.Distinct) : Framed n (params :: (f ++ own) :: frames) (s.level + 1) t := by
  refine ⟨hended, hbound, ?_, ⟨hparams, ?_, ?_⟩, hdistinct⟩
  · rw [hnames, h.names]
    simp
  · intro e he
    rw [Int.add_sub_cancel]
    rcases mem_append.mp he with he | he
    · exact h.nested.1 e he
    · exact hown e he
  · rw [Int.add_sub_cancel]
    exact h.nested.2

end Framed

theorem subprogramToken_ne (function : Bool) : subprogramToken function ≠ .endOfFile := by
  cases function <;> decide

theorem announce_declares (function : Bool) : Declares 0 0 (announce function) :=
  identifier_reads.declares.bind fun _ => Declares.bind (p := freshRoutine)
    (fun s => ⟨freshRoutine_moves s, .of_same rfl rfl⟩) fun _ => declareHere_declares _ _

/-- The analysis of a source starts with all its lexemes and with the built-in names. -/
theorem ofSource_settled (source : Text) : (ofSource source).Ended ∧ (ofSource source).level = 0 ∧
    (ofSource source).scope = Declaration.builtins := by
  obtain ⟨l, rest, hscan, hadv, hsame⟩ := ofSource_start (n := 0) source
  have hended : ({ current := l, rest } : State).Ended := by
    unfold Ended
    rw [show ({ current := l, rest } : State).lexemes = Lexeme.scan source from hscan.symm]
    exact Lexeme.scan_getLast source
  exact ⟨hended.of_suffix hadv.lexemes, hsame.level, hsame.scope⟩

theorem distinct_builtins : Declaration.builtins.Distinct := by
  unfold Scope.Distinct
  decide

theorem programHeading_settled (source : Text) :
    (programHeading source).2.Ended ∧ State.Adds 0 (ofSource source) (programHeading source).2 := by
  obtain ⟨hadv, hsame⟩ := preamble_reads (ofSource source)
  have hended := (ofSource_settled source).1.of_suffix hadv.lexemes
  have hadds : State.Adds 0 (ofSource source) (preamble (ofSource source)).2 := preamble_reads.declares.adds _
  unfold programHeading
  generalize preamble (ofSource source) = q at *
  dsimp only
  have hnumber : State.Adds 0 (ofSource source) { q.2 with routines := q.2.routines + 1 } :=
    ⟨hadds.level, hadds.names, hadds.distinct⟩
  have hended : ({ q.2 with routines := q.2.routines + 1 } : State).Ended := hended
  generalize ({ q.2 with routines := q.2.routines + 1 } : State) = t at *
  obtain ⟨hmoves, hadds⟩ := declare_declares (n := 0) _ _ t
  exact ⟨hended.of_suffix hmoves.1.lexemes, hnumber.trans hadds⟩

/-- The block of a program is opened where only names of the outermost level are declared. -/
theorem Framed.opening {s : State} (hended : s.Ended) (hlevel : ∀ e ∈ s.scope.entries, e.level = 0)
    (hdistinct : s.scope.Distinct) (id : RoutineId) : Framed s.rest.length [[], s.scope.entries] 1 (opened id s) :=
  ⟨hended, Nat.le_refl _, by simp [opened], ⟨by simp, hlevel, rfl⟩, hdistinct⟩

def Leads {α : Type} (Q : State → Prop) (p : Parser α) (s : State) : Prop := Q (p s).2

theorem Leads.token_bind {α : Type} {Q : State → Prop} {f : Token → Parser α} {s : State}
    (h : Leads Q (f s.current.token) s) : Leads Q (token >>= f) s := h

theorem Leads.map {α β : Type} {Q : State → Prop} {p : Parser α} {s : State} (h : Leads Q p s) (g : α → β) :
    Leads Q (p >>= fun a => pure (g a)) s := h

namespace Inside

variable {source : Text} {n : Nat} {f : Frame} {frames : List Frame} {level : Int} {s : State}

theorem framed (h : Inside source n frames level s) : Framed n frames level s := by
  induction h with
  | program =>
    obtain ⟨-, hlevel, hscope⟩ := ofSource_settled source
    obtain ⟨hended, hadds⟩ := programHeading_settled source
    obtain ⟨own, hown, hownLevel⟩ := hadds.names
    rw [hscope] at hown
    rw [hlevel] at hownLevel
    refine .opening hended (fun e he => ?_) (hadds.distinct (hscope ▸ distinct_builtins)) _
    · rw [hown] at he
      rcases mem_append.mp he with he | he
      · exact (by decide : ∀ e ∈ Declaration.builtins.entries, e.level = 0) e he
      · exact hownLevel e he
  | part place moves adds ih => exact ih.add (moves _).1.lexemes (adds _)
  | subprogram function place start ih =>
    refine ih.add ?_ (subprogram_names (fun r => (blockWithin_moves _ r).mono (Nat.zero_le _))
      (blockWithin_drops _) function ih.settled (start ▸ subprogramToken_ne function)).1
    exact ((subprogram_moves (blockWithin_moves _) function).moves advance_reads.moves _).1.lexemes
  | @heading n f frames s α p function place start moves adds ih =>
    have hlt := length_next_lt ih.ended (start ▸ subprogramToken_ne function)
    have hannounce := announce_declares function s.next
    have hlexemes := hannounce.moves.1.lexemes
    have hlexemes' := (moves (announce function s.next).2).1.lexemes
    have hadds : State.Adds 0 s (announce function s.next).2 :=
      (advance_reads.declares (n := 0) s).adds.trans hannounce.adds
    have hadds' : State.Adds 1 _ (p (announce function s.next).2).2 := adds _
    obtain ⟨own, hown, hownLevel⟩ := hadds.names
    obtain ⟨params, hparams, hparamLevel⟩ := hadds'.names
    rw [added_eq hown, added_eq hparams]
    have hended := ((ih.ended.of_suffix (next_advances (n := 0) s).lexemes).of_suffix hlexemes).of_suffix hlexemes'
    have hbound := ih.bound
    have hlen := (hlexemes'.trans hlexemes).length_le
    refine ih.push hended (by omega) (by rw [hparams, hown]) (fun e he => ?_) (fun e he => ?_)
      (hadds'.distinct (hadds.distinct ih.distinct))
    · rw [hownLevel e he, Int.add_zero]
    · rw [hparamLevel e he, hadds.level]
  | @enter n f frames s function place start ih =>
    have hlt := length_next_lt ih.ended (start ▸ subprogramToken_ne function)
    have hnext := next_same s
    have hlexemes := ((heading_moves (n := 0) function) s.next).1.lexemes
    have hsettled := ih.settled.level
    rw [← hnext.scope, ← hnext.level] at hsettled
    obtain ⟨own, params, hheads⟩ := heading_names function hsettled
    have hnames := hheads.names
    have hown := hheads.own
    have hparams := hheads.params
    rw [hnext.scope] at hnames
    rw [hnext.level] at hown hparams
    have hadded : added s (Parser.heading function s.next).2 = own ++ params :=
      added_eq (by rw [hnames, append_assoc])
    obtain ⟨hinner, houter⟩ := filter_level (fun e he => (hown e he).2.1) hparams
    rw [hadded, hinner, houter]
    have hbound := ih.bound
    have hlen := hlexemes.length_le
    generalize Parser.heading function s.next = h at *
    have hended := (ih.ended.of_suffix (next_advances (n := 0) s).lexemes).of_suffix hlexemes
    have hshort : h.2.lexemes.length ≤ n + 1 := by omega
    exact ih.push (t := opened h.1.id h.2) hended hshort hnames (fun e he => (hown e he).2.1) hparams
      (hheads.distinct (hnext.scope ▸ ih.distinct))

/-- A state is a place of a block that may have declared more names. -/
def Onward (source : Text) (n : Nat) (f : Frame) (frames : List Frame) (level : Int) (t : State) : Prop :=
  t.level = level ∧ ∃ own, Inside source n ((f ++ own) :: frames) level t

/-- A section of declarations leads to a further place of its block. -/
theorem declaration (h : Inside source n (f :: frames) s.level s) (d : Declared) :
    Leads (Onward source n f frames s.level) (declaration (blockWithin n) d) s := by
  have sections {α : Type} {p : Parser α} (hp : BeginsWith (Declares 0 0) advance p) :
      Leads (Onward source n f frames s.level) p s :=
    have hdeclares := hp.declares advance_reads
    ⟨(hdeclares s).adds.level, _, h.part hdeclares.moves hdeclares.adds⟩
  have passed (function : Bool) (htoken : s.current.token = subprogramToken function) :
      Leads (Onward source n f frames s.level) (Parser.subprogram (blockWithin n) function) s :=
    ⟨(subprogram_names (fun r => (blockWithin_moves _ r).mono (Nat.zero_le _)) (blockWithin_drops n) function
      h.framed.settled (htoken ▸ subprogramToken_ne function)).1.level, _, h.subprogram function htoken⟩
  refine Leads.token_bind ?_
  split
  · exact (sections constantSection_declares).map _
  · exact (sections typeSection_declares).map _
  · exact (sections (variableSection_declares d)).map _
  · next htoken => exact (passed false htoken).map _
  · next htoken => exact (passed true htoken).map _
  · exact ⟨rfl, [], by rwa [append_nil]⟩

/-- The declarations of a block lead to a place in the block, where its statements start. -/
theorem declarations (h : Inside source n (f :: frames) s.level s) (d : Declared) :
    ∃ own, Inside source n ((f ++ own) :: frames) s.level (loop (Parser.declaration (blockWithin n)) d s).2 := by
  have hrepeat (k : Nat) : ∀ (f : Frame) (t : State) (d : Declared), t.level = s.level →
      Inside source n (f :: frames) s.level t → ∃ own, Inside source n ((f ++ own) :: frames) s.level
        (repeatFor (Parser.declaration (blockWithin n)) k d t).2 := by
    induction k with
    | zero =>
      intro f t d hlevel ht
      rw [← hlevel] at ht ⊢
      exact ⟨_, ht.part (exhaust_moves d) (exhaust_declares d).adds⟩
    | succ k ih =>
      intro f t d hlevel ht
      rw [← hlevel] at ht
      obtain ⟨hlevel', own, hown⟩ := ht.declaration d
      rw [hlevel] at hlevel' hown
      rw [repeatFor_succ]
      split
      · obtain ⟨own', hown'⟩ := ih _ _ _ hlevel' hown
        exact ⟨own ++ own', by rwa [← append_assoc]⟩
      · exact ⟨own, hown⟩
  exact hrepeat s.fuel f s d rfl h

/-- A name is declared once in a block. -/
theorem nodup (h : Inside source n frames level s) : ∀ f ∈ frames, (f.map Scope.Entry.name).Nodup := by
  intro f hf
  obtain ⟨l, hl⟩ := h.framed.nested.level_of_mem hf
  have hkeys : (Scope.keys f).Nodup := by
    refine List.Nodup.sublist ?_ h.framed.distinct
    rw [h.framed.names]
    exact (sublist_flatten_of_mem (mem_reverse.mpr hf)).map _
  rw [List.Nodup, pairwise_map]
  refine (pairwise_map.mp hkeys).imp_of_mem fun {a b} ha hb hne heq => hne ?_
  rw [heq, hl a ha, hl b hb]

end Inside

theorem programHeading_level (source : Text) : ∀ e ∈ (programHeading source).2.scope.entries, e.level = 0 := by
  have hplace : Inside source _ _ _ _ := .program
  exact hplace.framed.nested.2.1

/-- The block of a program drops all names but those declared before it. -/
theorem analyse_scope (source : Text) : (analyse source).2.scope = (programHeading source).2.scope := by
  have hlevel := programHeading_level source
  obtain ⟨hended, hadds⟩ := programHeading_settled source
  have hzero : (programHeading source).2.level = 0 := hadds.level.trans (ofSource_settled source).2.1
  have hrun : (analyse source).2 =
      (ending (block { id := (programHeading source).1 } (programHeading source).2).2).2 := by
    rw [analyse_run, program_run]
    unfold programHeading
    generalize preamble (ofSource source) = q
    rfl
  rw [hrun]
  generalize programHeading source = h at *
  rw [(ending_reads (n := 0) _).2.scope]
  have hdrops := blockWithin_drops h.2.fuel { id := h.1 } h.2 hended (Nat.le_of_eq (length_lexemes h.2))
    fun e he => by rw [hlevel e he, hzero]; decide
  refine hdrops.trans ?_
  rw [hzero]
  show Scope.mk _ = _
  rw [filter_eq_self.mpr]
  intro e he
  rw [hlevel e he]
  rfl

/-- Where a procedure or a function starts, no name belongs to a block further in, and it leaves its own name
behind and nothing else. So at every place a name stands for its declaration in the innermost block around that
has declared it, once, up to there; the places of a block lead up to its statements; and at the end the names
of the outermost level are left, as they were before the block of the program. -/
theorem analyse_restores_scopes (source : Text) : (∀ n f frames s, Inside source n (f :: frames) s.level s → ∀ function,
      s.current.token = subprogramToken function → (∀ e ∈ s.scope.entries, e.level ≤ s.level) ∧
        (subprogram (blockWithin n) function s).2.level = s.level ∧
        ∃ own, (subprogram (blockWithin n) function s).2.scope.entries = s.scope.entries ++ own ∧
          own.length ≤ 1 ∧ ∀ e ∈ own, e.name = (identifier s.next).1 ∧ e.level = s.level ∧
            e.value.kind = subprogramKind function) ∧ (∀ n frames level s, Inside source n frames level s →
      (∀ f ∈ frames, (f.map Scope.Entry.name).Nodup) ∧
        ∀ name, s.scope.lookup? name = frames.findSome? fun f => Scope.first? f name) ∧
    (∀ n f frames s d, Inside source n (f :: frames) s.level s →
      ∃ own, Inside source n ((f ++ own) :: frames) s.level (loop (declaration (blockWithin n)) d s).2) ∧
    (analyse source).2.scope = (programHeading source).2.scope ∧
      ∀ e ∈ (analyse source).2.scope.entries, e.level = 0 := by
  refine ⟨fun n f frames s h function htoken => ?_, fun n frames level s h => ⟨h.nodup, fun name => ?_⟩,
    fun n f frames s d h => h.declarations d, analyse_scope source, ?_⟩
  · have hsettled := h.framed.settled
    obtain ⟨hadds, hown⟩ := subprogram_names (fun r => (blockWithin_moves _ r).mono (Nat.zero_le _))
      (blockWithin_drops n) function hsettled (htoken ▸ subprogramToken_ne function)
    exact ⟨hsettled.level, hadds.level, hown⟩
  · rw [← h.framed.nested.lookup? name, ← h.framed.names]
  · rw [analyse_scope]
    exact programHeading_level source

/-- A procedure with a parameter whose type is not declared, and with two parameters of one name. -/
def mistakenSource : Text := Text.ofChars ("program p;procedure q(a,a:b);begin end;begin end.".toList)

/-- The procedure is passed, mistakes or not, and its own name is left. -/
theorem analyse_restores_scopes_mistaken : (analyse mistakenSource).2.diagnostics ≠ [] ∧
    ∃ n frames s, Inside mistakenSource n ([] :: frames) s.level s ∧
      s.current.token = subprogramToken false ∧ (subprogram (blockWithin n) false s).2.level = s.level ∧
      ∃ own, (subprogram (blockWithin n) false s).2.scope.entries = s.scope.entries ++ own ∧ own.length ≤ 1 ∧
        ∀ e ∈ own, e.name = Text.ofChars ['q'] ∧ e.level = s.level ∧ e.value.kind = .procedure := by
  have hplace : Inside mistakenSource _ _ _ _ := .program
  have hfacts : (analyse mistakenSource).2.diagnostics ≠ [] ∧
      (1 : Int) = (opened (programHeading mistakenSource).1 (programHeading mistakenSource).2).level ∧
      (opened (programHeading mistakenSource).1 (programHeading mistakenSource).2).current.token =
        subprogramToken false ∧
      (identifier (opened (programHeading mistakenSource).1 (programHeading mistakenSource).2).next).1 =
        Text.ofChars ['q'] := by decide +kernel
  generalize opened (programHeading mistakenSource).1 (programHeading mistakenSource).2 = s at *
  obtain ⟨hdiagnostics, hlevel, htoken, hname⟩ := hfacts
  rw [hlevel] at hplace
  have hpassed := (analyse_restores_scopes mistakenSource).1 _ _ _ s hplace false htoken
  rw [hname] at hpassed
  exact ⟨hdiagnostics, _, _, s, hplace, htoken, hpassed.2⟩

end MiniPascal.Parser
