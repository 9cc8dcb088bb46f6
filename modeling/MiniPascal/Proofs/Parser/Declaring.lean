import MiniPascal.Proofs.Parser.Reading
import MiniPascal.Proofs.Scope.Table
import MiniPascal.Proofs.Types.Bases

/-!
# Declarations move forward

The analysis of declarations, blocks and programs changes the types and the names, but it takes lexemes
and meets no bound like the parts that only read. Types are only added, and every block that is opened is
closed again. The main statement is that the analysis of a program never meets the bound of a repetition
or of a nesting. Diagnostics of pointers without a base are those of names that were read where a base was expected.
-/

namespace MiniPascal

open List

def Forward.diagnostic (f : Forward) : Diagnostic := ⟨f.pos, f.line, .undefinedPointerBase f.name⟩

/-- The diagnostic of a name that a pointer has for a base and that is no type. -/
def Lexeme.lacking (l : Lexeme) : Diagnostic := ⟨l.pos, l.line, .undefinedPointerBase l.text⟩

namespace Parser

open State

variable {α β σ : Type} {k : Int} {n : Nat} {f : α → Parser β} {step : σ → Parser (Bool × σ)} {t : State}
  {item : σ → Parser σ} {separator : Token}

namespace State

/-- What waits for a base is a pointer without one. -/
def Pending (s : State) : Prop := ∀ f ∈ s.forward, s.types.Waits f.type

/-- The pointers without a base, those that are reported and those that wait for one, have names among the identifiers read
for bases, each its own and in order. -/
def Awaits (all : List Lexeme) (s : State) : Prop :=
  s.Ended ∧ ∃ read, read ++ s.lexemes = all ∧ (s.baseless ++ s.forward.map Forward.diagnostic).Sublist
    ((read.filter (·.token = .identifier)).map Lexeme.lacking)

/-- The declarations of one state come after those of another, in the same block. -/
structure Develops (s t : State) : Prop where
  types : s.types.Grows t.types
  level : t.level = s.level
  enclosing : t.enclosing = s.enclosing
  routines : s.routines ≤ t.routines
  bases : s.Pending → t.Pending ∧ s.types.Retains t.types
  awaits : ∀ all, s.Awaits all → t.Awaits all

variable {s : State}

/-- The types may change while the same pointers wait for their bases. -/
theorem Develops.retype (hgrows : s.types.Grows t.types)
    (hbases : ∀ u, s.types.Has u → (t.types.get u).base = (s.types.get u).base) (hlevel : t.level = s.level)
    (henclosing : t.enclosing = s.enclosing) (hroutines : s.routines ≤ t.routines) (hforward : t.forward = s.forward)
    (hawaits : ∀ all, s.Awaits all → t.Awaits all) : Develops s t := by
  refine ⟨hgrows, hlevel, henclosing, hroutines, fun h => ⟨fun f hf => ?_, fun u hu _ => hbases u hu⟩, hawaits⟩
  have hwaits := h f (hforward ▸ hf)
  exact hwaits.grow hgrows (hbases _ hwaits.has)

/-- Nothing changes but names. -/
theorem Develops.rename (htypes : t.types = s.types) (hlevel : t.level = s.level)
    (henclosing : t.enclosing = s.enclosing) (hroutines : s.routines ≤ t.routines) (hforward : t.forward = s.forward)
    (hawaits : ∀ all, s.Awaits all → t.Awaits all) : Develops s t :=
  .retype (htypes ▸ .refl _) (fun _ _ => by rw [htypes]) hlevel henclosing hroutines hforward hawaits

theorem Develops.refl (s : State) : Develops s s := .rename rfl rfl rfl (Nat.le_refl _) rfl fun _ h => h

theorem Develops.trans {u : State} (h : Develops s t) (h' : Develops t u) : Develops s u :=
  ⟨h.types.trans h'.types, h'.level.trans h.level, h'.enclosing.trans h.enclosing,
    Nat.le_trans h.routines h'.routines, fun hs =>
      ⟨(h'.bases (h.bases hs).1).1, (h.bases hs).2.trans h.types (h'.bases (h.bases hs).1).2⟩,
    fun all hs => h'.awaits all (h.awaits all hs)⟩

theorem SameDeclarations.develops (h : SameDeclarations s t) (hl : t.lexemes <:+ s.lexemes) : Develops s t := by
  refine .rename h.types h.level h.enclosing (Nat.le_of_eq h.routines.symm) h.forward ?_
  rintro all ⟨hended, read, rfl, hsub⟩
  obtain ⟨taken, htaken⟩ := id hl
  refine ⟨hended.of_suffix hl, read ++ taken, by rw [append_assoc, htaken], ?_⟩
  rw [h.forward, h.baseless]
  exact hsub.trans (((sublist_append_left _ _).filter _).map _)

/-- One state has the names of another and more of them, all a number of levels further in. -/
structure Adds (k : Int) (s t : State) : Prop where
  level : t.level = s.level
  names : ∃ own, t.scope.entries = s.scope.entries ++ own ∧ ∀ e ∈ own, e.level = s.level + k
  distinct : s.scope.Distinct → t.scope.Distinct

namespace Adds

theorem of_same (hlevel : t.level = s.level) (hscope : t.scope = s.scope) : Adds k s t :=
  ⟨hlevel, ⟨[], by rw [hscope, append_nil], by simp⟩, hscope ▸ id⟩

theorem refl (s : State) : Adds k s s := of_same rfl rfl

theorem trans {u : State} (h : Adds k s t) (h' : Adds k t u) : Adds k s u := by
  obtain ⟨own, hown, hlevel⟩ := h.names
  obtain ⟨own', hown', hlevel'⟩ := h'.names
  refine ⟨h'.level.trans h.level, ⟨own ++ own', ?_, ?_⟩, fun hs => h'.distinct (h.distinct hs)⟩
  · rw [hown', hown, append_assoc]
  · intro e he
    rcases mem_append.mp he with he | he
    · exact hlevel e he
    · rw [hlevel' e he, h.level]

end Adds

end State

/-- A part of the analysis moves forward from a state and stays in the same block. -/
def MovesAt (n : Nat) (p : Parser α) (s : State) : Prop := Advances n s (p s).2 ∧ Develops s (p s).2

/-- A part of the analysis moves forward from every state. -/
def Moves (n : Nat) (p : Parser α) : Prop := ∀ s, MovesAt n p s

@[grind ←] theorem Reads.moves {p : Parser α} (h : Reads n p) : Moves n p := fun s => ⟨(h s).1, (h s).2.develops (h s).1.lexemes⟩

/-- What comes next moves forward from the state that it finds. -/
theorem MovesAt.next {p : Parser α} {s : State} (hp : MovesAt n p s) (hf : MovesAt n (f (p s).1) (p s).2) :
    MovesAt n (p >>= f) s := ⟨hp.1.trans hf.1, hp.2.trans hf.2⟩

theorem MovesAt.bind {p : Parser α} {s : State} (hp : MovesAt n p s) (hf : ∀ a, Moves n (f a)) :
    MovesAt n (p >>= f) s := hp.next (hf (p s).1 (p s).2)

theorem MovesAt.token_bind {f : Token → Parser α} {s : State} (h : MovesAt n (f s.current.token) s) :
    MovesAt n (token >>= f) s := h

theorem MovesAt.bind_shorter {p : Parser α} {s : State} (hp : MovesAt (n + 1) p s) (ht : Takes p s)
    (hf : ∀ a, Moves n (f a)) : MovesAt (n + 1) (p >>= f) s :=
  ⟨hp.1.trans_shorter ht (hf (p s).1 (p s).2).1, hp.2.trans (hf (p s).1 (p s).2).2⟩

namespace Moves

theorem mono {m : Nat} {p : Parser α} (hm : m ≤ n) (h : Moves n p) : Moves m p :=
  fun s => ⟨(h s).1.mono hm, (h s).2⟩

@[grind ←] theorem pure (a : α) : Moves n (pure a : Parser α) := fun s => ⟨.refl n s, .refl s⟩

@[grind ←] theorem bind {p : Parser α} (hp : Moves n p) (hf : ∀ a, Moves n (f a)) :
    Moves n (p >>= f) := fun s => (hp s).bind hf

theorem modify {f : State → State} (hf : ∀ s, Advances n s (f s) ∧ Develops s (f s)) :
    Moves n (modify f : Parser Unit) := hf

end Moves

/-- A part of the analysis only adds names from a state on, all a number of levels further in. -/
def AddsAt (k : Int) (p : Parser α) (s : State) : Prop := State.Adds k s (p s).2

/-- A part of the analysis only adds names, from every state on. -/
def Adds (k : Int) (p : Parser α) : Prop := ∀ s, AddsAt k p s

theorem AddsAt.token_bind {f : Token → Parser α} {s : State} (h : AddsAt k (f s.current.token) s) :
    AddsAt k (token >>= f) s := h

theorem AddsAt.bind {p : Parser α} {s : State} (hp : AddsAt k p s) (hf : ∀ a, Adds k (f a)) :
    AddsAt k (p >>= f) s := State.Adds.trans hp (hf (p s).1 (p s).2)

/-- A part of the analysis moves forward from a state and only adds names, all a number of levels further in. -/
structure DeclaresAt (k : Int) (n : Nat) (p : Parser α) (s : State) : Prop where
  moves : MovesAt n p s
  adds : AddsAt k p s

/-- A part of the analysis moves forward and only adds names, from every state on. -/
def Declares (k : Int) (n : Nat) (p : Parser α) : Prop := ∀ s, DeclaresAt k n p s

@[grind ←] theorem Reads.declares {p : Parser α} (h : Reads n p) : Declares k n p := fun s =>
  ⟨h.moves s, .of_same (h s).2.level (h s).2.scope⟩

theorem DeclaresAt.bind {p : Parser α} {s : State} (hp : DeclaresAt k n p s) (hf : ∀ a, Declares k n (f a)) :
    DeclaresAt k n (p >>= f) s := ⟨hp.moves.bind fun a s => (hf a s).moves, hp.adds.bind fun a s => (hf a s).adds⟩

theorem DeclaresAt.get_bind {f : State → Parser α} {s : State} (h : DeclaresAt k n (f s) s) :
    DeclaresAt k n (get >>= f) s := ⟨h.moves, h.adds⟩

theorem DeclaresAt.level_bind {f : Int → Parser α} {s : State} (h : DeclaresAt k n (f s.level) s) :
    DeclaresAt k n (level >>= f) s := ⟨h.moves, h.adds⟩

namespace Declares

theorem moves {p : Parser α} (h : Declares k n p) : Moves n p := fun s => (h s).moves

theorem adds {p : Parser α} (h : Declares k n p) : Adds k p := fun s => (h s).adds

@[grind ←] theorem pure (a : α) : Declares k n (pure a : Parser α) := fun s => ⟨Moves.pure a s, .refl s⟩

@[grind ←] theorem bind {p : Parser α} (hp : Declares k n p) (hf : ∀ a, Declares k n (f a)) :
    Declares k n (p >>= f) := fun s => (hp s).bind hf

end Declares

theorem change_advances {s : State} (hl : t.lexemes = s.lexemes) (hd : t.diagnostics = s.diagnostics)
    (he : t.lastError = s.lastError) (hx : t.exhausted = s.exhausted) : Advances n s t where
  lexemes := hl ▸ suffix_rfl
  diagnostics := hd ▸ prefix_rfl
  lastError hs ht := by rw [he]; exact hs (hd ▸ ht)
  exhausted hs := hx.trans hs
  bounded _ _ := hx
  reports all hs := by rwa [Reports, reported, hl, hd, he, (List.cons.inj hl).1]

theorem Takes.bind_moves {p : Parser α} {s : State} (hp : Takes p s) (hf : ∀ a, Moves 0 (f a)) : Takes (p >>= f) s := by
  intro he
  have hlen := (hf (p s).1 (p s).2).1.lexemes.length_le
  exact Nat.lt_of_le_of_lt hlen (hp he)

namespace BeginsWith

variable {first : Parser α} {p : Parser β} {s : State}

theorem loose (h : BeginsWith (Declares k n) first p) : BeginsWith (Moves n) first p := by
  obtain ⟨rest, rfl, hrest⟩ := h
  exact ⟨rest, rfl, fun a => (hrest a).moves⟩

theorem declares (h : BeginsWith (Declares k n) first p) (hfirst : Reads n first) : Declares k n p := by
  obtain ⟨rest, rfl, hrest⟩ := h
  exact hfirst.declares.bind hrest

variable (h : BeginsWith (Moves n) first p)
include h

theorem moves (hfirst : Moves n first) : Moves n p := by
  obtain ⟨rest, rfl, hrest⟩ := h
  exact hfirst.bind hrest

variable (ht : Takes first s)
include ht

theorem movesAt (hfirst : MovesAt (n + 1) first s) : MovesAt (n + 1) p s := by
  obtain ⟨rest, rfl, hrest⟩ := h
  exact MovesAt.bind_shorter hfirst ht hrest

theorem takes_of_moves : Takes p s := by
  obtain ⟨rest, rfl, hrest⟩ := h
  exact ht.bind_moves fun a => (hrest a).mono (Nat.zero_le n)

omit h in
theorem declaresAt (h : BeginsWith (Declares k n) first p) (hfirst : Reads (n + 1) first) : DeclaresAt k (n + 1) p s := by
  refine ⟨h.loose.movesAt ht (hfirst.moves s), ?_⟩
  obtain ⟨rest, rfl, hrest⟩ := h
  exact (hfirst.declares s).adds.bind fun a => (hrest a).adds

end BeginsWith

theorem repeatFor_develops (hstep : ∀ x, Moves n (step x)) (k : Nat) (x : σ) (s : State) :
    Develops s (repeatFor step k x s).2 :=
  repeatFor_induct (R := Develops) (fun _ => .rename rfl rfl rfl (Nat.le_refl _) rfl fun _ h => h) .trans
    (fun x s => (hstep x s).2) k x s

theorem loop_moves (hstep : ∀ x, Moves n (step x)) (htakes : StepTakes n step) (x : σ) : Moves n (loop step x) := by
  intro s
  exact ⟨loop_advances (fun x s => (hstep x s).1) htakes x s, repeatFor_develops hstep s.fuel x s⟩

theorem loop_declares (hstep : ∀ x, Declares k n (step x)) (htakes : StepTakes n step) (x : σ) :
    Declares k n (loop step x) := fun s =>
  ⟨loop_moves (fun x => (hstep x).moves) htakes x s, repeatFor_induct (R := State.Adds k)
    (fun _ => .of_same rfl rfl) .trans (fun x s => (hstep x s).adds) s.fuel x s⟩

theorem separatedStep_moves (hitem : ∀ x, Moves n (item x)) (x : σ) :
    Moves n (separatedStep separator item x) := by grind [separatedStep]

@[grind ←] theorem separated_declares (hitem : ∀ x, Declares k n (item x)) (x : σ) (hsep : separator ≠ .endOfFile) :
    Declares k n (separated separator item x) := by
  refine loop_declares (fun x => ?_) (separatedStep_takes hsep fun x s => (hitem x s).moves.1) x
  grind [separatedStep]

theorem repeatFor_lexemes (hstep : ∀ x s, Advances n s (step x s).2) (k : Nat) (x : σ) (s : State) :
    (repeatFor step k x s).2.lexemes <:+ s.lexemes :=
  repeatFor_induct (R := fun s t => t.lexemes <:+ s.lexemes) (fun _ => suffix_rfl)
    (fun h h' => h'.trans h) (fun x s => (hstep x s).lexemes) k x s

theorem separated_takes (hitem : ∀ x, Moves 0 (item x)) {x : σ} {s : State} (ht : Takes (item x) s) :
    Takes (separated separator item x) s := by
  intro he
  have hfirst : (separatedStep separator item x s).2.lexemes.length < s.lexemes.length :=
    (ht.bind_moves fun y => by grind) he
  rw [separated_eq]
  show (repeatFor (separatedStep separator item) (s.rest.length + 1) x s).2.lexemes.length < _
  rw [repeatFor_succ]
  split
  · refine Nat.lt_of_le_of_lt ?_ hfirst
    exact (repeatFor_lexemes (fun x s => (separatedStep_moves hitem x s).1) _ _ _).length_le
  · exact hfirst

/-- A part that is bounded by the lexemes left at its start moves forward for every bound. -/
theorem moves_of_fuel {p : Nat → Parser α} (h : ∀ k, Moves k (p k)) : Moves n fun s => p s.fuel s := by
  intro s
  obtain ⟨hadv, hdev⟩ := h s.fuel s
  exact ⟨{ hadv with bounded := fun he _ => hadv.bounded he (Nat.le_of_eq (length_lexemes s)) }, hdev⟩

@[grind ←] theorem addType_declares (d : TypeDesc) : Declares 0 n (addType d) := fun s =>
  ⟨⟨change_advances rfl rfl rfl rfl, .retype (s.types.grows_add d)
    (fun _ hu => congrArg TypeDesc.base (TypeTable.get_add_of_has d hu)) rfl rfl (Nat.le_refl _) rfl fun _ h => h⟩,
    .of_same rfl rfl⟩

theorem addType_moves (d : TypeDesc) : Moves n (addType d) := (addType_declares d).moves

theorem declareAt_run (level : Int) (name : Text) (value : Declaration) (s : State) :
    declareAt level name value s = match s.scope.insert { name, level, value } with
      | .ok scope => (true, { s with scope })
      | .error e => (false, s.report (.naming e)) := by
  show (match s.scope.insert { name, level, value } with
    | .ok scope => do
      set { s with scope }
      return true
    | .error e => do
      report (.naming e)
      return false : Parser Bool) s = _
  cases s.scope.insert { name, level, value } <;> rfl

@[grind ←] theorem declareAt_moves (level : Int) (name : Text) (value : Declaration) :
    Moves n (declareAt level name value) := by
  intro s
  show Advances n s (declareAt level name value s).2 ∧ Develops s (declareAt level name value s).2
  rw [declareAt_run]
  split
  · exact ⟨change_advances rfl rfl rfl rfl, .rename rfl rfl rfl (Nat.le_refl _) rfl fun _ h => h⟩
  · exact (report_reads rfl).moves s

theorem declareAt_names (level : Int) (name : Text) (value : Declaration) (s : State) :
    (declareAt level name value s).2.scope.entries =
      s.scope.entries ++ if (declareAt level name value s).1 then [⟨name, level, value⟩] else [] := by
  rw [declareAt_run]
  unfold Scope.insert
  cases s.scope.declares name level with
  | true =>
    show (s.report _).scope.entries = _ ++ if false = true then _ else _
    rw [(report_same rfl s).scope]
    simp
  | false => rfl

theorem declareAt_adds (name : Text) (value : Declaration) (s : State) :
    State.Adds k s (declareAt (s.level + k) name value s).2 := by
  refine ⟨(declareAt_moves (n := 0) _ name value s).2.level, ⟨_, declareAt_names _ name value s, ?_⟩, ?_⟩
  · intro e he
    split at he
    · rw [mem_singleton.mp he]
    · simp at he
  · intro hs
    rw [declareAt_run]
    cases hinsert : s.scope.insert { name, level := s.level + k, value } with
    | ok scope => exact hs.insert hinsert
    | error e =>
      show (s.report _).scope.Distinct
      rwa [(report_same rfl s).scope]

theorem declareHere_declares (name : Text) (value : Declaration) :
    Declares 0 n (do declareAt (← level) name value : Parser Bool) := by
  refine fun s => .level_bind ⟨declareAt_moves s.level name value s, ?_⟩
  have h := declareAt_adds (k := 0) name value s
  rwa [Int.add_zero] at h

@[grind ←] theorem declare_declares (name : Text) (value : Declaration) : Declares 0 n (declare name value) := fun s =>
  have h := declareHere_declares name value s
  .level_bind (.bind ⟨h.moves, h.adds⟩ fun _ => .pure _)

theorem exhaust_declares (a : α) : Declares 0 0 (fun s => (a, s.exhaust) : Parser α) := fun s =>
  ⟨⟨exhaust_advances s, .rename rfl rfl rfl (Nat.le_refl _) rfl fun _ h => h⟩, .of_same rfl rfl⟩

theorem exhaust_moves (a : α) : Moves 0 (fun s => (a, s.exhaust) : Parser α) := (exhaust_declares a).moves

/-! ## Constants and types -/

@[grind ←] theorem unsignedConstant_reads : Reads n unsignedConstant := by grind [unsignedConstant]

@[grind ←] theorem negated_reads (value : Datum) (type : TypeId) : Reads n (negated value type) := by grind [negated]

@[grind ←] theorem sign_reads : Reads n sign := by grind [sign]

@[grind ←] theorem constant_reads : Reads n constant := by grind [constant]

@[grind ←] theorem typeIdentifier_reads : Reads n typeIdentifier := by grind [typeIdentifier]

@[grind ←] theorem declareValues_declares (type : TypeId) (i : Nat) (names : List Text) :
    Declares 0 n (declareValues type i names) := by
  induction names generalizing i <;> grind [declareValues]

@[grind ←] theorem enumeration_declares : Declares 0 n enumeration := by grind [enumeration]

@[grind ←] theorem subrange_declares : Declares 0 n subrange := by
  refine constant_reads.declares.bind fun lower => (expect_reads _).declares.bind fun _ =>
    constant_reads.declares.bind fun upper => types_reads.declares.bind fun ts => ?_
  split
  · split
    · exact addType_declares _
    · grind
  · grind

@[grind ←] theorem arrayOver_declares (element : TypeId) (indices : List TypeId) :
    Declares 0 n (arrayOver element indices) := by
  induction indices generalizing element <;> grind [arrayOver]

/-- Let a pointer wait for its base, which has a name. -/
def defer (base : Lexeme) (type : TypeId) : Parser TypeId := do
  modify fun s => { s with forward := s.forward ++ [⟨base.text, type, base.pos, base.line⟩] }
  advance
  return type

theorem defer_declaresAt {type : TypeId} {s : State} (h : s.types.Waits type) (ht : s.current.token = .identifier) :
    DeclaresAt 0 n (defer s.current type) s := by
  let t : State := { s with forward := s.forward ++ [⟨s.current.text, type, s.current.pos, s.current.line⟩] }
  have hadv := next_advances (n := n) t
  have hsame := next_same t
  have hstart : Advances n s t := change_advances rfl rfl rfl rfl
  suffices Advances n s t.next ∧ Develops s t.next from ⟨this, .of_same hsame.level hsame.scope⟩
  refine ⟨hstart.trans hadv, hsame.types ▸ .refl _, hsame.level, hsame.enclosing, Nat.le_of_eq hsame.routines.symm,
    fun hs => ⟨?_, hsame.types ▸ .refl _⟩, ?_⟩
  · unfold Pending
    rw [hsame.types, hsame.forward]
    simpa [t, or_imp, forall_and] using ⟨hs, h⟩
  · -- The name of the base is taken, whatever is skipped after it.
    rintro all ⟨hended, read, rfl, hsub⟩
    have hlt := length_next_lt (s := t) hended (by simp [t, ht])
    obtain ⟨taken, htaken⟩ := hadv.lexemes
    cases taken with
    | nil => exact absurd (congrArg List.length htaken) (Nat.ne_of_lt hlt)
    | cons l more =>
      obtain rfl : l = s.current := (List.cons.inj htaken).1
      refine ⟨hended.of_suffix hadv.lexemes, read ++ s.current :: more, by rw [append_assoc]; exact congrArg _ htaken, ?_⟩
      rw [hsame.baseless, hsame.forward, map_append, ← append_assoc, filter_append, map_append,
        filter_cons_of_pos (by simp [ht])]
      exact hsub.append ((nil_sublist _).cons_cons _)

def deferred (base : Lexeme) : Parser TypeId := do defer base (← addType (.pointer none))

theorem waits_add (ts : TypeTable) : (ts.add (.pointer none)).2.Waits (ts.add (.pointer none)).1 :=
  ⟨ts.has_add _, congrArg TypeDesc.kind (ts.get_add _), congrArg TypeDesc.base (ts.get_add _)⟩

theorem pointerTo_declares (inSection : Bool) : Declares 0 n (pointerTo inSection) := by
  refine fun s => DeclaresAt.get_bind ?_
  split
  · next ht =>
    split
    · refine (advance_reads.declares s).bind fun _ => ?_
      split
      · exact addType_declares _
      · exact (report_reads rfl).declares.bind fun _ => addType_declares _
    · split
      · have hadd := addType_declares (n := n) (.pointer none) s
        have hdefer := defer_declaresAt (n := n) (s := (addType (.pointer none) s).2) (waits_add s.types) ht
        exact ⟨MovesAt.next hadd.moves hdefer.moves, hadd.adds.trans hdefer.adds⟩
      · exact (resolve_reads.declares s).bind fun _ => addType_declares _
  · exact ((report_reads rfl).declares s).bind fun _ => addType_declares _

theorem pointerType_declares (inSection : Bool) : Declares 0 n (pointerType inSection) :=
  advance_reads.declares.bind fun _ => pointerTo_declares inSection

@[grind ←] theorem addFields_reads (type : TypeId) (fields : List (Text × TypeId)) (names : List Text) :
    Reads n (addFields type fields names) := by
  induction names generalizing fields <;> grind [addFields]

section

variable {typeSpec : Bool → Parser TypeId} (ht : ∀ inSection, Declares 0 n (typeSpec inSection))
include ht

variable (inSection : Bool)

theorem arrayType_declares : BeginsWith (Declares 0 n) advance (arrayType typeSpec inSection) :=
  ⟨_, rfl, by grind⟩

def fieldsOf (typeSpec : Bool → Parser TypeId) (inSection : Bool) (fields : List (Text × TypeId)) :
    Parser (List (Text × TypeId)) := do
  let names ← identifiers
  expect .colon
  let type ← typeSpec inSection
  addFields type fields names

omit ht in
theorem fieldGroup_run (fields : List (Text × TypeId)) (s : State) :
    fieldGroup typeSpec inSection fields s = if s.current.token = .identifier then
      separatedStep .semicolon (fieldsOf typeSpec inSection) fields s else ((false, fields), s) := by
  show (if s.current.token = .identifier then _ else _ : Parser (Bool × List (Text × TypeId))) s = _
  split <;> rfl

theorem fieldsOf_declares (fields : List (Text × TypeId)) : Declares 0 n (fieldsOf typeSpec inSection fields) :=
  by grind [fieldsOf]

theorem fieldGroup_declares (fields : List (Text × TypeId)) : Declares 0 n (fieldGroup typeSpec inSection fields) := by
  refine token_reads.declares.bind fun t => ?_
  split
  · exact identifiers_reads.declares.bind fun _ => by grind
  · exact .pure _

theorem fieldGroup_takes : StepTakes n (fieldGroup typeSpec inSection) := by
  intro fields s he hn
  unfold MoreTakes
  rw [fieldGroup_run]
  split
  · exact separatedStep_takes (by decide) (fun x s => (fieldsOf_declares ht inSection x s).moves.1) fields s he hn
  · simp

theorem recordType_declares : BeginsWith (Declares 0 n) advance (recordType typeSpec inSection) := by
  have hfields := loop_declares (fieldGroup_declares ht inSection) (fieldGroup_takes ht inSection) []
  exact ⟨_, rfl, by grind⟩

theorem typeSpecOf_declares : Declares 0 (n + 1) (typeSpecOf typeSpec inSection) := by
  refine fun s => DeclaresAt.get_bind ?_
  split
  · split
    · exact subrange_declares s
    · exact typeIdentifier_reads.declares s
  · exact enumeration_declares s
  · exact subrange_declares s
  · exact subrange_declares s
  · exact subrange_declares s
  · exact subrange_declares s
  · next htoken => exact BeginsWith.declaresAt (advance_takes (by simp [htoken])) (arrayType_declares ht inSection) advance_reads
  · next htoken => exact BeginsWith.declaresAt (advance_takes (by simp [htoken])) (recordType_declares ht inSection) advance_reads
  · exact pointerType_declares inSection s
  · exact ((report_reads rfl).declares s).bind fun _ => .pure _

end

theorem typeSpecWithin_declares (n : Nat) (inSection : Bool) : Declares 0 n (typeSpecWithin n inSection) := by
  induction n generalizing inSection with
  | zero => exact exhaust_declares _
  | succ n ih => exact typeSpecOf_declares ih inSection

@[grind ←] theorem typeSpec_declares (inSection : Bool) : Declares 0 n (typeSpec inSection) := fun s =>
  ⟨moves_of_fuel (fun i => (typeSpecWithin_declares i inSection).moves) s, (typeSpecWithin_declares s.fuel inSection s).adds⟩

/-! ## Sections -/

def entriesStep (entry : σ → Parser σ) (x : σ) : Parser (Bool × σ) := do
  if (← token) = .identifier then return (true, ← entry x) else return (false, x)

theorem entries_eq (entry : σ → Parser σ) (x : σ) : entries entry x = loop (entriesStep entry) x := rfl

theorem entries_declares {entry : σ → Parser σ} (hentry : ∀ x, Declares 0 n (entry x))
    (htakes : ∀ x s, s.current.token = .identifier → Takes (entry x) s) (x : σ) : Declares 0 n (entries entry x) := by
  rw [entries_eq]
  refine loop_declares (fun x => ?_) ?_ x
  · refine token_reads.declares.bind fun t => ?_
    split
    · exact (hentry x).bind fun _ => .pure _
    · exact .pure _
  · intro x s he _
    refine MoreTakes.token_bind ?_
    split
    · next ht => exact ((htakes x s ht).bind_moves fun _ => .pure _).more he
    · exact .stop x s

def constantValue (name : Text) : Parser Unit := do
  expect .equal
  let (value, type) ← constant
  declare name (.constant value type)
  expect .semicolon

theorem constantValue_declares (name : Text) : Declares 0 n (constantValue name) := by grind [constantValue]

theorem constantSection_declares : BeginsWith (Declares 0 n) advance constantSection := by
  refine ⟨_, rfl, fun _ => entries_declares (fun _ => identifier_reads.declares.bind constantValue_declares) ?_ _⟩
  intro _ s ht
  exact (identifier_takes ht).bind_moves fun name => (constantValue_declares name).moves

theorem nameType_moves (type : TypeId) (name : Text) : Moves n (nameType type name) := by
  refine Moves.modify fun s => ?_
  split
  · exact ⟨change_advances rfl rfl rfl rfl, .retype (s.types.grows_setName type name)
      (fun _ _ => s.types.base_setName type _ name) rfl rfl (Nat.le_refl _) rfl fun _ h => h⟩
  · exact ⟨.refl n s, .refl s⟩

@[grind ←] theorem nameType_declares (type : TypeId) (name : Text) : Declares 0 n (nameType type name) := fun s =>
  ⟨nameType_moves type name s, .of_same (nameType_moves (n := 0) type name s).2.level (by
    show (if (s.types.get type).name.isEmpty then _ else _ : State).scope = _
    split <;> rfl)⟩

/-- The type that a name stands for. -/
def denoted (scope : Scope Declaration) (name : Text) : Option TypeId :=
  match scope.lookup? name with
  | some ⟨_, _, .typeName type⟩ => some type
  | _ => none

/-- Whether the name of a pointer's base stands for no type. -/
def unresolved (scope : Scope Declaration) (f : Forward) : Bool :=
  match scope.lookup? f.name with
  | some ⟨_, _, .typeName _⟩ => false
  | _ => true

theorem unresolved_eq (scope : Scope Declaration) (f : Forward) :
    unresolved scope f = (denoted scope f.name).isNone := by
  unfold unresolved denoted
  split <;> rfl

theorem entry_of_denoted {scope : Scope Declaration} {name : Text} {type : TypeId}
    (h : denoted scope name = some type) : ∃ e ∈ scope.entries, e.name = name ∧ e.value = .typeName type := by
  unfold denoted at h
  split at h
  · next found level base hlookup =>
    cases h
    obtain ⟨hmem, hname, -⟩ := Scope.lookup?_innermost hlookup
    exact ⟨_, hmem, hname, rfl⟩
  · cases h

/-- Some types after pointers among them got the types that their names stand for. -/
def rebased (scope : Scope Declaration) (ts : TypeTable) (pending : List Forward) : TypeTable :=
  pending.foldl (fun ts f => ts.setBase f.type (some ((denoted scope f.name).getD .integer))) ts

theorem modify_run (f : State → State) (s : State) : (modify f : Parser Unit) s = ((), f s) := rfl

theorem settle_run (f : Forward) (s : State) :
    (settle f s).2 = { s with
      types := rebased s.scope s.types [f]
      diagnostics := s.diagnostics ++ ([f].filter (unresolved s.scope)).map Forward.diagnostic } := by
  unfold settle
  rw [modify_run, rebased, foldl_cons, foldl_nil]
  split
  · next h => simp [denoted, unresolved, h]
  · next h =>
    have hnone : denoted s.scope f.name = none := by grind [denoted]
    simp [unresolved_eq, hnone, Forward.diagnostic]

/-- Settling gives pointers their bases and records one diagnostic for each whose base is no type. -/
theorem settleAll_run (pending : List Forward) (s : State) :
    (settleAll pending s).2 = { s with
      types := rebased s.scope s.types pending
      diagnostics := s.diagnostics ++ (pending.filter (unresolved s.scope)).map Forward.diagnostic } := by
  induction pending generalizing s with
  | nil => rw [filter_nil, map_nil, append_nil]; rfl
  | cons f rest ih =>
    show (settleAll rest (settle f s).2).2 = _
    rw [ih, settle_run, append_assoc, ← map_append, ← filter_append]
    rfl

section

variable (scope : Scope Declaration) (ts : TypeTable) (pending : List Forward)

theorem grows_rebased : ts.Grows (rebased scope ts pending) :=
  foldlRecOn (motive := ts.Grows) _ _ (.refl _) fun _ h _ _ => h.trans (TypeTable.grows_setBase _ _ _)

theorem get_rebased_of_ne {u : TypeId} (h : ∀ f ∈ pending, f.type ≠ u) :
    (rebased scope ts pending).get u = ts.get u :=
  foldlRecOn (motive := fun ts' : TypeTable => ts'.get u = ts.get u) _ _ rfl fun _ h' f hf =>
    (TypeTable.get_setBase_of_ne (h f hf)).trans h'

end

theorem settleAll_advances (pending : List Forward) (s : State) : Advances n s (settleAll pending s).2 := by
  rw [settleAll_run]
  refine ⟨suffix_rfl, prefix_append _ _, fun h hnone => h (append_eq_nil_iff.mp hnone).1, id, fun _ _ => rfl, ?_⟩
  rintro all ⟨read, hall, hsub⟩
  refine ⟨read, hall, ?_⟩
  have hnone : ((pending.filter (unresolved s.scope)).map Forward.diagnostic).filter (!·.problem.isPointerBase) = [] :=
    filter_eq_nil_iff.mpr (forall_mem_map.mpr fun _ _ => Bool.false_ne_true)
  rwa [reported, filter_append, hnone, append_nil]

def forget : Parser Unit := modify fun s => { s with forward := [] }

theorem forget_moves : Moves n forget := Moves.modify fun _ =>
  ⟨change_advances rfl rfl rfl rfl, .refl _, rfl, rfl, Nat.le_refl _, fun _ => ⟨fun _ hf => (nomatch hf), .refl _⟩,
    fun _ ⟨hended, read, hall, hsub⟩ => ⟨hended, read, hall, ((nil_sublist _).append_left _).trans hsub⟩⟩

/-- The end of a type section, where all pointers get their bases. -/
def settlement : Parser Unit := do
  settleAll (← get).forward
  forget

theorem settlement_run (s : State) :
    (settlement s).2 = { s with
      types := rebased s.scope s.types s.forward
      diagnostics := s.diagnostics ++ (s.forward.filter (unresolved s.scope)).map Forward.diagnostic
      forward := [] } :=
  congrArg (fun t : State => { t with forward := [] }) (settleAll_run s.forward s)

theorem settlement_moves : Moves n settlement := by
  refine fun s => ⟨(settleAll_advances s.forward s).trans (forget_moves (settleAll s.forward s).2).1, ?_⟩
  rw [settlement_run]
  refine ⟨grows_rebased _ _ _, rfl, rfl, Nat.le_refl _,
    fun h => ⟨fun _ hf => (nomatch hf), fun u _ hwaits => congrArg TypeDesc.base (get_rebased_of_ne _ _ _ ?_)⟩, ?_⟩
  · rintro f hf rfl
    exact hwaits (h f hf)
  · rintro all ⟨hended, read, rfl, hsub⟩
    refine ⟨hended, read, rfl, ?_⟩
    show (filter _ (_ ++ _) ++ []).Sublist _
    rw [append_nil, filter_append, filter_eq_self.mpr (forall_mem_map.mpr fun _ _ => rfl)]
    exact ((filter_sublist.map _).append_left _).trans hsub

theorem typeSection_declares : BeginsWith (Declares 0 n) advance typeSection := by
  have hforget (s : State) : DeclaresAt 0 n forget s := ⟨forget_moves s, .of_same rfl rfl⟩
  have hsettlement (s : State) : DeclaresAt 0 n settlement s :=
    ⟨settlement_moves s, .of_same (by rw [settlement_run]) (by rw [settlement_run])⟩
  have after (name : Text) : Declares 0 n (do
      expect .equal
      let type ← typeSpec true
      nameType type name
      declare name (.typeName type)
      expect .semicolon : Parser Unit) := by grind
  refine ⟨_, rfl, fun _ => Declares.bind hforget fun _ => Declares.bind (entries_declares (fun _ =>
    identifier_reads.declares.bind after) ?_ _) fun _ => hsettlement⟩
  intro _ s ht
  exact (identifier_takes ht).bind_moves fun name => (after name).moves.mono (Nat.zero_le n)

@[grind ←] theorem declareVariables_declares (fields : List Field) : Declares 0 n (declareVariables fields) := by
  induction fields <;> grind [declareVariables]

theorem variableGroup_declares (d : Declared) : BeginsWith (Declares 0 n) identifiers (variableGroup d) :=
  ⟨_, rfl, by grind⟩

theorem variableSection_declares (d : Declared) : BeginsWith (Declares 0 n) advance (variableSection d) := by
  refine ⟨_, rfl, fun _ => entries_declares (fun d => ?_) ?_ d⟩
  · exact (variableGroup_declares d).declares identifiers_reads
  · intro d s ht
    refine (variableGroup_declares (n := n) d).loose.takes_of_moves ?_
    refine separated_takes (fun _ => identifier_reads.moves.bind fun _ => .pure _) ?_
    exact (identifier_takes ht).bind_moves fun _ => .pure _

/-! ## Subprograms and blocks -/

@[grind ←] theorem declareParameters_declares (type : TypeId) (names : List Text) :
    Declares 1 n (declareParameters type names) := by
  induction names with
  | nil => exact .pure _
  | cons name rest ih =>
    exact fun s => .level_bind (.bind ⟨declareAt_moves _ name _ s, declareAt_adds (k := 1) name _ s⟩ fun _ => ih)

@[grind ←] theorem parameters_declares : Declares 1 n parameters := by
  refine token_reads.declares.bind fun t => ?_
  split
  · refine advance_reads.declares.bind fun _ => Declares.bind (separated_declares (fun _ => ?_) [] (by decide)) ?_
    · exact identifiers_reads.declares.bind fun _ => (expect_reads _).declares.bind fun _ => by grind
    · grind
  · exact .pure _

@[grind ←] theorem placeParameters_moves (params : List Field) : Moves n (placeParameters params) := by
  induction params with
  | nil => exact .pure _
  | cons f rest ih =>
    refine Moves.bind (Moves.modify ?_) fun _ => ih
    exact fun _ => ⟨change_advances rfl rfl rfl rfl, .rename rfl rfl rfl (Nat.le_refl _) rfl fun _ h => h⟩

section

variable (function : Bool)

@[grind ←] theorem resultOf_reads : Reads n (resultOf function) := by grind [resultOf, resultType]

@[grind ←] theorem freshRoutine_moves : Moves n freshRoutine := fun _ =>
  ⟨change_advances rfl rfl rfl rfl, .rename rfl rfl rfl (Nat.le_succ _) rfl fun _ h => h⟩

@[grind ←] theorem complete_moves (declared : Bool) (name : Text) (d : Declaration) :
    Moves n (complete declared name d) := by
  unfold complete
  split
  · exact Moves.modify fun _ => ⟨change_advances rfl rfl rfl rfl, .rename rfl rfl rfl (Nat.le_refl _) rfl fun _ h => h⟩
  · exact .pure _

def placed (ts : TypeTable) (named : List (Text × TypeId)) : List Field :=
  (ts.placeFields (-parameterWords ts named) named).1

/-- The subprogram of a heading. -/
def routineOf (id : RoutineId) (named : List (Text × TypeId)) (ts : TypeTable) (result : Option TypeId) :
    Routine :=
  { id, params := placed ts named, paramSize := parameterWords ts named, result }

/-- The part of a heading that follows the parameters. -/
def signature (function : Bool) (id : RoutineId) (declared : Bool) (name : Text)
    (named : List (Text × TypeId)) (ts : TypeTable) : Parser Routine := do
  placeParameters (placed ts named)
  let result ← resultOf function
  complete declared name (.ofRoutine function (routineOf id named ts result))
  expect .semicolon
  return routineOf id named ts result

@[grind ←] theorem signature_moves (id : RoutineId) (declared : Bool) (name : Text)
    (named : List (Text × TypeId)) (ts : TypeTable) :
    Moves n (signature function id declared name named ts) := by grind [signature]

theorem heading_eq :
    heading function = (do
      let name ← identifier
      let id ← freshRoutine
      let declared ← declareAt (← level) name (.ofRoutine function { id })
      let named ← parameters
      let ts ← types
      signature function id declared name named ts : Parser Routine) := rfl

theorem signature_run (id : RoutineId) (declared : Bool) (name : Text)
    (named : List (Text × TypeId)) (ts : TypeTable) (s : State) : signature function id declared name named ts s =
      let q := resultOf function (placeParameters (placed ts named) s).2
      let r := routineOf id named ts q.1
      (r, (expect .semicolon (complete declared name (.ofRoutine function r) q.2).2).2) := rfl

theorem heading_run (s : State) :
    heading function s =
      let t := (identifier s).2
      let d := declareAt t.level (identifier s).1 (.ofRoutine function { id := ⟨t.routines⟩ })
        { t with routines := t.routines + 1 }
      let q := parameters d.2
      signature function ⟨t.routines⟩ d.1 (identifier s).1 q.1 q.2.types q.2 := by
  rw [heading_eq, run_bind, run_bind, run_bind, run_bind, run_bind, run_bind]
  rfl

@[grind ←] theorem heading_moves : Moves n (heading function) := by
  rw [heading_eq]
  exact identifier_reads.moves.bind fun _ => freshRoutine_moves.bind fun _ => level_reads.moves.bind fun _ =>
    (declareAt_moves _ _ _).bind fun _ => parameters_declares.moves.bind fun _ => types_reads.moves.bind fun _ =>
    signature_moves _ _ _ _ _ _

/-- The inside of a block, between its opening and its end: its declarations, its statements, and the
lines of its first and last instruction. -/
def inside (block : Routine → Parser Blocks) : Parser (Declared × Nat × Stmt × Nat) := do
  let d ← loop (declaration block) {}
  let enterLine ← line
  let body ← body
  let exitLine ← line
  return (d, enterLine, body, exitLine)

theorem inside_run (block : Routine → Parser Blocks) (s : State) : inside block s =
      let q := repeatFor (declaration block) s.fuel {} s
      let b := body q.2
      ((q.1, (line q.2).1, b.1, (line b.2).1), b.2) := by
  unfold inside
  rw [run_bind, run_bind, run_bind, run_bind]
  rfl

theorem subprogram_run (block : Routine → Parser Blocks) (s : State) : subprogram block function s =
      let h := heading function s.next
      ((block h.1 h.2).1, (expect .semicolon (block h.1 h.2).2).2) := by
  unfold subprogram
  rw [run_bind, run_bind, run_bind, run_bind]
  rfl

end

def opened (id : RoutineId) (s : State) : State :=
  { s with level := s.level + 1, enclosing := id :: s.enclosing }

def closed (s : State) : State :=
  { s with scope := s.scope.purge s.level, level := s.level - 1, enclosing := s.enclosing.tail }

def blockTree (routine : Routine) (r : Declared × Nat × Stmt × Nat) : Blocks :=
  let info : BlockInfo :=
    { routine
      vars := r.1.vars
      locals := r.1.locals
      enterLine := r.2.1
      exitLine := r.2.2.2 }
  .cons info r.1.inner r.2.2.1 .nil

theorem blockOf_run (block : Routine → Parser Blocks) (routine : Routine) (s : State) :
    blockOf block routine s = (blockTree routine (inside block (opened routine.id s)).1,
      closed (inside block (opened routine.id s)).2) := by
  unfold blockOf inside
  rw [run_bind, run_bind, run_bind, run_bind, run_bind, run_bind]
  rfl

section

variable {block : Routine → Parser Blocks} (hb : ∀ routine, Moves n (block routine))
include hb

theorem subprogram_moves (function : Bool) : BeginsWith (Moves n) advance (subprogram block function) :=
  ⟨_, rfl, by grind⟩

theorem declaration_moves (d : Declared) : Moves (n + 1) (declaration block d) := by
  intro s
  have after {α : Type} {p : Parser α} (htoken : s.current.token ≠ .endOfFile)
      (h : BeginsWith (Moves n) advance p) : MovesAt (n + 1) p s :=
    h.movesAt (advance_takes htoken) (advance_reads.moves s)
  refine MovesAt.token_bind ?_
  split
  · next ht => exact (after (by simp [ht]) constantSection_declares.loose).bind fun _ => .pure _
  · next ht => exact (after (by simp [ht]) typeSection_declares.loose).bind fun _ => .pure _
  · next ht => exact (after (by simp [ht]) (variableSection_declares d).loose).bind fun _ => .pure _
  · next ht => exact (after (by simp [ht]) (subprogram_moves hb false)).bind fun _ => .pure _
  · next ht => exact (after (by simp [ht]) (subprogram_moves hb true)).bind fun _ => .pure _
  · exact Moves.pure _ s

theorem declaration_takes (m : Nat) : StepTakes m (declaration block) := by
  intro d s he _
  have after {α : Type} {p : Parser α} {f : α → Parser (Bool × Declared)}
      (htoken : s.current.token ≠ .endOfFile) (h : BeginsWith (Moves n) advance p)
      (hf : ∀ a, Moves 0 (f a)) : MoreTakes (p >>= f) s :=
    ((h.takes_of_moves (advance_takes htoken)).bind_moves hf).more he
  refine MoreTakes.token_bind ?_
  split
  · next ht => exact after (by simp [ht]) constantSection_declares.loose fun _ => .pure _
  · next ht => exact after (by simp [ht]) typeSection_declares.loose fun _ => .pure _
  · next ht => exact after (by simp [ht]) (variableSection_declares d).loose fun _ => .pure _
  · next ht => exact after (by simp [ht]) (subprogram_moves hb false) fun _ => .pure _
  · next ht => exact after (by simp [ht]) (subprogram_moves hb true) fun _ => .pure _
  · exact .stop d s

/-- What stands in a block after it is opened and before it is closed. -/
theorem inside_moves : Moves (n + 1) (inside block) :=
  (loop_moves (declaration_moves hb) (declaration_takes hb _) {}).bind fun _ =>
    line_reads.moves.bind fun _ => body_reads.moves.bind fun _ => line_reads.moves.bind fun _ => .pure _

/-- The block that is opened is the one that is closed, so that the surroundings are as before. -/
theorem blockOf_moves (routine : Routine) : Moves (n + 1) (blockOf block routine) := by
  intro s
  obtain ⟨hadv, hdev⟩ := inside_moves hb (opened routine.id s)
  show Advances (n + 1) s (blockOf block routine s).2 ∧ Develops s (blockOf block routine s).2
  rw [blockOf_run]
  generalize inside block (opened routine.id s) = r at hadv hdev
  constructor
  · have hopen : Advances (n + 1) s (opened routine.id s) := change_advances rfl rfl rfl rfl
    exact (hopen.trans hadv).trans (change_advances rfl rfl rfl rfl)
  · refine ⟨hdev.types, ?_, ?_, hdev.routines, hdev.bases, hdev.awaits⟩
    · show r.2.level - 1 = s.level
      rw [hdev.level]
      exact Int.add_sub_cancel s.level 1
    · show r.2.enclosing.tail = s.enclosing
      rw [hdev.enclosing]
      rfl

end

theorem blockWithin_moves (n : Nat) (routine : Routine) : Moves n (blockWithin n routine) := by
  induction n generalizing routine with
  | zero => exact exhaust_moves _
  | succ n ih => exact blockOf_moves ih routine

theorem block_moves (routine : Routine) : Moves n (block routine) :=
  moves_of_fuel fun k => blockWithin_moves k routine

@[grind ←] theorem programParameters_reads : Reads n programParameters := by grind [programParameters]

@[grind ←] theorem ending_reads : Reads n ending := by grind [ending]

/-- The analysis of a program moves forward whatever the bound, so that it meets none. -/
theorem program_moves : Moves n program :=
  (expect_reads _).moves.bind fun _ => identifier_reads.moves.bind fun _ =>
    programParameters_reads.moves.bind fun _ => (expect_reads _).moves.bind fun _ =>
    freshRoutine_moves.bind fun _ => (declare_declares _ _).moves.bind fun _ => line_reads.moves.bind fun _ =>
    (block_moves _).bind fun _ => ending_reads.moves.bind fun _ => .pure _

end Parser

end MiniPascal
