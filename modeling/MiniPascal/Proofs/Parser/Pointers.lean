import MiniPascal.Proofs.Parser.Scoping
import MiniPascal.Proofs.Types.Extent

/-!
# Pointers and the names after their carets

Every caret that is taken without a report starts a pointer, and the name after it tells the base. The base is known
at once if the name is declared there, and otherwise the pointer waits for it. So the pointers that a part of the
analysis adds to the types can be told one by one, in the order in which they are written.
-/

namespace MiniPascal

open List TypeTable

/-- The names right after the carets among some lexemes. -/
def pointees : List Lexeme → List Text
  | l :: m :: rest => if l.token = .caret then m.text :: pointees rest else pointees (m :: rest)
  | _ => []

def Uncut (taken : List Lexeme) : Prop := ∀ l ∈ taken.getLast?, l.token ≠ .caret

theorem pointees_cons_of_ne {l : Lexeme} (h : l.token ≠ .caret) (rest : List Lexeme) :
    pointees (l :: rest) = pointees rest := by
  cases rest with
  | nil => rfl
  | cons m rest => rw [pointees, if_neg h]

theorem Uncut.append {before after : List Lexeme} (h : Uncut before) (h' : Uncut after) : Uncut (before ++ after) := by
  intro l hl
  rw [List.getLast?_append] at hl
  cases hlast : after.getLast? with
  | none => exact h l (by simpa [hlast] using hl)
  | some x =>
    refine h' l ?_
    rw [hlast] at hl ⊢
    exact hl

/-- A caret and its name are not torn apart where lexemes that end otherwise are cut off. -/
theorem pointees_append {before : List Lexeme} (h : Uncut before) (after : List Lexeme) :
    pointees (before ++ after) = pointees before ++ pointees after := by
  fun_induction pointees before with
  | case1 l m rest hcaret ih =>
    have hrest : Uncut rest := by
      cases rest with
      | nil => exact fun _ hx => (nomatch hx)
      | cons r rest => exact h
    rw [cons_append, cons_append, pointees, if_pos hcaret, ih hrest]
    rfl
  | case2 l m rest hcaret ih =>
    rw [cons_append, pointees_cons_of_ne hcaret, ih]
    exact h
  | case3 before hshort =>
    match before, hshort with
    | [], _ => rfl
    | [l], _ => exact pointees_cons_of_ne (h l rfl) after
    | l :: m :: rest, hshort => exact absurd rfl (hshort l m rest)

namespace TypeTable

variable {ts ts' ts'' : TypeTable}

def pointersFrom (ts : TypeTable) (start : Nat) : List TypeId :=
  ((List.range' start (ts.descs.size - start)).map TypeId.mk).filter fun t => ts.kind t = .pointer

theorem has_of_mem_pointersFrom {start : Nat} {t : TypeId} (h : t ∈ ts.pointersFrom start) : ts.Has t := by
  obtain ⟨i, hi, rfl⟩ := mem_map.mp (mem_filter.mp h).1
  have := mem_range'_1.mp hi
  show i < ts.descs.size
  omega

theorem nodup_pointersFrom (ts : TypeTable) (start : Nat) : (ts.pointersFrom start).Nodup := by
  refine List.Nodup.filter _ ?_
  rw [List.Nodup, pairwise_map]
  exact (nodup_range' 1).imp fun hne heq => hne (TypeId.mk.inj heq)

theorem Grows.length_le (h : ts.Grows ts') : ts.descs.size ≤ ts'.descs.size := by
  rcases Nat.lt_or_ge ts'.descs.size ts.descs.size with hlt | hle
  · exact absurd (h.has (t := ⟨ts'.descs.size⟩) hlt) (Nat.lt_irrefl _)
  · exact hle

/-- What is added in two steps is added one after the other. -/
theorem pointersFrom_append (h : ts.Grows ts') (h' : ts'.Grows ts'') :
    ts''.pointersFrom ts.descs.size = ts'.pointersFrom ts.descs.size ++ ts''.pointersFrom ts'.descs.size := by
  have hle := h.length_le
  have hle' := h'.length_le
  have hsplit : List.range' ts.descs.size (ts''.descs.size - ts.descs.size) =
      List.range' ts.descs.size (ts'.descs.size - ts.descs.size) ++
        List.range' ts'.descs.size (ts''.descs.size - ts'.descs.size) := by
    rw [show ts''.descs.size - ts.descs.size =
      (ts'.descs.size - ts.descs.size) + (ts''.descs.size - ts'.descs.size) by omega, ← List.range'_append_1,
      show ts.descs.size + (ts'.descs.size - ts.descs.size) = ts'.descs.size by omega]
  unfold pointersFrom
  rw [hsplit, map_append, filter_append]
  congr 1
  refine filter_congr fun t ht => ?_
  obtain ⟨i, hi, rfl⟩ := mem_map.mp ht
  have := mem_range'_1.mp hi
  rw [h'.kind (t := ⟨i⟩) (show i < ts'.descs.size by omega)]

theorem pointersFrom_self (ts : TypeTable) : ts.pointersFrom ts.descs.size = [] := by
  simp [pointersFrom]

theorem pointersFrom_add (ts : TypeTable) (d : TypeDesc) :
    (ts.add d).2.pointersFrom ts.descs.size = if d.kind = .pointer then [(ts.add d).1] else [] := by
  have hsize : (ts.add d).2.descs.size - ts.descs.size = 1 := by
    show (ts.descs.push d).size - _ = 1
    rw [Array.size_push]
    omega
  have hkind : (ts.add d).2.kind ⟨ts.descs.size⟩ = d.kind := congrArg TypeDesc.kind (ts.get_add d)
  unfold pointersFrom
  rw [hsize]
  show List.filter _ [TypeId.mk ts.descs.size] = _
  rw [filter_singleton, hkind]
  by_cases h : d.kind = .pointer
  · simp [h]
    rfl
  · simp [h]

theorem base_setBase {t : TypeId} (h : ts.Has t) (base : Option TypeId) : ((ts.setBase t base).get t).base = base := by
  have hget : (ts.setBase t base).descs[t.index]? = some { ts.get t with base } := by
    simp [setBase, modify, Array.getElem?_modify, h.getElem?]
  rw [get_eq hget]

theorem pointersFrom_eq (h : ts.Grows ts') (hsize : ts'.descs.size = ts.descs.size) (start : Nat) :
    ts'.pointersFrom start = ts.pointersFrom start := by
  unfold pointersFrom
  rw [hsize]
  refine filter_congr fun t ht => ?_
  obtain ⟨i, hi, rfl⟩ := mem_map.mp ht
  have := mem_range'_1.mp hi
  rw [h.kind (t := ⟨i⟩) (show i < ts.descs.size by omega)]

end TypeTable

namespace Parser

/-- A pointer that is written in a source: the name of its base, its own type, and the names that are declared where
it is written. -/
structure Pointer where
  name : Text
  type : TypeId
  seen : Scope Declaration

/-- The name of the base is not declared yet. -/
def Pointer.waits (p : Pointer) : Bool := (p.seen.lookup? p.name).isNone

open State

variable {α β σ : Type} {f : α → Parser β} {p : Parser α}

/-- From one state to another some pointers are written. Each of them has the type that its name stands for, or waits
for its base; all other types keep their bases. -/
structure Writes (s t : State) (ps : List Pointer) : Prop where
  lexemes : ∃ taken, s.lexemes = taken ++ t.lexemes ∧ Uncut taken ∧ pointees taken = ps.map (·.name)
  types : s.types.Grows t.types
  kept : ∀ id, s.types.Has id → (t.types.get id).base = (s.types.get id).base
  created : t.types.pointersFrom s.types.descs.size = ps.map (·.type)
  names : s.scope.entries <+: t.scope.entries
  seen : ∀ p ∈ ps, s.scope.entries <+: p.seen.entries ∧ p.seen.entries <+: t.scope.entries
  bases : ∀ p ∈ ps, (t.types.get p.type).base = denoted p.seen p.name
  found : ∀ p ∈ ps, p.waits = false → (denoted p.seen p.name).isSome
  forward : ∃ pending, t.forward = s.forward ++ pending ∧
    pending.map (fun f => (f.name, f.type)) = (ps.filter Pointer.waits).map fun p => (p.name, p.type)

namespace Writes

variable {s t u : State} {ps qs : List Pointer}

theorem has (h : Writes s t ps) {p : Pointer} (hp : p ∈ ps) : t.types.Has p.type :=
  has_of_mem_pointersFrom (h.created ▸ mem_map_of_mem hp)

/-- Nothing is written while no type is added. -/
theorem nothing (taken : List Lexeme) (hlexemes : s.lexemes = taken ++ t.lexemes) (hcaret : ∀ l ∈ taken, l.token ≠ .caret)
    (htypes : t.types = s.types) (hforward : t.forward = s.forward) (hnames : s.scope.entries <+: t.scope.entries) :
    Writes s t [] where
  lexemes := by
    refine ⟨taken, hlexemes, fun l hl => hcaret l (mem_of_getLast? hl), ?_⟩
    clear hlexemes
    induction taken with
    | nil => rfl
    | cons l rest ih =>
      rw [pointees_cons_of_ne (hcaret l mem_cons_self)]
      exact ih fun m hm => hcaret m (mem_cons_of_mem l hm)
  types := htypes ▸ .refl _
  kept _ _ := by rw [htypes]
  created := by
    rw [htypes]
    exact pointersFrom_self _
  names := hnames
  seen := by simp
  bases := by simp
  found := by simp
  forward := ⟨[], by rw [hforward, append_nil], rfl⟩

theorem trans (h : Writes s t ps) (h' : Writes t u qs) : Writes s u (ps ++ qs) where
  lexemes := by
    obtain ⟨taken, hlexemes, huncut, hnames⟩ := h.lexemes
    obtain ⟨taken', hlexemes', huncut', hnames'⟩ := h'.lexemes
    refine ⟨taken ++ taken', ?_, huncut.append huncut', ?_⟩
    · rw [hlexemes, hlexemes', append_assoc]
    · rw [pointees_append huncut, hnames, hnames', map_append]
  types := h.types.trans h'.types
  kept id hid := (h'.kept id (h.types.has hid)).trans (h.kept id hid)
  created := by rw [pointersFrom_append h.types h'.types, h.created, h'.created, map_append]
  names := h.names.trans h'.names
  seen p hp := by
    rcases mem_append.mp hp with hp | hp
    · exact ⟨(h.seen p hp).1, (h.seen p hp).2.trans h'.names⟩
    · exact ⟨h.names.trans (h'.seen p hp).1, (h'.seen p hp).2⟩
  bases p hp := by
    rcases mem_append.mp hp with hp | hp
    · exact (h'.kept p.type (h.has hp)).trans (h.bases p hp)
    · exact h'.bases p hp
  found p hp := by
    rcases mem_append.mp hp with hp | hp
    · exact h.found p hp
    · exact h'.found p hp
  forward := by
    obtain ⟨pending, hforward, hpending⟩ := h.forward
    obtain ⟨pending', hforward', hpending'⟩ := h'.forward
    refine ⟨pending ++ pending', ?_, ?_⟩
    · rw [hforward', hforward, append_assoc]
    · rw [map_append, hpending, hpending', filter_append, map_append]

/-- A type that is no pointer is added. -/
theorem add {d : TypeDesc} (hd : d.kind ≠ .pointer) : Writes s { s with types := (s.types.add d).2 } [] :=
  { nothing (s := s) (t := s) [] rfl (by simp) rfl rfl prefix_rfl with
    types := s.types.grows_add d
    kept := fun id hid => by rw [get_add_of_has d hid]
    created := by
      show (s.types.add d).2.pointersFrom _ = []
      rw [pointersFrom_add, if_neg hd]
    bases := by simp }

/-- A pointer is added after its caret and its name. -/
theorem pointer (caret name : Lexeme) (base : Option TypeId) (pending : List Forward)
    (hlexemes : s.lexemes = caret :: name :: t.lexemes) (hcaret : caret.token = .caret) (hname : name.token ≠ .caret)
    (htypes : t.types = (s.types.add (.pointer base)).2) (hscope : t.scope = s.scope)
    (hbase : base = denoted s.scope name.text) (hfound : s.scope.lookup? name.text ≠ none → base.isSome)
    (hforward : t.forward = s.forward ++ pending) (hpending : pending.map (fun f => (f.name, f.type)) =
      if s.scope.lookup? name.text = none then [(name.text, (s.types.add (.pointer base)).1)] else []) :
    Writes s t [⟨name.text, (s.types.add (.pointer base)).1, s.scope⟩] where
  lexemes := by
    refine ⟨[caret, name], hlexemes, fun l hl => ?_, ?_⟩
    · cases hl
      exact hname
    · rw [pointees, if_pos hcaret]
      rfl
  types := htypes ▸ s.types.grows_add _
  kept id hid := by rw [htypes, get_add_of_has _ hid]
  created := by
    rw [htypes, pointersFrom_add]
    rfl
  names := hscope ▸ prefix_rfl
  seen p hp := by
    cases mem_singleton.mp hp
    exact ⟨prefix_rfl, hscope ▸ prefix_rfl⟩
  bases p hp := by
    cases mem_singleton.mp hp
    rw [htypes, get_add]
    exact hbase
  found p hp hwaits := by
    cases mem_singleton.mp hp
    rw [← hbase]
    refine hfound fun hnone => ?_
    simp [Pointer.waits, hnone] at hwaits
  forward := by
    refine ⟨pending, hforward, hpending.trans ?_⟩
    by_cases hnone : s.scope.lookup? name.text = none
    · simp [Pointer.waits, hnone]
    · have hsome := Option.isNone_eq_false_iff.mpr (Option.isSome_iff_ne_none.mpr hnone)
      simp [Pointer.waits, hnone, hsome]

end Writes

/-- A state that the analysis can come to: the first problem is going to be recorded, and the file has an end. -/
structure State.Ready (s : State) : Prop where
  lastError : s.diagnostics = [] → s.lastError = none
  ended : s.Ended

theorem State.Ready.advance {s t : State} (h : s.Ready) (hadv : Advances 0 s t) : t.Ready :=
  ⟨hadv.lastError h.lastError, h.ended.of_suffix hadv.lexemes⟩

/-- One state comes after another, and if nothing is reported up to there, some pointers are written. -/
structure Follows (s t : State) : Prop where
  advances : Advances 0 s t
  writes : s.Ready → t.diagnostics = [] → ∃ ps, Writes s t ps

namespace Follows

variable {s t u : State}

theorem trans (h : Follows s t) (h' : Follows t u) : Follows s u where
  advances := h.advances.trans h'.advances
  writes hs hnone := by
    obtain ⟨ps, hps⟩ := h.writes hs (h'.advances.silent hnone)
    obtain ⟨qs, hqs⟩ := h'.writes (hs.advance h.advances) hnone
    exact ⟨ps ++ qs, hps.trans hqs⟩

theorem of_names (hadv : Advances 0 s t) (hlexemes : t.lexemes = s.lexemes) (htypes : t.types = s.types)
    (hforward : t.forward = s.forward) (hnames : s.scope.entries <+: t.scope.entries) : Follows s t :=
  ⟨hadv, fun _ _ => ⟨[], .nothing [] hlexemes.symm (by simp) htypes hforward hnames⟩⟩

theorem refl (s : State) : Follows s s := of_names (.refl 0 s) rfl rfl rfl prefix_rfl

theorem exhaust (s : State) : Follows s s.exhaust := of_names (exhaust_advances s) rfl rfl rfl prefix_rfl

/-- A lexeme other than a caret is taken. -/
theorem next (hend : s.current.token ≠ .endOfFile) (hcaret : s.current.token ≠ .caret) : Follows s s.next where
  advances := next_advances s
  writes hs hnone := by
    have hsame := next_same s
    refine ⟨[], .nothing [s.current] ?_ (by simpa using hcaret) hsame.types hsame.forward (hsame.scope ▸ prefix_rfl)⟩
    rw [lexemes_next hs.lastError hs.ended hend hnone]
    rfl

/-- After a report nothing has to be said. -/
theorem report (q : Problem) : Follows s (s.report q) :=
  ⟨report_advances q s, fun hs hnone => absurd hnone (diagnostics_report_ne hs.lastError q)⟩

theorem declareAt (level : Int) (name : Text) (value : Declaration) (s : State) :
    Follows s (declareAt level name value s).2 := by
  have hadv := (declareAt_moves (n := 0) level name value s).1
  have hnames := declareAt_names level name value s
  rw [declareAt_run] at hadv hnames ⊢
  split
  · next heq =>
    rw [heq] at hadv hnames
    exact of_names hadv rfl rfl rfl ⟨_, hnames.symm⟩
  · exact report _

theorem addType {d : TypeDesc} (hd : d.kind ≠ .pointer) (s : State) : Follows s (addType d s).2 :=
  ⟨(addType_moves d s).1, fun _ _ => ⟨[], .add hd⟩⟩

end Follows

/-- From a state on, a part of the analysis tells its pointers. -/
def TracksAt (p : Parser α) (s : State) : Prop := Follows s (p s).2

/-- A part of the analysis tells its pointers, from every state on. -/
def Tracks (p : Parser α) : Prop := ∀ s, TracksAt p s

/-- A part of the analysis tells its pointers wherever a token is the current one. -/
def TracksOn (t : Token) (p : Parser α) : Prop := ∀ s, s.current.token = t → TracksAt p s

namespace TracksOn

variable {t : Token}

@[grind ←] theorem of_tracks (h : Tracks p) : TracksOn t p := fun s _ => h s

@[grind ←] theorem bind (hp : TracksOn t p) (hf : ∀ a, Tracks (f a)) : TracksOn t (p >>= f) :=
  fun s ht => Follows.trans (hp s ht) (hf (p s).1 (p s).2)

@[grind ←] theorem advance (h : t ≠ .endOfFile ∧ t ≠ .caret) : TracksOn t advance :=
  fun _ ht => .next (ht ▸ h.1) (ht ▸ h.2)

/-- The current token is still the same after a report. -/
@[grind ←] theorem report_bind (q : Problem) {f : Unit → Parser β} (hf : TracksOn t (f ())) :
    TracksOn t (report q >>= f) :=
  fun s ht => Follows.trans (.report q) (hf (s.report q) ((congrArg _ (report_current q s)).trans ht))

@[grind ←] theorem get_bind {f : State → Parser β} (hf : ∀ s, TracksOn t (f s)) : TracksOn t (get >>= f) :=
  fun s => hf s s

@[grind ←] theorem text_bind {f : Text → Parser β} (hf : ∀ x, TracksOn t (f x)) : TracksOn t (text >>= f) :=
  fun s => hf _ s

end TracksOn

namespace Tracks

@[grind ←] theorem pure (a : α) : Tracks (pure a : Parser α) := .refl

@[grind ←] theorem bind (hp : Tracks p) (hf : ∀ a, Tracks (f a)) : Tracks (p >>= f) :=
  fun s => Follows.trans (hp s) (hf (p s).1 (p s).2)

@[grind ←] theorem get_bind {f : State → Parser α} (h : ∀ s, TracksOn s.current.token (f s)) :
    Tracks (get >>= f) := fun s => h s s rfl

@[grind ←] theorem token_bind {f : Token → Parser α} (h : ∀ t, TracksOn t (f t)) : Tracks (token >>= f) :=
  fun s => h _ s rfl

@[grind ←] theorem loop {step : σ → Parser (Bool × σ)} (hstep : ∀ x, Tracks (step x)) (x : σ) : Tracks (loop step x) :=
  fun s => repeatFor_induct (R := Follows) .exhaust .trans (fun x s => hstep x s) s.fuel x s

end Tracks

@[grind ←] theorem types_tracks : Tracks types := .refl

@[grind ←] theorem report_tracks (q : Problem) : Tracks (report q) := fun _ => .report q

@[grind ←] theorem expect_tracks {t : Token} (hne : t ≠ .endOfFile ∧ t ≠ .caret) : Tracks (expect t) := by
  grind [expect]

@[grind ←] theorem identifier_tracks : Tracks identifier := by
  grind [identifier]

@[grind ←] theorem resolve_tracks : TracksOn .identifier resolve := by
  grind [resolve]

@[grind ←] theorem separated_tracks {separator : Token} {item : σ → Parser σ} (hitem : ∀ x, Tracks (item x)) (x : σ)
    (hne : separator ≠ .endOfFile ∧ separator ≠ .caret) : Tracks (separated separator item x) := by
  grind [separated]

@[grind ←] theorem identifiers_tracks : Tracks identifiers := by grind [identifiers]

@[grind ←] theorem declare_tracks (name : Text) (value : Declaration) : Tracks (declare name value) :=
  fun s => Follows.declareAt s.level name value s

/-! ## Constants and types -/

@[grind ←] theorem unsignedConstant_tracks : Tracks unsignedConstant := by grind [unsignedConstant, require]

@[grind ←] theorem sign_tracks : Tracks sign := by
  refine .token_bind fun t => ?_
  unfold sign?
  split
  iterate 2 exact TracksOn.bind (p := advance) (.advance (by decide)) fun _ => .pure _
  · exact .of_tracks (.pure _)

@[grind ←] theorem negated_tracks (value : Datum) (type : TypeId) : Tracks (negated value type) := by grind [negated]

@[grind ←] theorem constant_tracks : Tracks constant := by grind [constant]

@[grind ←] theorem typeIdentifier_tracks : Tracks typeIdentifier := by grind [typeIdentifier]

@[grind ←] theorem declareValues_tracks (type : TypeId) (n : Nat) (names : List Text) :
    Tracks (declareValues type n names) := by
  induction names generalizing n <;> grind [declareValues]

@[grind ←] theorem addType_tracks {d : TypeDesc} (hd : d.kind ≠ .pointer) : Tracks (addType d) := Follows.addType hd

theorem enumeration_tracks : TracksOn .leftParen enumeration := by grind [enumeration, TypeDesc.enumeration]

@[grind ←] theorem subrange_tracks : Tracks subrange := by
  refine constant_tracks.bind fun lower => (expect_tracks (by decide)).bind fun _ =>
    constant_tracks.bind fun upper => types_tracks.bind fun ts => ?_
  split
  · split
    · next d hd =>
      obtain ⟨hordinal, -, -, -, rfl⟩ := TypeTable.subrange?_eq_ok hd
      refine addType_tracks fun hpointer => ?_
      rw [show ts.kind _ = .pointer from hpointer] at hordinal
      cases hordinal
    · grind
  · grind

@[grind ←] theorem arrayOver_tracks (element : TypeId) (indices : List TypeId) : Tracks (arrayOver element indices) := by
  induction indices generalizing element with
  | nil => exact .pure _
  | cons index rest ih =>
    refine types_tracks.bind fun ts => ?_
    split
    · next d hd =>
      obtain ⟨-, -, rfl⟩ := TypeTable.array?_eq_ok hd
      exact (addType_tracks (by simp)).bind fun array => ih array
    · grind

/-- A part of the analysis that starts at one state completes what starts at another. -/
def Completes (s : State) (p : Parser α) (u : State) : Prop := (p u).2.diagnostics = [] → ∃ ps, Writes s (p u).2 ps

theorem Completes.advance_bind {s u : State} {f : Unit → Parser α} (h : Completes s (f ()) u.next) :
    Completes s (advance >>= f) u := h

theorem Completes.get_bind {s u : State} {f : State → Parser α} (h : Completes s (f u) u) :
    Completes s (get >>= f) u := h

theorem report_completes {s u : State} (hu : u.Ready) (p : Problem) {f : Unit → Parser α} (hf : Moves 0 (f ())) :
    Completes s (report p >>= f) u := fun hnone =>
  absurd ((hf (u.report p)).1.silent hnone) (diagnostics_report_ne hu.lastError p)

/-- A pointer to what the current name stands for is added, and waits. -/
def State.await (u : State) : State :=
  { u with
    types := (u.types.add (.pointer none)).2
    forward := u.forward ++ [⟨u.current.text, (u.types.add (.pointer none)).1, u.current.pos, u.current.line⟩] }

section

variable {s u : State} (hcaret : s.current.token = .caret) (hsame : SameDeclarations s u) (hu : u.Ready)
  (hlexemes : u.diagnostics = [] → s.lexemes = s.current :: u.lexemes) (hident : u.current.token = .identifier)
include hcaret hsame hu hlexemes hident

theorem found_completes {name : Text} {level : Int} {type : TypeId}
    (hfound : u.scope.lookup? u.current.text = some ⟨name, level, .typeName type⟩) :
    Completes s (do advance; addType (.pointer (some type))) u := by
  intro hnone
  have hnext : u.next.diagnostics = [] := hnone
  have hafter := next_same u
  rw [hsame.scope] at hfound
  refine ⟨_, .pointer s.current u.current (some type) [] ?_ hcaret (by simp [hident]) ?_ (hafter.scope.trans hsame.scope) ?_
    (fun _ => rfl) ?_ ?_⟩
  · rw [hlexemes ((next_advances (n := 0) u).silent hnext)]
    exact congrArg (s.current :: u.current :: ·) (lexemes_next hu.lastError hu.ended (by simp [hident]) hnext).symm
  · show (u.next.types.add _).2 = _
    rw [hafter.types, hsame.types]
  · simp [denoted, hfound]
  · rw [append_nil]
    exact hafter.forward.trans hsame.forward
  · simp [hfound]

/-- A name that is not declared after a caret. -/
theorem deferred_completes (hfound : u.scope.lookup? u.current.text = none) : Completes s (deferred u.current) u := by
  intro hnone
  have hnone : u.await.next.diagnostics = [] := hnone
  have hafter := next_same u.await
  have hready : u.await.Ready := ⟨hu.lastError, hu.ended⟩
  rw [hsame.scope] at hfound
  refine ⟨_, .pointer s.current u.current none
    [⟨u.current.text, (s.types.add (.pointer none)).1, u.current.pos, u.current.line⟩] ?_ hcaret (by simp [hident])
    (hafter.types.trans ?_) (hafter.scope.trans hsame.scope) ?_ ?_ (hafter.forward.trans ?_) ?_⟩
  · rw [hlexemes ((next_advances (n := 0) u.await).silent hnone)]
    exact congrArg (s.current :: u.current :: ·)
      (lexemes_next hready.lastError hready.ended (by simp [State.await, hident]) hnone).symm
  · rw [State.await, hsame.types]
  · simp [denoted, hfound]
  · exact fun h => absurd hfound h
  · rw [State.await, hsame.types, hsame.forward]
  · simp [hfound]

end

/-- A name after a caret stands for a type if it is declared, and otherwise the pointer waits. -/
theorem pointerType_tracks (inSection : Bool) : TracksOn .caret (pointerType inSection) := by
  refine fun s ht => ⟨(pointerType_declares (n := 0) inSection s).moves.1, fun hs => ?_⟩
  have hu := hs.advance (next_advances s)
  have hsame := next_same s
  have hlexemes (hnone : s.next.diagnostics = []) : s.lexemes = s.current :: s.next.lexemes := by
    rw [lexemes_next hs.lastError hs.ended (by simp [ht]) hnone]
    rfl
  show Completes s (pointerType inSection) s
  refine Completes.advance_bind (Completes.get_bind ?_)
  generalize s.next = u at *
  split
  · next hident =>
    split
    · next e hfound =>
      obtain ⟨name, level, value⟩ := e
      dsimp only
      split
      · next type => exact found_completes ht hsame hu hlexemes hident hfound
      · exact fun hnone => absurd ((addType_moves (n := 0) _ _).1.silent hnone)
          (diagnostics_report_ne (hu.advance (next_advances u)).lastError _)
    · next hfound =>
      split
      · exact deferred_completes ht hsame hu hlexemes hident hfound
      · intro hnone
        have hresolve : (resolve u).2.diagnostics = [] := (addType_moves (n := 0) _ _).1.silent hnone
        rw [resolve_run, hfound] at hresolve
        exact absurd ((next_advances (n := 0) _).silent hresolve) (diagnostics_report_ne hu.lastError _)
  · exact report_completes hu _ (addType_moves _)

@[grind ←] theorem addFields_tracks (type : TypeId) (fields : List (Text × TypeId)) (names : List Text) :
    Tracks (addFields type fields names) := by
  induction names generalizing fields <;> grind [addFields, require]

section

variable {typeSpec : Bool → Parser TypeId} (hspec : ∀ inSection, Tracks (typeSpec inSection))
include hspec

variable (inSection : Bool)

theorem arrayType_tracks : TracksOn .kwArray (arrayType typeSpec inSection) := by grind [arrayType]

theorem fieldGroup_tracks (fields : List (Text × TypeId)) : Tracks (fieldGroup typeSpec inSection fields) := by
  refine .token_bind fun t => ?_
  split
  · exact .of_tracks (identifiers_tracks.bind fun _ => by grind)
  · exact .of_tracks (.pure _)

theorem recordType_tracks : TracksOn .kwRecord (recordType typeSpec inSection) := by
  have hfields := Tracks.loop (fieldGroup_tracks hspec inSection) []
  grind [recordType, TypeTable.record]

theorem typeSpecOf_tracks : Tracks (typeSpecOf typeSpec inSection) := by
  refine .get_bind fun s => ?_
  generalize s.current.token = t
  split
  · split
    · exact .of_tracks subrange_tracks
    · exact .of_tracks typeIdentifier_tracks
  · exact enumeration_tracks
  iterate 4 exact .of_tracks subrange_tracks
  · exact arrayType_tracks hspec inSection
  · exact recordType_tracks hspec inSection
  · exact pointerType_tracks inSection
  · exact .of_tracks (by grind)

end

theorem typeSpecWithin_tracks (n : Nat) (inSection : Bool) : Tracks (typeSpecWithin n inSection) := by
  induction n generalizing inSection with
  | zero => exact fun s => .exhaust s
  | succ n ih => exact typeSpecOf_tracks ih inSection

@[grind ←] theorem typeSpec_tracks (inSection : Bool) : Tracks (typeSpec inSection) :=
  fun s => typeSpecWithin_tracks s.fuel inSection s

/-! ## Type sections -/

@[grind ←] theorem nameType_tracks (type : TypeId) (name : Text) : Tracks (nameType type name) := by
  intro s
  refine ⟨(nameType_moves (n := 0) type name s).1, fun _ _ => ⟨[], ?_⟩⟩
  show Writes s (if (s.types.get type).name.isEmpty then _ else _) []
  have hsame : Writes s s [] := .nothing [] rfl (by simp) rfl rfl prefix_rfl
  split
  · have hgrows := s.types.grows_setName type name
    exact { hsame with
      types := hgrows
      kept := fun id _ => base_setName s.types type id name
      created := (pointersFrom_eq hgrows (by simp [TypeTable.setName, TypeTable.modify]) _).trans
        s.types.pointersFrom_self
      bases := by simp }
  · exact hsame

/-- The types of a section, without the word in front and before the pointers that wait get their bases. -/
def typeEntries : Parser Unit :=
  entries (fun _ => do
    let name ← identifier
    expect .equal
    let type ← typeSpec true
    nameType type name
    declare name (.typeName type)
    expect .semicolon) ()

theorem typeEntries_tracks : Tracks typeEntries := by
  refine Tracks.loop (fun _ => .token_bind fun t => ?_) ()
  split
  · refine .of_tracks (Tracks.bind (identifier_tracks.bind fun name => ?_) fun _ => .pure _)
    exact (expect_tracks (by decide)).bind fun _ => (typeSpec_tracks true).bind fun type => by grind
  · exact .of_tracks (.pure _)

theorem size_rebased (scope : Scope Declaration) (ts : TypeTable) (pending : List Forward) :
    (rebased scope ts pending).descs.size = ts.descs.size :=
  foldlRecOn (motive := fun ts' : TypeTable => ts'.descs.size = ts.descs.size) _ _ rfl fun _ h _ _ => by
    simpa [TypeTable.setBase, TypeTable.modify] using h

theorem base_rebased {scope : Scope Declaration} {ts : TypeTable} {pending : List Forward} {f : Forward}
    (hf : f ∈ pending) (hdistinct : (pending.map (·.type)).Nodup) (hhas : ts.Has f.type) :
    ((rebased scope ts pending).get f.type).base = some ((denoted scope f.name).getD .integer) := by
  obtain ⟨before, after, rfl⟩ := append_of_mem hf
  rw [map_append, map_cons] at hdistinct
  have hafter := (nodup_cons.mp (nodup_append.mp hdistinct).2.1).1
  rw [rebased, foldl_append, foldl_cons]
  refine (congrArg TypeDesc.base (get_rebased_of_ne scope _ after ?_)).trans
    (base_setBase ((grows_rebased scope ts before).has hhas) _)
  exact fun g hg heq => hafter (heq ▸ mem_map_of_mem hg)

/-- A pointer has the type that its name stands for where it is written, or the one that the name stands for in the
end, if it is not declared there. -/
structure Resolves (s t : State) (p : Pointer) : Prop where
  first : s.scope.entries <+: p.seen.entries
  last : p.seen.entries <+: t.scope.entries
  base : (t.types.get p.type).base = (denoted p.seen p.name).or (denoted t.scope p.name)
  isSome : (t.types.get p.type).base.isSome

/-- The pointers that wait are some of those that are written, and no other one gets its base. -/
theorem Writes.settlement {s t : State} {ps : List Pointer} (h : Writes s t ps) (hforward : s.forward = [])
    (hnone : (settlement t).2.diagnostics = []) : (settlement t).2.lexemes = t.lexemes ∧
      (settlement t).2.types.pointersFrom s.types.descs.size = ps.map (·.type) ∧
      ∀ p ∈ ps, Resolves s (settlement t).2 p := by
  obtain ⟨pending, hpending, hwaits⟩ := h.forward
  rw [hforward, nil_append] at hpending
  have hmem {f : Forward} (hf : f ∈ pending) : ∃ p ∈ ps, p.waits = true ∧ p.name = f.name ∧ p.type = f.type := by
    have hpair := mem_map_of_mem (f := fun f : Forward => (f.name, f.type)) hf
    rw [hwaits] at hpair
    obtain ⟨p, hp, heq⟩ := mem_map.mp hpair
    obtain ⟨hp, hwait⟩ := mem_filter.mp hp
    exact ⟨p, hp, hwait, (Prod.mk.inj heq).1, (Prod.mk.inj heq).2⟩
  have hnodup : (ps.map (·.type)).Nodup := h.created ▸ nodup_pointersFrom _ _
  have hdistinct : (pending.map (·.type)).Nodup := by
    have htypes : pending.map (·.type) = (ps.filter Pointer.waits).map (·.type) := by
      simpa only [map_map, Function.comp_def] using congrArg (List.map Prod.snd) hwaits
    rw [htypes]
    exact hnodup.sublist (filter_sublist.map _)
  have hhas : ∀ f ∈ pending, t.types.Has f.type := by
    intro f hf
    obtain ⟨p, hp, -, -, htype⟩ := hmem hf
    exact htype ▸ h.has hp
  rw [settlement_run, hpending] at hnone ⊢
  have hfound (f : Forward) (hf : f ∈ pending) : ∃ type, denoted t.scope f.name = some type := by
    have hresolved := filter_eq_nil_iff.mp (map_eq_nil_iff.mp (append_eq_nil_iff.mp hnone).2) f hf
    rwa [unresolved_eq, Bool.not_eq_true, Option.isNone_eq_false_iff, Option.isSome_iff_exists] at hresolved
  have hcreated := (pointersFrom_eq (grows_rebased t.scope t.types pending) (size_rebased _ _ _) _).trans h.created
  refine ⟨rfl, hcreated, fun p hp => ?_⟩
  suffices hbase : ((rebased t.scope t.types pending).get p.type).base =
      (denoted p.seen p.name).or (denoted t.scope p.name) ∧
      ((rebased t.scope t.types pending).get p.type).base.isSome from
    ⟨(h.seen p hp).1, (h.seen p hp).2, hbase.1, hbase.2⟩
  cases hwait : p.waits with
  | true =>
    have hpair := mem_map_of_mem (f := fun p : Pointer => (p.name, p.type)) (mem_filter.mpr ⟨hp, hwait⟩)
    rw [← hwaits] at hpair
    obtain ⟨f, hf, heq⟩ := mem_map.mp hpair
    obtain ⟨hname, htype⟩ := Prod.mk.inj heq
    have hunknown : denoted p.seen p.name = none := by
      simp [denoted, Option.isNone_iff_eq_none.mp hwait]
    obtain ⟨type, hdenoted⟩ := hfound f hf
    rw [← htype, base_rebased hf hdistinct (hhas f hf), hunknown, Option.none_or, ← hname, hdenoted]
    exact ⟨rfl, rfl⟩
  | false =>
    have hother (f : Forward) (hf : f ∈ pending) : f.type ≠ p.type := by
      intro hfp
      obtain ⟨q, hq, hqwait, -, hqf⟩ := hmem hf
      cases inj_on_of_nodup_map hnodup hq hp (hqf.trans hfp)
      rw [hwait] at hqwait
      cases hqwait
    have hsome := h.found p hp hwait
    rw [get_rebased_of_ne _ _ _ hother, h.bases p hp, Option.or_of_isSome hsome]
    exact ⟨rfl, hsome⟩

theorem typeSection_writes {s : State} (hs : s.Ready) (ht : s.current.token = .kwType)
    (hnone : (typeSection s).2.diagnostics = []) :
    ∃ (taken : List Lexeme) (ps : List Pointer), s.lexemes = taken ++ (typeSection s).2.lexemes ∧
      pointees taken = ps.map (·.name) ∧ (typeSection s).2.types.pointersFrom s.types.descs.size = ps.map (·.type) ∧
      ∀ p ∈ ps, Resolves s (typeSection s).2 p := by
  have hrun : (typeSection s).2 = (settlement (typeEntries { s.next with forward := [] }).2).2 := rfl
  have hnext := next_same s
  have hready := hs.advance (next_advances s)
  have hentries := typeEntries_tracks { s.next with forward := [] }
  rw [hrun] at hnone ⊢
  have hsilent := (settlement_moves (n := 0) (typeEntries { s.next with forward := [] }).2).1.silent hnone
  obtain ⟨ps, hps⟩ := hentries.writes ⟨hready.lastError, hready.ended⟩ hsilent
  obtain ⟨hlexemes, hcreated, hresolves⟩ := hps.settlement rfl hnone
  obtain ⟨taken, htaken, -, hnames⟩ := hps.lexemes
  have hstart : s.lexemes = s.current :: s.next.lexemes := by
    rw [lexemes_next hs.lastError hs.ended (by simp [ht]) (hentries.advances.silent hsilent)]
    rfl
  refine ⟨s.current :: taken, ps, ?_, ?_, ?_, fun p hp => ?_⟩
  · rw [hstart, hlexemes]
    exact congrArg (s.current :: ·) htaken
  · rw [pointees_cons_of_ne (by simp [ht]), hnames]
  · rw [← hnext.types]
    exact hcreated
  · exact { hresolves p hp with first := hnext.scope ▸ (hresolves p hp).first }

end Parser

end MiniPascal
