import MiniPascal.Proofs.Grammar.Types

/-!
# Declarations and blocks are phrases

The tokens that are taken for declarations, blocks and programs without a report can be derived from the grammar.
-/

namespace MiniPascal.Parser

open State Ebnf

variable {σ : Type} {K : List Token → Prop}

/-! ## Sections of constants, types and variables -/

theorem entries_parses {entry : σ → Parser σ} {e : Ebnf} (he : ∀ x, Parses (entry x) e) (x : σ) :
    Parses (entries entry x) (rep e) := by
  refine loop_parses (fun y K => .token fun t => ?_) x
  split
  · exact ((he y _).pre fun s hs => hs.2).bind fun _ => .pure fun s hs => hs
  · exact .pure fun s hs => hs.2

theorem constantSection_parses : ParsesAt .kwConst constantSection (rule .constDecl) := by
  refine fun K => .shift nofun <|
    (entries_parses (e := ident ++ tok .equal ++ rule .constant ++ tok .semicolon) (fun _ K => ?_) () _).post ?_
  · simp only [after_seq]
    refine (Ensures.identifier K).bind fun name => .expect nofun <|
      (constant_parses _).bind fun value => (declare_stays _ _ _).bind fun _ => ?_
    exact Ensures.expected (by decide) _
  · intro _ s hs
    refine .rule ?_
    rwa [production, after_seq]

theorem nameType_stays (type : TypeId) (name : Text) : Stays (nameType type name) := by
  refine fun K => ⟨.of_moves (nameType_moves type name), fun s hs hK _ => ?_⟩
  unfold nameType
  rw [modify_run]
  split
  · refine ⟨⟨hs.lastError, hs.ended, hs.types.trans (s.types.grows_setName type name), ?_, hs.forward⟩, hK⟩
    intro t ht
    rw [TypeTable.base_setName]
    exact hs.hostless t ht
  · exact ⟨hs, hK⟩

theorem settleAll_goes (pending : List Forward) : Goes (settleAll pending) := fun s =>
  ⟨settleAll_advances pending s, settleAll_run pending s ▸ grows_rebased _ _ _⟩

theorem settleAll_stays {pending : List Forward} (hp : ∀ f ∈ pending, ¬f.type.Basic) : Stays (settleAll pending) := by
  refine fun K => ⟨settleAll_goes pending, fun s hs hK _ => ?_⟩
  rw [settleAll_run]
  refine ⟨⟨fun h => hs.lastError (List.append_eq_nil_iff.mp h).1, hs.ended, hs.types.trans (grows_rebased _ _ _), ?_,
    hs.forward⟩, hK⟩
  intro t ht
  rw [get_rebased_of_ne _ _ _ (by rintro f hf rfl; exact hp f hf ht)]
  exact hs.hostless t ht

theorem forget_stays : Stays forget := by
  refine fun K => ⟨.of_moves forget_moves, fun s hs hK _ => ⟨⟨hs.lastError, hs.ended, hs.types, hs.hostless, ?_⟩, hK⟩⟩
  intro f hf
  cases hf

theorem typeSection_parses : ParsesAt .kwType typeSection (rule .typeDecl) := by
  refine fun K => .shift nofun <| (forget_stays _).bind fun _ => ?_
  refine (entries_parses (e := ident ++ tok .equal ++ rule .type ++ tok .semicolon) (fun _ K => ?_) () _).bind fun _ => ?_
  · simp only [after_seq]
    refine (Ensures.identifier K).bind fun name => .expect nofun <|
      (typeSpec_parses _ _).bind fun type => (nameType_stays _ _ _).bind fun _ => ?_
    exact (declare_stays _ _ _).bind fun _ => Ensures.expected (by decide) _
  · have hpending {K : List Token → Prop} : Ensures (fun s => K s.tokens) (get : Parser State)
        fun a s => (∀ f ∈ a.forward, ¬f.type.Basic) ∧ K s.tokens :=
      .of_reads Reads.get fun s hs hK _ => ⟨hs.forward, hK⟩
    refine hpending.bind fun a => .given ((settleAll_goes _).bind fun _ => .of_moves forget_moves) fun ha => ?_
    refine (settleAll_stays ha _).bind fun _ => (forget_stays _).post fun _ s hs => .rule ?_
    rwa [production, after_seq]

theorem declareVariables_stays (fields : List Field) : Stays (declareVariables fields) := by
  induction fields with
  | nil => exact .pure _
  | cons f rest ih => exact (declare_stays _ _).bind fun _ => ih

theorem variableGroup_parses (d : Declared) : Parses (variableGroup d) (group ++ tok .semicolon) := by
  intro K
  refine (identifiers_parses K).bind fun names => .expect nofun <|
    (typeSpec_parses _ _).bind fun type => .types fun ts => ?_
  refine (declareVariables_stays _ _).bind fun _ => .expect nofun <| .pure fun s hs => ?_
  simpa only [group, after_seq] using hs

theorem variableSection_parses (d : Declared) : ParsesAt .kwVar (variableSection d) (rule .varDecl) := by
  refine fun K => .shift nofun <| (entries_parses variableGroup_parses d _).post fun _ s hs => ?_
  refine .rule ?_
  rwa [production, after_seq]

/-! ## Subprograms -/

theorem declareParameters_stays (type : TypeId) (names : List Text) : Stays (declareParameters type names) := by
  induction names with
  | nil => exact .pure _
  | cons name rest ih => exact .level fun _ => (declareAt_stays _ _ _).bind fun _ => ih

theorem parameters_parses : Parses parameters (opt (rule .params)) := by
  refine fun K => .ifToken ?_ ?_
  · refine .shift nofun <|
      (separated_parses (e := paramGroup) (by decide) (fun params K => ?_) [] _).bind fun params => ?_
    · refine (identifiers_parses K).bind fun names => .expect nofun <|
        (typeIdentifier_parses _).bind fun type => (declareParameters_stays _ _ _).bind fun _ => .pure fun s hs => ?_
      simpa only [paramGroup, after_seq] using hs
    · refine .expect nofun <| .pure fun s hs => .present (.rule ?_)
      simpa only [production, after_seq] using hs
  · exact .pure fun _ => .absent

theorem placeParameters_stays (params : List Field) : Stays (placeParameters params) := by
  induction params with
  | nil => exact .pure _
  | cons f rest ih =>
    refine Stays.bind (.modify ?_ ?_ ?_ ?_ ?_ ?_) fun _ => ih
    all_goals exact fun _ => rfl

theorem freshRoutine_stays : Stays freshRoutine := fun _ => {
  goes := .of_moves freshRoutine_moves
  holds := fun _ hs hK _ => ⟨⟨hs.lastError, hs.ended, hs.types, hs.hostless, hs.forward⟩, hK⟩ }

theorem complete_stays (declared : Bool) (name : Text) (d : Declaration) : Stays (complete declared name d) := by
  unfold complete
  split
  · refine .modify ?_ ?_ ?_ ?_ ?_ ?_
    all_goals exact fun _ => rfl
  · exact .pure _

/-- What is left after the type of a result, which only functions have. -/
def AfterResult (K : List Token → Prop) (function : Bool) : List Token → Prop :=
  if function then (tok .colon ++ ident).After K else K

theorem resultOf_ensures (function : Bool) : Ensures (fun s => K s.tokens) (resultOf function)
    fun _ s => AfterResult K function s.tokens := by
  cases function with
  | false => exact .pure fun _ h => h
  | true =>
    refine Ensures.bind (G := fun _ s => AfterResult K true s.tokens) ?_ fun type => .pure fun _ h => h
    refine .expect nofun <| (typeIdentifier_parses _).bind fun type => ?_
    refine .types fun ts => .require rfl <| .pure fun s hs => ?_
    rwa [AfterResult, if_pos rfl, after_seq]

theorem heading_ensures (function : Bool) : Ensures (fun s => K s.tokens) (heading function)
    fun _ s => (tok .semicolon).After (AfterResult ((opt (rule .params)).After (ident.After K)) function) s.tokens := by
  refine (Ensures.identifier K).bind fun name => (freshRoutine_stays _).bind fun id => ?_
  refine .level fun _ => (declareAt_stays _ _ _ _).bind fun declared => ?_
  refine (parameters_parses _).bind fun params => .types fun ts => ?_
  refine (placeParameters_stays _ _).bind fun _ => (resultOf_ensures function).bind fun result => ?_
  exact (complete_stays _ _ _ _).bind fun _ => .expect nofun <| .pure fun _ h => h

/-! ## Blocks -/

/-- The word before a heading. -/
def keyword (function : Bool) : Token := if function then .kwFunction else .kwProcedure

section

variable {block : Routine → Parser Blocks} (hb : ∀ routine, Parses (block routine) (rule .block))

include hb

theorem subprogram_parses (function : Bool) :
    ParsesAt (keyword function) (subprogram block function) (rule .subDecl) := by
  have hword : keyword function ≠ .endOfFile := by cases function <;> decide
  refine fun K => .shift hword <| (heading_ensures function).bind fun routine => ?_
  refine (hb routine _).bind fun blocks => .expect nofun <| .pure fun s hs => .rule ?_
  simp only [production, after_seq]
  refine hs.mono fun _ => .mono fun _ h => ?_
  cases function with
  | false =>
    refine .nth 0 rfl ?_
    simp only [after_seq]
    exact h
  | true =>
    refine .nth 1 rfl ?_
    simp only [AfterResult, if_true, after_seq] at h ⊢
    exact h

theorem declaration_ensures (d : Declared) : Ensures (fun s => K s.tokens) (declaration block d) fun r s =>
      if r.1 then (choice [rule .constDecl, rule .typeDecl, rule .varDecl, rule .subDecl]).After K s.tokens
      else K s.tokens := by
  refine .token fun t => ?_
  split
  · exact (constantSection_parses K).bind fun _ => .pure fun s hs => .nth 0 rfl hs
  · exact (typeSection_parses K).bind fun _ => .pure fun s hs => .nth 1 rfl hs
  · exact (variableSection_parses d K).bind fun _ => .pure fun s hs => .nth 2 rfl hs
  · exact (subprogram_parses hb false K).bind fun _ => .pure fun s hs => .nth 3 rfl hs
  · exact (subprogram_parses hb true K).bind fun _ => .pure fun s hs => .nth 3 rfl hs
  · exact .pure fun s hs => hs.2

theorem blockOf_parses (routine : Routine) : Parses (blockOf block routine) (rule .block) := by
  intro K
  have hopen (id : RoutineId) : Stays (openBlock id) := by
    refine .modify ?_ ?_ ?_ ?_ ?_ ?_
    all_goals exact fun _ => rfl
  have hclose : Stays closeBlock := by
    refine .modify ?_ ?_ ?_ ?_ ?_ ?_
    all_goals exact fun _ => rfl
  refine (hopen _ _).bind fun _ => (loop_parses (fun d K => declaration_ensures hb d) {} _).bind fun d => .line fun _ => ?_
  refine (body_parses _).bind fun body => .line fun _ => (hclose _).bind fun _ => .pure fun s hs => ?_
  refine .rule ?_
  rwa [production, after_seq]

end

theorem blockWithin_parses (n : Nat) (routine : Routine) : Parses (blockWithin n routine) (rule .block) := by
  induction n generalizing routine with
  | zero => exact fun K => .exhaust _
  | succ n ih => exact blockOf_parses ih routine

theorem block_parses (routine : Routine) : Parses (block routine) (rule .block) :=
  fun K => .of_fuel fun k => blockWithin_parses k routine K

/-! ## Programs -/

theorem programParameters_parses : Parses programParameters (opt (listed ident)) := by
  refine fun K => .ifToken ?_ ?_
  · refine .shift nofun <| (identifiers_parses _).bind fun _ => ?_
    refine (Ensures.expected (by decide) _).post fun _ s hs => .present ?_
    simp only [listed, after_seq]
    exact hs.mono fun _ => After.of_rule
  · exact .pure fun _ => .absent

theorem ending_ensures : Ensures (fun s => K s.tokens) ending
    fun _ s => Sees .endOfFile ((tok .period).After K) s.tokens := by
  refine .ifToken ?_ ?_
  · refine .shift nofun <| .token fun t => ?_
    refine (Ensures.required _ rfl).post fun _ s hs => ?_
    obtain ⟨hend, hhead, h⟩ := hs
    exact ⟨of_decide_eq_true hend ▸ hhead, h⟩
  · exact .report rfl

theorem program_ensures : Ensures (fun s => K s.tokens) program
    fun _ s => Sees .endOfFile ((rule .program).After K) s.tokens := by
  refine .expect nofun <| (Ensures.identifier _).bind fun name => ?_
  refine (programParameters_parses _).bind fun _ => .expect nofun <|
    (freshRoutine_stays _).bind fun id => (declare_stays _ _ _).bind fun _ => .line fun _ => ?_
  refine (block_parses _ _).bind fun blocks => ending_ensures.bind fun _ => .pure fun s hs => ⟨hs.1, .rule ?_⟩
  simpa only [production, after_seq] using hs.2

end MiniPascal.Parser
