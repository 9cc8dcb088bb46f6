import MiniPascal.Proofs.Parser.Progress

/-!
# Expressions and statements only read

The productions of expressions and statements move forward and keep the declarations. Where one contains
another of its own kind a lexeme stands before the inner one, so a bound on the nesting that covers the
lexemes left is never met.
-/

namespace MiniPascal.Parser

open State

variable {α β : Type} {n : Nat}

@[grind ←] theorem literal_reads (value : Datum) (type : TypeId) : Reads n (literal value type) := by grind [literal]

@[grind ←] theorem convert_reads (target source : TypeId) : Reads n (convert target source) := by grind [convert]

@[grind ←] theorem variableAt_reads (e : Scope.Entry Declaration) (offset : Int64) (type : TypeId) :
    Reads n (variableAt e offset type) := by grind [variableAt]

@[grind ←] theorem field_reads (place : Place) : Reads n (field place) := by grind [field]

@[grind ←] theorem pointee_reads (place : Place) : Reads n (pointee place) := by grind [pointee]

@[grind ←] theorem passTo_reads (param arg : TypeId) : Reads n (passTo param arg) := by grind [passTo]

@[grind ←] theorem passed_reads (param : Option Field) (arg : TypeId) : Reads n (passed param arg) := by
  cases param <;> grind [passed]

section

variable {expression : Parser Operand} (he : Reads n expression)
include he

@[grind ←] theorem index_reads (place : Place) : Reads n (index expression place) := by grind [index]

@[grind ←] theorem selector_reads (place : Place) : Reads n (selector expression place) := by grind [selector]

theorem selector_takes : StepTakes n (selector expression) := by
  intro place s hended _
  have he := he.mono (Nat.zero_le n)
  refine MoreTakes.token_bind ?_
  split
  · next ht => exact (Takes.bind (advance_takes (by simp [ht])) fun _ => by grind).more hended
  · next ht => exact (Takes.bind (advance_takes (by simp [ht])) fun _ => by grind).more hended
  · next ht => exact (Takes.bind (advance_takes (by simp [ht])) fun _ => by grind).more hended
  · exact .stop _ s

@[grind ←] theorem designator_reads (v : Variable) : Reads n (designator expression v) :=
  line_reads.bind fun _ => loop_reads (selector_reads he) (selector_takes he) _

@[grind ←] theorem argument_reads (params : List Field) (args : List Argument) :
    Reads n (argument expression params args) := by grind [argument]

@[grind ←] theorem arguments_reads (params : List Field) : Reads n (arguments expression params) := by grind [arguments]

@[grind ←] theorem callOf_reads (e : Scope.Entry Declaration) (r : Routine) : Reads n (callOf expression e r) := by grind [callOf]

theorem namedFactor_reads {s : State} (ht : s.current.token ≠ .endOfFile) :
    ReadsAt (n + 1) (namedFactor expression) s :=
  ReadsAt.bind_shorter (resolve_reads s) (resolve_takes ht) fun e => by grind

end

@[grind ←] theorem applied_reads (function : Builtin) (arg : Operand) : Reads n (applied function arg) := by grind [applied]

theorem factor_reads {expression inner : Parser Operand} (he : Reads n expression) (hi : Reads n inner) :
    Reads (n + 1) (factor expression inner) := by
  intro s
  have after {f : Unit → Parser Operand} (ht : s.current.token ≠ .endOfFile) (hf : ∀ a, Reads n (f a)) :
      ReadsAt (n + 1) (advance >>= f) s :=
    ReadsAt.bind_shorter (advance_reads s) (advance_takes ht) hf
  have whole {p : Parser Operand} (h : Reads (n + 1) p) : ReadsAt (n + 1) p s := h s
  refine ReadsAt.get_bind ?_
  dsimp only
  split
  · exact whole (by grind)
  · exact whole (by grind)
  · exact whole (by grind)
  · exact whole (by grind)
  · next ht => exact after (by simp [ht]) (by grind)
  · next ht => exact after (by simp [ht]) (by grind)
  · next ht => exact namedFactor_reads he (by simp [ht])
  · next ht => exact after (by simp [ht]) (by grind)
  · exact whole (by grind)

theorem isPointerBase_problem (op : Operator) : op.problem.isPointerBase = false := by cases op <;> rfl

@[grind ←] theorem combine_reads (op : Operator) (left right : Operand) : Reads n (combine op left right) :=
  types_reads.bind fun _ => (require_reads _ (isPointerBase_problem op)).bind fun _ => by grind

def joinedStep (operator? : Token → Option Operator) (operand : Parser Operand) (left : Operand) :
    Parser (Bool × Operand) := do
  match operator? (← token) with
  | some op =>
    advance
    let right ← operand
    return (true, ← combine op left right)
  | none => return (false, left)

theorem joined_eq (operator? : Token → Option Operator) (operand : Parser Operand) (first : Operand) :
    joined operator? operand first = loop (joinedStep operator? operand) first := rfl

section

variable {operator? : Token → Option Operator} {operand : Parser Operand} (ho : Reads n operand)
include ho

@[grind ←] theorem joinedStep_reads (left : Operand) : Reads n (joinedStep operator? operand left) := by grind [joinedStep]

theorem joinedStep_takes (hop : operator? .endOfFile = none) : StepTakes n (joinedStep operator? operand) := by
  intro left s hended _
  refine MoreTakes.token_bind ?_
  split
  · next hsome =>
    have ht : s.current.token ≠ .endOfFile := by
      intro heq
      simp [heq, hop] at hsome
    refine (Takes.bind (advance_takes ht) fun _ => ?_).more hended
    exact (ho.mono (Nat.zero_le n)).bind fun _ => by grind
  · exact .stop _ s

@[grind ←] theorem joined_reads (hop : operator? .endOfFile = none) (first : Operand) :
    Reads n (joined operator? operand first) := by
  rw [joined_eq]
  exact loop_reads (joinedStep_reads ho) (joinedStep_takes ho hop) first

end

section

variable {factor : Parser Operand} (hf : Reads n factor)
include hf

@[grind ←] theorem term_reads : Reads n (term factor) := hf.bind fun first => joined_reads hf rfl first

@[grind ←] theorem signedTerm_reads : Reads n (signedTerm factor) := by
  refine token_reads.bind fun t => ?_
  split <;> grind

@[grind ←] theorem simpleExpression_reads : Reads n (simpleExpression factor) :=
  (signedTerm_reads hf).bind fun first => joined_reads (term_reads hf) rfl first

@[grind ←] theorem expressionOf_reads : Reads n (expressionOf factor) := by
  refine (simpleExpression_reads hf).bind fun left => token_reads.bind fun t => ?_
  split <;> grind

end

theorem factorWithin_reads (n : Nat) : Reads n (factorWithin n) := by
  induction n with
  | zero =>
    exact fun s => ⟨exhaust_advances s, ⟨rfl, rfl, rfl, rfl, rfl, rfl, rfl⟩⟩
  | succ n ih => exact factor_reads (expressionOf_reads ih) ih

/-- A part that is bounded by the lexemes left at its start moves forward for every bound. -/
theorem reads_of_fuel {α : Type} {p : Nat → Parser α} (h : ∀ k, Reads k (p k)) : Reads n fun s => p s.fuel s := by
  intro s
  have hs := h s.fuel s
  exact ⟨{ hs.1 with bounded := fun he _ => hs.1.bounded he (Nat.le_of_eq (length_lexemes s)) }, hs.2⟩

@[grind ←] theorem expression_reads : Reads n expression :=
  reads_of_fuel fun k => expressionOf_reads (factorWithin_reads k)

/-! ## Statements -/

/-- A part of the analysis begins with another one, and a property holds of what follows. -/
def BeginsWith (P : Parser β → Prop) (first : Parser α) (p : Parser β) : Prop :=
  ∃ rest : α → Parser β, p = first >>= rest ∧ ∀ a, P (rest a)

/-- A part only reads, and it takes a lexeme where the one in view starts a statement. -/
def StartsAt (n : Nat) (p : Parser α) (s : State) : Prop :=
  ReadsAt n p s ∧ (startsStatement s.current.token = true → Takes p s)

theorem StartsAt.token_bind {f : Token → Parser α} {s : State} (h : StartsAt n (f s.current.token) s) :
    StartsAt n (token >>= f) s := h

namespace BeginsWith

variable {first : Parser α} {p : Parser β} {s : State} (h : BeginsWith (Reads n) first p)
include h

theorem reads (hfirst : Reads n first) : Reads n p := by
  obtain ⟨rest, rfl, hrest⟩ := h
  exact hfirst.bind hrest

/-- What begins with a part that takes a lexeme takes one too. -/
theorem startsAt (hfirst : Reads (n + 1) first) (ht : Takes first s) : StartsAt (n + 1) p s := by
  obtain ⟨rest, rfl, hrest⟩ := h
  exact ⟨(hfirst s).bind_shorter ht hrest, fun _ => ht.bind fun a => (hrest a).mono (Nat.zero_le n)⟩

end BeginsWith

@[grind ←] theorem becomes_reads : Reads n becomes := by grind [becomes]

@[grind ←] theorem assignment_reads (place : Place) (value : Operand) : Reads n (assignment place value) := by grind [assignment]

@[grind ←] theorem resultStatement_reads (e : Scope.Entry Declaration) (r : Routine) :
    Reads n (resultStatement e r) := by grind [resultStatement]

theorem namedStatement_reads : BeginsWith (Reads n) resolve namedStatement := ⟨_, rfl, by grind⟩

@[grind ←] theorem condition_reads : Reads n condition := by grind [condition]

@[grind ←] theorem formatArguments_reads (k : Nat) : Reads n (formatArguments k) := by
  induction k <;> grind [formatArguments]

@[grind ←] theorem writeArgument_reads (written : List Stmt) : Reads n (writeArgument written) := by grind [writeArgument]

@[grind ←] theorem writeArguments_reads : Reads n writeArguments := by grind [writeArguments]

theorem writeStatement_reads (newline : Bool) : BeginsWith (Reads n) advance (writeStatement newline) :=
  ⟨_, rfl, by grind⟩

@[grind ←] theorem variableOr_reads (e : Scope.Entry Declaration) : Reads n (variableOr .notAVariable e) := by
  grind [variableOr]

@[grind ←] theorem heapOperation_reads (allocates : Bool) (place : Place) : Reads n (heapOperation allocates place) := by
  grind [heapOperation]

theorem heapStatement_reads (allocates : Bool) : BeginsWith (Reads n) advance (heapStatement allocates) :=
  ⟨_, rfl, by grind⟩

@[grind ←] theorem controlVariable_reads (e : Scope.Entry Declaration) : Reads n (controlVariable e) := by grind [controlVariable]

@[grind ←] theorem direction_reads : Reads n direction := by grind [direction]

/-- A statement at a token that starts one takes a lexeme; `n` bounds the lexemes that are left. -/
def StartTakes (n : Nat) (statement : Parser Stmt) : Prop :=
  ∀ s : State, s.lexemes.length ≤ n → startsStatement s.current.token = true → Takes statement s

section

variable {statement : Parser Stmt} (hs : Reads n statement)
include hs

/-- What follows the word `if`. -/
theorem ifStatement_reads : BeginsWith (Reads n) advance (ifStatement statement) := ⟨_, rfl, by grind⟩

theorem whileStatement_reads : BeginsWith (Reads n) advance (whileStatement statement) := ⟨_, rfl, by grind⟩

theorem repeatStatement_reads : BeginsWith (Reads n) advance (repeatStatement statement) := ⟨_, rfl, by grind⟩

/-- What follows the word `for`. -/
theorem forStatement_reads : BeginsWith (Reads n) advance (forStatement statement) := by
  refine ⟨_, rfl, fun _ => token_reads.bind fun t => ?_⟩
  split
  · exact resolve_reads.bind fun e => (controlVariable_reads e).bind fun v => line_reads.bind fun _ =>
      becomes_reads.bind fun _ => expression_reads.bind fun _ => (convert_reads _ _).bind fun _ =>
      line_reads.bind fun _ => direction_reads.bind fun _ => by grind
  · grind

end

@[grind ←] theorem sequenceEnd_reads (body : List Stmt) : Reads n (sequenceEnd body) := by grind [sequenceEnd]

/-- A sequence that goes on has taken a lexeme, unless a statement starts right here. -/
theorem sequenceEnd_takes {body : List Stmt} {s : State} (hended : s.Ended)
    (hstart : startsStatement s.current.token = false) : MoreTakes (sequenceEnd body) s := by
  refine MoreTakes.token_bind ?_
  split
  · next ht => exact (Takes.bind (advance_takes (by simp [ht])) fun _ => .pure _).more hended
  · next ht => exact (Takes.bind (advance_takes (by simp [ht])) fun _ => .pure _).more hended
  · intro hmore
    by_cases ht : s.current.token = .endOfFile
    · rw [if_pos ht] at hmore
      exact nomatch (show false = true from hmore)
    · rw [if_neg ht, hstart]
      have hrest : ReadsAt 0 (report .semicolonOrEndExpected) s := report_reads rfl s
      refine Takes.bind_right hrest (Takes.bind ?_ fun _ => .pure _) hended
      refine advance_takes ?_
      show (s.report _).current.token ≠ _
      rwa [report_current]

section

variable {statement : Parser Stmt} (hs : Reads n statement)
include hs

@[grind ←] theorem sequenceStep_reads (body : List Stmt) : Reads n (sequenceStep statement body) := by grind [sequenceStep]

theorem sequenceStep_takes (ht : StartTakes n statement) : StepTakes n (sequenceStep statement) := by
  intro body s hended hn
  have hadv := (hs s).1
  have hended' : (statement s).2.Ended := hended.of_suffix hadv.lexemes
  have hmono := (sequenceEnd_reads (n := 0) (body ++ [(statement s).1]) (statement s).2).1.lexemes.length_le
  intro hmore
  rcases Nat.lt_or_ge (statement s).2.lexemes.length s.lexemes.length with hlt | hge
  · exact Nat.lt_of_le_of_lt hmono hlt
  · -- The statement took no lexeme, so that the one in view does not start a statement.
    have heq : (statement s).2.lexemes = s.lexemes := hadv.lexemes.eq_of_length_le hge
    have hcurrent : (statement s).2.current = s.current := (List.cons.inj heq).1
    have hstart : startsStatement (statement s).2.current.token = false := by
      rw [hcurrent, Bool.eq_false_iff]
      intro hstart
      exact absurd (ht s hn hstart hended) (by omega)
    have := sequenceEnd_takes hended' hstart hmore
    rw [heq] at this
    exact this

theorem compound_reads (ht : StartTakes n statement) : BeginsWith (Reads n) (expect .kwBegin) (compound statement) :=
  ⟨_, rfl, fun _ => (loop_reads (sequenceStep_reads hs) (sequenceStep_takes hs ht) []).bind fun _ => .pure _⟩

theorem statementOf_reads (ht : StartTakes n statement) (s : State) : StartsAt (n + 1) (statementOf statement) s := by
  have after {p : Parser Stmt} (htoken : s.current.token ≠ .endOfFile) (h : BeginsWith (Reads n) advance p) :
      StartsAt (n + 1) p s := h.startsAt advance_reads (advance_takes htoken)
  refine StartsAt.token_bind ?_
  split
  · next htoken => exact namedStatement_reads.startsAt resolve_reads (resolve_takes (by simp [htoken]))
  · next htoken => exact (compound_reads hs ht).startsAt (expect_reads _) (expect_takes htoken (by decide))
  · next htoken => exact after (by simp [htoken]) (ifStatement_reads hs)
  · next htoken => exact after (by simp [htoken]) (whileStatement_reads hs)
  · next htoken => exact after (by simp [htoken]) (repeatStatement_reads hs)
  · next htoken => exact after (by simp [htoken]) (forStatement_reads hs)
  · next htoken => exact after (by simp [htoken]) (writeStatement_reads _)
  · next htoken => exact after (by simp [htoken]) (writeStatement_reads _)
  · next htoken => exact after (by simp [htoken]) (heapStatement_reads _)
  · next htoken => exact after (by simp [htoken]) (heapStatement_reads _)
  · -- No other token starts a statement.
    refine ⟨Reads.pure _ s, fun hstart => False.elim ?_⟩
    revert hstart
    unfold startsStatement
    split <;> simp_all

end

/-- A statement within a bound that covers the lexemes left does not meet it, and starts with a lexeme. -/
theorem statementWithin_reads (n : Nat) : Reads n (statementWithin n) ∧ StartTakes n (statementWithin n) := by
  induction n with
  | zero =>
    refine ⟨fun s => ⟨exhaust_advances s, ⟨rfl, rfl, rfl, rfl, rfl, rfl, rfl⟩⟩, ?_⟩
    intro s hn
    simp [State.lexemes] at hn
  | succ n ih =>
    have h := statementOf_reads ih.1 ih.2
    exact ⟨fun s => (h s).1, fun s _ => (h s).2⟩

theorem body_reads : Reads n body :=
  reads_of_fuel fun k =>
    have h := statementWithin_reads k
    (compound_reads h.1 h.2).reads (expect_reads _)

end MiniPascal.Parser
