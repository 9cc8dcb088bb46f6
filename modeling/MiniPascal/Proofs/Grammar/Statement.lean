import MiniPascal.Proofs.Grammar.Expression

/-!
# Statements are phrases

The tokens that are taken for a statement without a report can be derived from the grammar. A report is made
wherever a sequence of statements goes on without a semicolon.
-/

namespace MiniPascal.Parser

open State Ebnf

variable {K : List Token → Prop}

/-! ## Parts that take no tokens -/

theorem assignment_stays (place : Place) (value : Operand) : Stays (assignment place value) := by
  refine .types fun ts => ?_
  split
  · split
    · exact .line fun _ => .pure _
    · exact .report_bind rfl (.pure _)
  · exact (convert_stays _ _).bind fun _ => .line fun _ => .pure _

theorem heapOperation_stays (allocates : Bool) (place : Place) : Stays (heapOperation allocates place) := by
  refine .types fun ts => ?_
  dsimp only
  split
  · split
    · exact .line fun _ => .pure _
    · exact .line fun _ => .pure _
  · exact .report_bind rfl (.pure _)

section

variable (e : Scope.Entry Declaration)

theorem variableOr_stays : Stays (variableOr .notAVariable e) := by
  unfold variableOr
  split
  · exact variableAt_stays _ _ _
  · exact .report_bind rfl (variableAt_stays _ _ _).goes

theorem controlVariable_stays : Stays (controlVariable e) := by
  refine .types fun ts => ?_
  split
  · split
    · exact variableAt_stays _ _ _
    · exact .report_bind rfl (variableAt_stays _ _ _).goes
  · exact .report_bind rfl (variableAt_stays _ _ _).goes

/-! ## Simple statements -/

theorem becomes_parses : Parses becomes (tok .becomes) := by
  refine fun K => .token fun t => ?_
  split
  · exact .report_bind rfl (.of_reads advance_reads)
  · exact (Ensures.expected (by decide) _).pre fun s hs => hs.2

/-- The name of a function starts a statement only if its result is assigned. -/
theorem resultStatement_ensures (r : Routine) :
    Ensures (fun s => ident.After K s.tokens) (resultStatement e r) fun _ s => (rule .statement).After K s.tokens := by
  refine .current fun s₀ => .pre (fun s hs => hs.2) ?_
  split
  · refine (becomes_parses _).bind fun _ => (expression_parses _).bind fun value => ?_
    refine (convert_stays _ _ _).bind fun _ => .line fun _ => .pure fun s hs => ?_
    refine .rule (.present (.nth 0 rfl ?_))
    simp only [after_seq]
    refine hs.mono fun _ => .mono fun _ h => .rule ?_
    simp only [production, after_seq]
    exact .finished h
  · exact .report_bind rfl ((callOf_parses expression_parses e r).goes.bind fun _ => .pure _)

end

theorem namedStatement_parses : ParsesAt .identifier namedStatement (rule .statement) := by
  refine fun K => (Ensures.resolve K).bind fun e => ?_
  split
  · refine (variableAt_stays _ _ _ _).bind fun v => (designator_parses expression_parses v _).bind fun place => ?_
    refine (becomes_parses _).bind fun _ => (expression_parses _).bind fun value => ?_
    refine (assignment_stays _ _ _).post fun _ s hs => .rule (.present (.nth 0 rfl ?_))
    simp only [after_seq]
    refine hs.mono fun _ => .mono fun _ h => .rule ?_
    simpa only [production, after_seq] using h
  · refine (callOf_parses expression_parses _ _ _).bind fun _ => .pure fun s hs => .rule (.present (.nth 1 rfl ?_))
    rwa [after_seq]
  · exact resultStatement_ensures _ _
  · exact .report_bind rfl (.pure _)

theorem condition_parses : Parses condition (rule .expression) := by
  refine fun K => (expression_parses K).bind fun operand => .types fun _ => ?_
  exact .require rfl <| .line fun _ => .pure fun _ h => h

theorem formatArguments_parses {n : Nat} {e : Ebnf}
    (h : ∀ K, Ensures (fun s => (tok .colon ++ rule .expression).After K s.tokens) (formatArguments n)
      fun _ s => e.After K s.tokens) : Parses (formatArguments (n + 1)) (opt e) := by
  refine fun K => .ifToken ?_ ?_
  · refine .shift nofun <| (expression_parses _).bind fun width => ?_
    refine .types fun _ => .require rfl <| ((h K).pre fun s hs => ?_).bind fun _ => .pure fun s hs => .present hs
    rwa [after_seq]
  · exact .pure fun _ => .absent

theorem writeArgument_parses (written : List Stmt) : Parses (writeArgument written) (rule .wArg) := by
  refine fun K => .current fun s₀ => ?_
  split
  · next hstring =>
    simp only [Bool.and_eq_true, decide_eq_true_eq] at hstring
    rw [hstring.1]
    exact .shift nofun <| .pure fun s hs => .rule (.nth 0 rfl hs)
  · refine ((expression_parses K).pre fun s hs => hs.2).bind fun value => .types fun _ => ?_
    refine .require rfl <| ?_
    have hone : Parses (formatArguments 1) (opt (tok .colon ++ rule .expression)) :=
      formatArguments_parses fun K => .pure fun s hs => hs
    have htwo : Parses (formatArguments 2)
        (opt (tok .colon ++ rule .expression ++ opt (tok .colon ++ rule .expression))) := by
      refine formatArguments_parses fun K => (hone _).post fun _ s hs => ?_
      rwa [after_seq]
    refine (htwo _).bind fun format => .line fun _ => .pure fun s hs => .rule (.nth 1 rfl ?_)
    rwa [after_seq]

theorem writeArguments_parses : Parses writeArguments (opt (listed (rule .wArg))) := by
  refine fun K => .ifToken ?_ ?_
  · refine .shift nofun <| (separated_parses (by decide) writeArgument_parses [] _).bind fun written => ?_
    refine .expect nofun <| .pure fun s hs => .present ?_
    simpa only [listed, after_seq] using hs
  · exact .pure fun _ => .absent

theorem writeStatement_parses (newline : Bool) {t : Token} (ht : t ≠ .endOfFile)
    (hmem : t ∈ [Token.kwWrite, .kwWriteln]) : ParsesAt t (writeStatement newline) (rule .statement) := by
  refine fun K => .advance _ ⟨ht, hmem⟩ <| (writeArguments_parses _).bind fun written => ?_
  have hphrase (l : List Token) (h : (opt (listed (rule .wArg))).After ((oneOf [.kwWrite, .kwWriteln]).After K) l) :
      (rule .statement).After K l := by
    refine .rule (.present (.nth 7 rfl ?_))
    rwa [after_seq]
  split
  · exact .line fun _ => .pure fun s hs => hphrase _ hs
  · exact .pure fun s hs => hphrase _ hs

theorem heapStatement_parses (allocates : Bool) {t : Token} (ht : t ≠ .endOfFile) :
    ParsesAt t (heapStatement allocates) (tok t ++ tok .leftParen ++ rule .variable ++ tok .rightParen) := by
  refine fun K => .shift ht <| .expect nofun <| .token fun t' => ?_
  split
  · next heq =>
    subst heq
    refine (Ensures.resolve _).bind fun e => (variableOr_stays _ _).bind fun v => ?_
    refine (designator_parses expression_parses v _).bind fun place => (heapOperation_stays _ _ _).bind fun _ => ?_
    refine .expect nofun <| .pure fun s hs => ?_
    simp only [after_seq]
    refine hs.mono fun _ h => .rule ?_
    simpa only [production, after_seq] using h
  · exact .report_bind rfl (.pure _)

theorem direction_parses : Parses direction (oneOf [.kwTo, .kwDownto]) := by
  refine fun K => .token fun t => ?_
  split
  · exact .advance _ (by decide) <| .pure fun _ h => h
  · exact .advance _ (by decide) <| .pure fun _ h => h
  · exact .report_bind rfl (.of_reads (advance_reads.bind fun _ => .pure _))

/-! ## Statements that contain others -/

section

variable {statement : Parser Stmt} (hs : Parses statement (rule .statement))

include hs

theorem ifStatement_parses : ParsesAt .kwIf (ifStatement statement) (rule .statement) := by
  refine fun K => .shift nofun <| (condition_parses _).bind fun _ => ?_
  refine .expect nofun <| (hs _).bind fun body => .token fun t => ?_
  split
  · next heq =>
    subst heq
    refine .shift nofun <| .line fun _ => ?_
    refine (hs _).bind fun alternative => .pure fun s h => .rule (.present (.nth 3 rfl ?_))
    simp only [after_seq]
    exact .present (by simpa only [after_seq] using h)
  · refine .pure fun s h => .rule (.present (.nth 3 rfl ?_))
    simp only [after_seq]
    exact .absent h.2

theorem whileStatement_parses : ParsesAt .kwWhile (whileStatement statement) (rule .statement) := by
  refine fun K => .shift nofun <| (condition_parses _).bind fun _ => ?_
  refine .expect nofun <| (hs _).bind fun body => .line fun _ => ?_
  refine .pure fun s h => .rule (.present (.nth 4 rfl ?_))
  simpa only [after_seq] using h

theorem repeatStatement_parses : ParsesAt .kwRepeat (repeatStatement statement) (rule .statement) := by
  have hitem (body : List Stmt) :
      Parses (do return body ++ [← statement] : Parser (List Stmt)) (rule .statement) :=
    fun K => (hs K).bind fun _ => .pure fun _ h => h
  refine fun K => .shift nofun <| (separated_parses (by decide) hitem [] _).bind fun body => ?_
  refine .expect nofun <| (condition_parses _).bind fun _ => ?_
  refine .pure fun s h => .rule (.present (.nth 5 rfl ?_))
  simpa only [after_seq] using h

theorem forStatement_parses : ParsesAt .kwFor (forStatement statement) (rule .statement) := by
  refine fun K => .shift nofun <| .token fun t => ?_
  split
  · next heq =>
    subst heq
    refine (Ensures.resolve _).bind fun e => (controlVariable_stays e _).bind fun v => .line fun _ => ?_
    refine (becomes_parses _).bind fun _ => (expression_parses _).bind fun start => ?_
    refine (convert_stays _ _ _).bind fun _ => .line fun _ => (direction_parses _).bind fun downward => ?_
    refine (expression_parses _).bind fun limit => .types fun _ => .require rfl <|
      .line fun _ => .expect nofun <| (hs _).bind fun body => ?_
    refine .line fun _ => .pure fun s h => .rule (.present (.nth 6 rfl ?_))
    simpa only [after_seq] using h
  · exact .report_bind rfl (.pure _)

/-- A sequence goes on after a semicolon and stops at its end. -/
theorem compound_parses : Parses (compound statement) (rule .compound) := by
  refine fun K => .expect nofun <| ?_
  have hstep (body : List Stmt) : Ensures
      (fun s => (rule .statement).Before .semicolon ((tok .kwBegin).After K) s.tokens) (sequenceStep statement body)
      fun r s => if r.1 then (rule .statement).Before .semicolon ((tok .kwBegin).After K) s.tokens
        else (rule .compound).After K s.tokens := by
    refine (hs _).bind fun x => ?_
    refine .pre (fun s h => h.separated) (.token fun t => ?_)
    split
    · exact .shift nofun <| .pure fun s h => .inr h
    · refine .shift nofun <| .pure fun s h => .rule ?_
      simpa only [production, after_seq] using h
    · refine .report_bind rfl ?_
      split
      · exact .pure _
      · exact .of_reads ((advanceIf_reads _).bind fun _ => .pure _)
  exact ((Ensures.loop hstep []).pre fun s h => .inl h).bind fun body => .pure fun s h => h

theorem statementOf_parses : Parses (statementOf statement) (rule .statement) := by
  refine fun K => .token fun t => ?_
  split
  · exact namedStatement_parses K
  · exact ((compound_parses hs K).pre fun s h => h.2).post fun _ s h => .rule (.present (.nth 2 rfl h))
  · exact ifStatement_parses hs K
  · exact whileStatement_parses hs K
  · exact repeatStatement_parses hs K
  · exact forStatement_parses hs K
  · exact writeStatement_parses false (by decide) (by decide) K
  · exact writeStatement_parses true (by decide) (by decide) K
  · exact (heapStatement_parses true (by decide) K).post fun _ s h => .rule (.present (.nth 8 rfl h))
  · exact (heapStatement_parses false (by decide) K).post fun _ s h => .rule (.present (.nth 9 rfl h))
  · exact .pure fun s h => .rule (.absent h.2)

end

theorem statementWithin_parses (n : Nat) : Parses (statementWithin n) (rule .statement) := by
  induction n with
  | zero => exact fun K => .exhaust _
  | succ n ih => exact statementOf_parses ih

theorem body_parses : Parses body (rule .compound) :=
  fun K => .of_fuel fun k => compound_parses (statementWithin_parses k) K

end MiniPascal.Parser
