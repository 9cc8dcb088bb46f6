import MiniPascal.Proofs.Grammar.Parsing

/-!
# Expressions are phrases

The tokens that are taken for an expression without a report can be derived from the grammar.
-/

namespace MiniPascal.Parser

open State Ebnf

variable {K : List Token → Prop} {t : Token}

/-! ## Parts that take no tokens -/

theorem literal_stays (value : Datum) (type : TypeId) : Stays (literal value type) := .line fun _ => .pure _

theorem convert_stays (target source : TypeId) : Stays (convert target source) := by
  refine .types fun ts => ?_
  split
  · exact (Stays.warnIf _ _).bind fun _ => .pure _
  · exact .report_bind rfl (.pure _)

theorem variableAt_stays (e : Scope.Entry Declaration) (offset : Int64) (type : TypeId) :
    Stays (variableAt e offset type) := .level fun _ => .pure _

theorem pointee_stays (place : Place) : Stays (pointee place) := by
  refine .types fun ts => ?_
  dsimp only
  split
  · exact .line fun _ => .pure _
  · exact .report_bind rfl (.pure _)

theorem passTo_stays (param arg : TypeId) : Stays (passTo param arg) := by
  refine .types fun ts => ?_
  split
  · exact .require rfl <| .pure _
  · exact convert_stays _ _

theorem passed_stays (param : Option Field) (arg : TypeId) : Stays (passed param arg) := by
  unfold passed
  split
  · exact passTo_stays _ _
  · exact .pure _

theorem applied_stays (function : Builtin) (arg : Operand) : Stays (applied function arg) := by
  refine .types fun ts => .line fun line => ?_
  cases function with
  | pred | succ =>
    dsimp only
    split
    · exact .pure _
    · exact .report_bind rfl (.pure _)
  | _ => exact .require rfl <| .pure _

theorem combine_stays (op : Operator) (left right : Operand) : Stays (combine op left right) :=
  .types fun _ => .require (isPointerBase_problem op) <| .line fun _ => .pure _

theorem builtin_mem (function : Builtin) : Token.builtin function ∈ Builtin.all.map .builtin := by
  cases function <;> decide

/-! ## Variables and calls -/

section

variable {expression : Parser Operand} (he : Parses expression (rule .expression))

include he

theorem index_parses (place : Place) : Parses (index expression place) (rule .expression) := by
  intro K
  refine .types fun ts => ?_
  dsimp only
  split
  · refine (he K).bind fun i => ?_
    exact .require rfl <| .line fun _ => .pure fun _ h => h
  · exact .report_bind rfl (he.goes.bind fun _ => .pure _)

omit he in
theorem field_parses (place : Place) : Parses (field place) ident := by
  intro K
  refine (Ensures.identifier K).bind fun name => .types fun ts => ?_
  dsimp only
  split
  · split
    · exact .line fun _ => .pure fun _ h => h
    · exact .report_bind rfl (.pure _)
  · exact .report_bind rfl (.pure _)

theorem designator_parses (v : Variable) : Parses (designator expression v) (rep selection) := by
  refine fun K => .line fun line => loop_parses (fun place K => .token fun t => ?_) _ K
  split
  · refine .shift nofun <| (separated_parses (by decide) (index_parses he) place _).bind fun place => ?_
    refine .expect nofun <| .pure fun s hs => .nth 0 rfl ?_
    simpa only [after_seq] using hs
  · refine .shift nofun <| (field_parses place _).bind fun place => .pure fun s hs => .nth 1 rfl ?_
    rwa [after_seq]
  · exact .shift nofun <| (pointee_stays place _).bind fun place => .pure fun s hs => .nth 2 rfl hs
  · exact .pure fun s hs => hs.2

theorem argument_parses (params : List Field) (args : List Argument) :
    Parses (argument expression params args) (rule .expression) := by
  intro K
  refine (he K).bind fun a => (passed_stays _ _ _).bind fun conversion => ?_
  exact .line fun _ => .pure fun _ h => h

theorem arguments_parses (params : List Field) : Parses (arguments expression params) (opt (rule .args)) := by
  refine fun K => .ifToken ?_ ?_
  · refine .shift nofun <| (separated_parses (by decide) (argument_parses he params) [] _).bind fun args => ?_
    refine .expect nofun <| .pure fun s hs => .present (.rule ?_)
    simpa only [production, listed, after_seq] using hs
  · exact .pure fun _ => .absent

theorem callOf_parses (e : Scope.Entry Declaration) (r : Routine) :
    Parses (callOf expression e r) (opt (rule .args)) := by
  intro K
  exact (arguments_parses he r.params K).bind fun args => .require rfl <|
    .level fun _ => .line fun _ => .pure fun _ h => h

theorem namedFactor_parses : ParsesAt .identifier (namedFactor expression) (rule .factor) := by
  refine fun K => (Ensures.resolve K).bind fun e => ?_
  split
  · refine (literal_stays _ _ _).post fun _ s hs => .rule (.nth 4 rfl ?_)
    exact after_seq ▸ .absent hs
  · refine (variableAt_stays _ _ _ _).bind fun v => (designator_parses he v _).bind fun place => ?_
    refine .types fun ts => .line fun _ => .pure fun s hs => ?_
    refine .rule (.nth 3 rfl (.rule ?_))
    simpa only [production, after_seq] using hs
  · refine (callOf_parses he _ _ _).bind fun _ => .pure fun s hs => .rule (.nth 4 rfl ?_)
    rwa [after_seq]
  · exact .report_bind rfl (.pure _)

/-- The tokens of a factor; `inner` is the analysis of the operand of a negation. -/
theorem factor_parses {inner : Parser Operand} (hi : Parses inner (rule .factor)) :
    Parses (factor expression inner) (rule .factor) := by
  refine fun K => .current fun s₀ => ?_
  dsimp only
  generalize s₀.current.token = t
  split
  · refine (literal_stays _ _ _).bind fun _ => ?_
    exact .advance [.integerLiteral, .realLiteral] (by decide) <| .pure fun s hs => .rule (.nth 0 rfl hs)
  · refine (literal_stays _ _ _).bind fun _ => ?_
    exact .advance [.integerLiteral, .realLiteral] (by decide) <| .pure fun s hs => .rule (.nth 0 rfl hs)
  · refine .require rfl <| (literal_stays _ _ _).bind fun _ => ?_
    exact .shift nofun <| .pure fun s hs => .rule (.nth 1 rfl hs)
  · exact (literal_stays _ _ _).bind fun _ => .shift nofun <| .pure fun s hs => .rule (.nth 2 rfl hs)
  · refine .shift nofun <| (he _).bind fun _ => ?_
    refine .expect nofun <| .pure fun s hs => .rule (.nth 6 rfl ?_)
    simpa only [after_seq] using hs
  · refine .shift nofun <| (hi _).bind fun _ => .types fun _ => ?_
    refine .require rfl <| .line fun _ => .pure fun s hs => .rule (.nth 7 rfl ?_)
    rwa [after_seq]
  · exact namedFactor_parses he K
  · next function =>
    refine .advance _ ⟨by simp, builtin_mem function⟩ <| .expect nofun <| (he _).bind fun _ => ?_
    refine .expect nofun <| (applied_stays function _ _).post fun _ s hs => .rule (.nth 5 rfl ?_)
    simpa only [after_seq] using hs
  · exact .report_bind rfl (.pure _)

end

/-! ## Operators -/

theorem joined_parses {operator? : Token → Option Operator} {ts : List Token}
    (hts : ∀ t op, operator? t = some op → t ∈ ts ∧ t ≠ .endOfFile) {operand : Parser Operand} {e : Ebnf}
    (hoperand : Parses operand e) (first : Operand) :
    Parses (joined operator? operand first) (rep (oneOf ts ++ e)) := by
  refine loop_parses (fun left K => .token fun t => ?_) first
  split
  · next op hop =>
    obtain ⟨hmem, hne⟩ := hts t op hop
    refine .advance _ ⟨hne, hmem⟩ <| (hoperand _).bind fun right => ?_
    refine (combine_stays _ _ _ _).bind fun _ => .pure fun s hs => ?_
    rwa [if_pos rfl, after_seq]
  · exact .pure fun s hs => hs.2

theorem multiplicative_mem {op : Operator} (h : Operator.multiplicative? t = some op) :
    t ∈ [Token.star, .slash, .kwDiv, .kwMod, .kwAnd, .kwShl, .kwShr] ∧ t ≠ .endOfFile := by
  cases t <;> simp [Operator.multiplicative?] at h ⊢

theorem additive_mem {op : Operator} (h : Operator.additive? t = some op) :
    t ∈ [Token.plus, .minus, .kwOr, .kwXor] ∧ t ≠ .endOfFile := by
  cases t <;> simp [Operator.additive?] at h ⊢

theorem relation_mem {r : Relation} (h : Relation.ofToken? t = some r) :
    t ∈ [Token.equal, .notEqual, .less, .lessEqual, .greater, .greaterEqual] ∧ t ≠ .endOfFile := by
  cases t <;> simp [Relation.ofToken?] at h ⊢

theorem sign_mem {negative : Bool} (h : sign? t = some negative) : t ∈ [Token.plus, .minus] ∧ t ≠ .endOfFile := by
  cases t <;> simp [sign?] at h ⊢

section

variable {factor : Parser Operand} (hf : Parses factor (rule .factor))

include hf

theorem term_parses : Parses (term factor) (rule .term) := by
  intro K
  refine (hf K).bind fun first => ?_
  refine (joined_parses (fun _ _ => multiplicative_mem) hf first _).post fun _ s hs => .rule ?_
  simpa only [production, after_seq] using hs

theorem signedTerm_parses : Parses (signedTerm factor) (opt (oneOf [.plus, .minus]) ++ rule .term) := by
  refine fun K => .token fun t => ?_
  split
  · next negative hsign =>
    obtain ⟨hmem, hne⟩ := sign_mem hsign
    refine .advance _ ⟨hne, hmem⟩ <| (term_parses hf _).bind fun operand => .types fun _ => ?_
    refine .require rfl <| .line fun _ => .pure fun s hs => ?_
    rw [after_seq]
    exact hs.mono fun _ => .present
  · refine (term_parses hf _).post fun _ s hs => ?_
    rw [after_seq]
    exact hs.mono fun _ h => .absent h.2

theorem simpleExpression_parses : Parses (simpleExpression factor) (rule .simpleExpr) := by
  intro K
  refine (signedTerm_parses hf K).bind fun first => ?_
  refine (joined_parses (fun _ _ => additive_mem) (term_parses hf) first _).post fun _ s hs => .rule ?_
  simpa only [production, after_seq] using hs

theorem expressionOf_parses : Parses (expressionOf factor) (rule .expression) := by
  refine fun K => (simpleExpression_parses hf K).bind fun left => .token fun t => ?_
  split
  · refine .pure fun s hs => .rule ?_
    simp only [production, after_seq]
    exact .absent hs.2
  · next relation hrelation =>
    obtain ⟨hmem, hne⟩ := relation_mem hrelation
    refine .advance _ ⟨hne, hmem⟩ <| (simpleExpression_parses hf _).bind fun right => ?_
    refine .types fun _ => .require rfl <| .require rfl <| .line fun _ => .pure fun s hs => .rule ?_
    simp only [production, after_seq]
    exact .present (by rwa [after_seq])

end

theorem factorWithin_parses (n : Nat) : Parses (factorWithin n) (rule .factor) := by
  induction n with
  | zero => exact fun K => .exhaust _
  | succ n ih => exact factor_parses (expressionOf_parses ih) ih

theorem expression_parses : Parses expression (rule .expression) :=
  fun K => .of_fuel fun k => expressionOf_parses (factorWithin_parses k) K

end MiniPascal.Parser
