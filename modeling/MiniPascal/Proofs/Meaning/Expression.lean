import MiniPascal.Proofs.Meaning.Node

/-!
# The analysis of phrases

The lexemes of a phrase are analysed as that phrase: its operand implements it, and the lexemes after it are left. A
term groups from the left, but is read by a repetition. So what is said of a term is that whatever the repetition
does after it, it does after its first factor.
-/

namespace MiniPascal.Parser

open List

open State

/-! ## Steps of the analysis -/

/-- The declarations are those of a state, and some lexemes are left. -/
structure Left (s₀ : State) (ls : List Lexeme) (s : State) : Prop where
  same : SameDeclarations s₀ s
  lexemes : s.lexemes = ls

section

variable {α β σ : Type} {c : State → Prop} {p q : Parser α} {H : α → State → Prop} {s₀ s : State} {l : Lexeme}
  {ls rest : List Lexeme}

theorem Left.current (h : Left s₀ (l :: ls) s) : s.current = l := (List.cons.inj h.lexemes).1

namespace Ensures

/-- Another part of the analysis does the same in the states in question. -/
theorem congr (hgoes : Goes p) (h : ∀ s, c s → p s = q s) (hq : Ensures c q H) : Ensures c p H where
  goes := hgoes
  holds s hs hc hclean := by
    rw [h s hc] at hclean ⊢
    exact hq.holds s hs hc hclean

/-- A part of the analysis that looks at the state first. -/
theorem look {f : State → Parser α} (hgoes : Goes (MonadState.get >>= f)) (h : ∀ s, c s → Ensures c (f s) H) :
    Ensures c (MonadState.get >>= f) H where
  goes := hgoes
  holds s hs hc hclean := (h s hc).holds s hs hc hclean

/-- A part of the analysis that looks at the token first. -/
theorem see {f : Token → Parser α} (hgoes : Goes (Parser.token >>= f)) {t : Token} (hl : l.token = t)
    (h : Ensures (Left s₀ (l :: ls)) (f t) H) : Ensures (Left s₀ (l :: ls)) (Parser.token >>= f) H := by
  refine .congr hgoes (fun s hleft => ?_) h
  show f s.current.token s = _
  rw [hleft.current, hl]

/-- A fact that the state has no part in is kept. -/
theorem also {P : Prop} (hp : Ensures c p H) : Ensures (fun s => P ∧ c s) p fun a s => P ∧ H a s where
  goes := hp.goes
  holds s hs hc hclean := ⟨(hp.holds s hs hc.2 hclean).1, hc.1, (hp.holds s hs hc.2 hclean).2⟩

theorem taken_next {t : Token} (hl : l.token = t) (ht : t ≠ .endOfFile) :
    Ensures (Left s₀ (l :: ls)) Parser.advance fun _ => Left s₀ ls := by
  refine of_reads advance_reads fun s hs hleft hclean => ⟨hleft.same.trans (next_same s), ?_⟩
  rw [← hl, ← hleft.current] at ht
  exact (lexemes_next hs.lastError hs.ended ht hclean.diagnostics).trans (List.cons.inj hleft.lexemes).2

theorem take {t : Token} {f : Unit → Parser α} (hl : l.token = t) (ht : t ≠ .endOfFile)
    (hf : Ensures (Left s₀ ls) (f ()) H) : Ensures (Left s₀ (l :: ls)) (Parser.advance >>= f) H :=
  (taken_next hl ht).bind fun _ => hf

theorem level_eq : Ensures (Left s₀ ls) Parser.level fun n s => n = s₀.level ∧ Left s₀ ls s :=
  of_reads level_reads fun _ _ hleft _ => ⟨hleft.same.level, hleft⟩

theorem types_eq : Ensures (Left s₀ ls) Parser.types fun ts s => ts = s₀.types ∧ Left s₀ ls s :=
  of_reads types_reads fun _ _ hleft _ => ⟨hleft.same.types, hleft⟩

/-- A part of the analysis that looks at the types first. -/
theorem types_bind {f : TypeTable → Parser α} (hgoes : Goes (Parser.types >>= f))
    (h : Ensures (Left s₀ ls) (f s₀.types) H) : Ensures (Left s₀ ls) (Parser.types >>= f) H := by
  refine .congr hgoes (fun s hleft => ?_) h
  show f s.types s = _
  rw [hleft.same.types]

theorem met {t : Token} (hl : l.token = t) (ht : t ≠ .endOfFile) :
    Ensures (Left s₀ (l :: ls)) (Parser.expect t) fun _ => Left s₀ ls := by
  refine .congr (.of_reads (expect_reads t)) (fun s hs => ?_) (taken_next hl ht)
  rw [expect_run, hs.current, if_pos hl]
  rfl

theorem meet {t : Token} {f : Unit → Parser α} (hl : l.token = t) (ht : t ≠ .endOfFile)
    (hf : Ensures (Left s₀ ls) (f ()) H) : Ensures (Left s₀ (l :: ls)) (Parser.expect t >>= f) H :=
  (met hl ht).bind fun _ => hf

/-- A repetition that does not go on. -/
theorem stop {step : σ → Parser (Bool × σ)} (hgoes : ∀ x, Goes (step x)) {x : σ}
    (hstop : ∀ s, c s → step x s = ((false, x), s)) (k : Nat) : Ensures c (repeatFor step k x) fun y s => y = x ∧ c s := by
  refine .repeat_once (G := fun r s => r = (false, x) ∧ c s) (.congr (hgoes x) hstop (.pure fun _ hs => ⟨rfl, hs⟩))
    (fun k y => .given (.loop hgoes k y) nofun) (fun y s hs => ?_) k
  exact ⟨congrArg Prod.snd hs.1, hs.2⟩

end Ensures

end

/-- What follows the first part of an expression. -/
def comparison (factor : Parser Operand) (left : Operand) : Parser Operand := do
  match Relation.ofToken? (← token) with
  | none => return left
  | some relation =>
    advance
    let right ← simpleExpression factor
    let ts ← types
    require (comparable ts left.type right.type) (.cannotCompare (ts.text left.type) (ts.text right.type))
    require (ts.kind left.type ≠ .pointer || isEquality relation) .pointerOrder
    let kinds : OperandKinds := ⟨ts.rootKind left.type, ts.rootKind right.type⟩
    return ⟨.compare relation left.expr right.expr kinds (← line), .boolean⟩

theorem expressionOf_eq (factor : Parser Operand) :
    expressionOf factor = simpleExpression factor >>= comparison factor := rfl

theorem comparison_reads {factor : Parser Operand} {n : Nat} (hf : Reads n factor) (left : Operand) :
    Reads n (comparison factor left) := by
  refine token_reads.bind fun t => ?_
  split
  · exact .pure _
  · exact advance_reads.bind fun _ => (simpleExpression_reads hf).bind fun _ => types_reads.bind fun _ =>
      (require_reads _ rfl).bind fun _ => (require_reads _ rfl).bind fun _ => line_reads.bind fun _ => .pure _

/-- A name of a constant, or of a variable of numbers, truth values or characters. -/
def State.Names (s : State) (x : Text) : Prop :=
  ∃ e, s.scope.lookup x = .ok e ∧
    ((∃ value type, e.value = .constant value type) ∨ ∃ offset, ∃ v : Value, e.value = .variable offset v.type)

/-- An operand that implements a phrase is found in some lexemes, and other ones are left. -/
def Yields (s₀ : State) (ls : List Lexeme) (p : Parser Operand) {r : Rank} (φ : Phrase r) (rest : List Lexeme) : Prop :=
  Ensures (Left s₀ ls) p fun o s => Implements s₀ φ o ∧ Left s₀ rest s

/-- Whatever a repetition does after a phrase, it does after the first part of the phrase. -/
def Starts (s₀ : State) (ls : List Lexeme) (p : Parser Operand) {r : Rank} (φ : Phrase r)
    (operator? : Token → Option Operator) (operand : Parser Operand) (ends : Token → Bool) : Prop :=
  ∀ l rest H, ends l.token = true → (∀ k o, Implements s₀ φ o →
    Ensures (Left s₀ (l :: rest)) (repeatFor (joinedStep operator? operand) k o) H) → Ensures (Left s₀ (ls ++ l :: rest)) p H

/-- The lexemes of a phrase are analysed as the phrase, and those after it are left. -/
def Compiles (s₀ : State) : (r : Rank) → Phrase r → List Lexeme → Prop
  | .factor, φ, ls => ∀ n l rest, Rank.factor.ends l.token = true →
    Yields s₀ (ls ++ l :: rest) (factorWithin n) φ (l :: rest)
  | .term, φ, ls => ∀ n, Starts s₀ ls (term (factorWithin n)) φ Operator.multiplicative? (factorWithin n) Rank.factor.ends
  | .simple, φ, ls => ∀ n, Starts s₀ ls (simpleExpression (factorWithin n)) φ Operator.additive? (term (factorWithin n))
    Rank.term.ends
  | .expression, φ, ls => ∀ n l rest, Rank.expression.ends l.token = true →
    Yields s₀ (ls ++ l :: rest) (expressionOf (factorWithin n)) φ (l :: rest)

namespace Compiles

variable {s₀ : State} (hs : s₀.Viable) {l left right : Lexeme} {ls ks : List Lexeme}

/-! ## Factors -/

theorem factor_reads_zero (n : Nat) : Reads 0 (factorWithin n) := (factorWithin_reads n).mono (Nat.zero_le n)

theorem factor_goes (n : Nat) : Goes (factor (expressionOf (factorWithin n)) (factorWithin n)) :=
  .of_reads (factor_reads_zero (n + 1))

theorem of_succ {φ : Phrase .factor} (h : ∀ n l rest, Rank.factor.ends l.token = true →
    Yields s₀ (ls ++ l :: rest) (Parser.factor (expressionOf (factorWithin n)) (factorWithin n)) φ (l :: rest)) :
    Compiles s₀ .factor φ ls := by
  intro n l rest hends
  cases n with
  | zero => exact .exhaust _
  | succ n => exact h n l rest hends

theorem literal_ensures {c : State → Prop} (value : Datum) (type : TypeId) : Ensures c (literal value type)
    fun o s => (∃ line, o = ⟨.literal value type line, type⟩) ∧ c s :=
  .line fun line => .pure fun _ hs => ⟨⟨line, rfl⟩, hs⟩

theorem integer {n : Int32} (ht : l.token = .integerLiteral) (hv : l.value = some (.integer n.toInt64)) :
    Compiles s₀ .factor (.integer n) [l] := by
  refine of_succ fun k next rest _ => .look (factor_goes k) fun s hleft => ?_
  simp only [hleft.current, ht, hv]
  refine (literal_ensures _ _).bind fun operand => (Ensures.taken_next ht (by decide)).also.bind fun _ => .pure ?_
  rintro s ⟨⟨line, rfl⟩, hleft⟩
  exact ⟨.integer n line, hleft⟩

theorem character {c : UInt8} (ht : l.token = .stringLiteral) (hc : l.text = [c]) :
    Compiles s₀ .factor (.character c) [l] := by
  refine of_succ fun k next rest _ => .look (factor_goes k) fun s hleft => ?_
  simp only [hleft.current, ht, hc]
  refine .require rfl <| (literal_ensures _ _).bind fun operand => ?_
  refine (Ensures.taken_next ht (by decide)).also.bind fun _ => .pure ?_
  rintro s ⟨⟨line, rfl⟩, hleft⟩
  exact ⟨.character c line, hleft⟩

theorem variableAt_ensures (e : Scope.Entry Declaration) (offset : Int64) (type : TypeId) :
    Ensures (Left s₀ ls) (variableAt e offset type)
      fun v s => v = { hops := s₀.level - e.level, offset, type } ∧ Left s₀ ls s :=
  Ensures.level_eq.bind fun _ => .pure fun _ hs => ⟨by rw [hs.1], hs.2⟩

theorem designator_ensures {expression : Parser Operand} (he : Reads 0 expression) (v : Variable)
    (hends : Rank.factor.ends l.token = true) : Ensures (Left s₀ (l :: ls)) (designator expression v)
      fun place s => (∃ line, place = ⟨.variable v line, v.type⟩) ∧ Left s₀ (l :: ls) s := by
  refine .line fun line => ?_
  refine .of_fuel (p := fun k => repeatFor (selector expression) k _) fun k => ?_
  refine (Ensures.stop (fun place => .of_reads (selector_reads he place)) (fun s hleft => ?_) k).post ?_
  · unfold selector
    rw [token_bind_run, hleft.current]
    generalize l.token = t at hends
    split
    · cases hends
    · cases hends
    · cases hends
    · rfl
  · rintro place s ⟨rfl, hleft⟩
    exact ⟨⟨line, rfl⟩, hleft⟩

/-- A part of the analysis that looks up a name first. -/
theorem resolve_ensures {α : Type} {f : Scope.Entry Declaration → Parser α} (hgoes : Goes (resolve >>= f))
    {e : Scope.Entry Declaration} (hlookup : s₀.scope.lookup l.text = .ok e) {t : Token} (hl : l.token = t)
    (ht : t ≠ .endOfFile) {H : α → State → Prop} (h : Ensures (Left s₀ ls) (f e) H) :
    Ensures (Left s₀ (l :: ls)) (resolve >>= f) H := by
  refine .congr (q := advance >>= fun _ => f e) hgoes (fun s hleft => ?_) (.take hl ht h)
  have hresolve : resolve s = (e, s.next) := by
    unfold resolve
    rw [get_bind_run, hleft.same.scope, hleft.current, hlookup]
    rfl
  rw [run_bind, hresolve]
  rfl

include hs in
theorem name {x : Text} (ht : l.token = .identifier) (htext : l.text = x) (hx : s₀.Names x) :
    Compiles s₀ .factor (.name x) [l] := by
  refine of_succ fun k next rest hends => .look (factor_goes k) fun s hleft => ?_
  obtain ⟨e, hlookup, hvalue⟩ := hx
  have hreads : Reads 0 (expressionOf (factorWithin k)) := expressionOf_reads (factor_reads_zero k)
  have hgoes : Goes (namedFactor (expressionOf (factorWithin k))) :=
    (namedFactor_parses (expressionOf_parses (factorWithin_parses k)) fun _ => True).goes
  simp only [hleft.current, ht]
  refine resolve_ensures hgoes (htext ▸ hlookup) ht nofun ?_
  rcases hvalue with ⟨value, type, hvalue⟩ | ⟨offset, v, hvalue⟩
  · rw [hvalue]
    refine (literal_ensures _ _).post ?_
    rintro o s ⟨⟨line, rfl⟩, hleft⟩
    exact ⟨.constant hlookup hvalue line, hleft⟩
  · rw [hvalue]
    refine (variableAt_ensures _ _ _).bind fun w => (designator_ensures hreads w hends).also.bind fun place => ?_
    refine Ensures.types_eq.also.also.bind fun ts => .line fun line => .pure ?_
    rintro s ⟨rfl, ⟨line', rfl⟩, rfl, hleft⟩
    exact ⟨.load hs hlookup hvalue line' line, hleft⟩

theorem paren {e : Phrase .expression} (hopen : left.token = .leftParen) (he : Compiles s₀ .expression e ls)
    (hclose : right.token = .rightParen) : Compiles s₀ .factor (.paren e) (left :: ls ++ [right]) := by
  refine of_succ fun k next rest _ => .look (factor_goes k) fun s hleft => ?_
  rw [append_assoc] at hleft ⊢
  simp only [hleft.current, hopen]
  refine .take hopen nofun <| (he k right (next :: rest) (by rw [hclose]; rfl)).bind fun o => ?_
  exact (Ensures.met hclose (by decide)).also.bind fun _ => .pure fun s hs => hs

include hs in
theorem complement {f : Phrase .factor} (ht : l.token = .kwNot) (hf : Compiles s₀ .factor f ls) :
    Compiles s₀ .factor (.complement f) (l :: ls) := by
  refine of_succ fun k next rest hends => .look (factor_goes k) fun s hleft => ?_
  simp only [cons_append, hleft.current, ht]
  refine .take ht nofun <| (hf k next rest hends).bind fun o => Ensures.types_eq.also.bind fun ts => ?_
  refine (Ensures.required _ rfl).bind fun _ => .line fun line => .pure ?_
  rintro s ⟨hkind, ho, rfl, hleft⟩
  rw [Bool.or_eq_true, decide_eq_true_eq, decide_eq_true_eq] at hkind
  exact ⟨ho.complement hs hkind line, hleft⟩

include hs in
theorem applied_yields {function : Builtin} (hordinal : function.isOrdinal = true) {e : Phrase .expression}
    {arg : Operand} (harg : Implements s₀ e arg) : Yields s₀ ls (applied function arg) (.apply function e) ls := by
  refine .types_bind (.of_reads (applied_reads function arg)) (.line fun line => ?_)
  have hrequire {b : Bool} {q : Problem} (hq : q.isPointerBase = false) {type : TypeId}
      (htakes : b = true → ∀ v : Value, v.type = arg.type →
        function.takes v.kind = true ∧ type = function.resultType v.type) :
      Yields s₀ ls (do
        require b q
        return ⟨.apply function arg.expr (s₀.types.rootKind arg.type) none line, type⟩) (.apply function e) ls := by
    refine (Ensures.required b hq).bind fun _ => .pure fun s ⟨hb, hleft⟩ => ?_
    refine ⟨harg.apply hs hordinal (fun v hv => ?_) line, hleft⟩
    obtain ⟨hkind, htype⟩ := htakes hb v hv
    exact ⟨hkind, htype, rfl⟩
  have hkind {v : Value} (hv : v.type = arg.type) : s₀.types.rootKind arg.type = v.kind := by
    rw [← hv, hs.rootKind_value]
  cases function with
  | pred | succ =>
    dsimp only
    split
    · refine .pure fun s hleft => ⟨harg.apply hs hordinal (fun v hv => ?_) line, hleft⟩
      rw [← hv, hs.neighbourBounds_value]
      exact ⟨rfl, rfl, rfl⟩
    · exact .report_bind rfl (.pure _)
  | abs | sqr =>
    refine hrequire rfl fun hb v hv => ?_
    rw [hkind hv] at hb
    rw [← hv, hs.root_value]
    cases v with
    | integer n => exact ⟨rfl, rfl⟩
    | boolean b => cases hb
    | character c => cases hb
  | odd | chr =>
    refine hrequire rfl fun hb v hv => ?_
    rw [hkind hv] at hb
    exact ⟨hb, rfl⟩
  | ord => exact hrequire rfl fun _ _ _ => ⟨rfl, rfl⟩
  | _ => cases hordinal

include hs in
theorem apply {function : Builtin} {e : Phrase .expression} (ht : l.token = .builtin function)
    (hordinal : function.isOrdinal = true) (hopen : left.token = .leftParen) (he : Compiles s₀ .expression e ls)
    (hclose : right.token = .rightParen) : Compiles s₀ .factor (.apply function e) (l :: left :: ls ++ [right]) := by
  refine of_succ fun k next rest _ => .look (factor_goes k) fun s hleft => ?_
  rw [append_assoc] at hleft ⊢
  simp only [hleft.current, ht]
  refine .take ht nofun <| .meet hopen nofun <| ?_
  refine (he k right (next :: rest) (by rw [hclose]; rfl)).bind fun arg => ?_
  refine (Ensures.met hclose (by decide)).also.bind fun _ => ?_
  exact .given (.of_reads (applied_reads function arg)) fun harg => applied_yields hs hordinal harg

/-! ## Repetitions -/

section

variable {operator? : Token → Option Operator} {operand first p : Parser Operand} {ends : Token → Bool}
  (hreads : Reads 0 operand) {r r' r'' : Rank} {φ : Phrase r} {ψ : Phrase r'} {χ : Phrase r''}

include hreads

theorem joined_goes (o : Operand) : Goes (joinedStep operator? operand o) := .of_reads (joinedStep_reads hreads o)

/-- The first part of a phrase, after which the repetition starts. -/
theorem starts_first (hfirst : ∀ l rest, ends l.token = true → Yields s₀ (ls ++ l :: rest) first φ (l :: rest)) :
    Starts s₀ ls (first >>= joined operator? operand) φ operator? operand ends := by
  intro l rest H hends hrest
  refine (hfirst l rest hends).bind fun o => ?_
  refine .of_fuel (p := fun k => repeatFor (joinedStep operator? operand) k o) fun k => ?_
  exact .given (.loop (joined_goes hreads) k o) (hrest k o)

include hs in
/-- An operator and a further part. -/
theorem starts_next (h : Starts s₀ ls p φ operator? operand ends) (hends : ends l.token = true) {op : Operator}
    (hop : operator? l.token = some op) (ht : l.token ≠ .endOfFile) (hne : op ≠ .divide)
    (hoperand : ∀ l rest, ends l.token = true → Yields s₀ (ks ++ l :: rest) operand ψ (l :: rest))
    (hnames : χ.names = φ.names ++ ψ.names) (hwords : χ.words = max φ.words (ψ.words + 1))
    (heval : ∀ values, χ.eval values = (do
      let a ← φ.eval values
      let b ← ψ.eval values
      op.value a b)) : Starts s₀ (ls ++ l :: ks) p χ operator? operand ends := by
  intro next rest H hnext hrest
  rw [append_assoc]
  refine h l (ks ++ next :: rest) H hends fun k before hbefore => ?_
  refine .repeat_once (G := fun r s => r.1 = true ∧ Implements s₀ χ r.2 ∧ Left s₀ (next :: rest) s)
    (.see (joined_goes hreads before) rfl ?_) (fun k o => ?_) (fun _ _ h => nomatch h.1) k
  · rw [hop]
    refine .take rfl ht <| (hoperand next rest hnext).bind fun after =>
      .bind (G := fun o s => Implements s₀ χ o ∧ Left s₀ (next :: rest) s) ?_ fun o => .pure fun s hs => ⟨rfl, hs⟩
    refine Ensures.types_eq.also.bind fun ts => (Ensures.required _ (isPointerBase_problem op)).bind fun _ => ?_
    refine .line fun line => .pure ?_
    rintro s ⟨hselect, hafter, rfl, hleft⟩
    exact ⟨.operator hs hne hnames hwords heval hbefore hafter hselect line, hleft⟩
  · have hgoes : Goes (repeatFor (joinedStep operator? operand) k o) := .loop (joined_goes hreads) k o
    exact .given hgoes fun _ => .given hgoes (hrest k o)

/-- The end of a phrase, where no operator follows. -/
theorem starts_last (h : Starts s₀ ls p φ operator? operand ends) (hends : ends l.token = true)
    (hop : operator? l.token = none) : Yields s₀ (ls ++ l :: ks) p φ (l :: ks) := by
  refine h l ks _ hends fun k o ho => (Ensures.stop (joined_goes hreads) (fun s hleft => ?_) k).post ?_
  · unfold joinedStep
    rw [token_bind_run, hleft.current, hop]
    rfl
  · rintro o' s ⟨rfl, hleft⟩
    exact ⟨ho, hleft⟩

end

/-! ## Terms -/

theorem factor {f : Phrase .factor} (hf : Compiles s₀ .factor f ls) : Compiles s₀ .term (.factor f) ls :=
  fun n => starts_first (factor_reads_zero n) (hf n)

theorem ends_of_multiplicative {t : Token} {op : Operator} (h : Operator.multiplicative? t = some op) :
    Rank.factor.ends t = true := by
  cases t <;> first | rfl | cases h

theorem ends_of_additive {t : Token} {op : Operator} (h : Operator.additive? t = some op) :
    Rank.term.ends t = true := by
  cases t <;> first | rfl | cases h

theorem ends_of_relation {t : Token} {r : Relation} (h : Relation.ofToken? t = some r) : Rank.simple.ends t = true := by
  cases t <;> first | rfl | cases h

include hs in
theorem multiply {t : Phrase .term} {op : Operator} {f : Phrase .factor} (ht : Compiles s₀ .term t ls)
    (hop : Operator.multiplicative? l.token = some op) (hne : op ≠ .divide) (hf : Compiles s₀ .factor f ks) :
    Compiles s₀ .term (.multiply t op f) (ls ++ l :: ks) := fun n =>
  starts_next hs (factor_reads_zero n) (ht n) (ends_of_multiplicative hop) hop (multiplicative_mem hop).2 hne (hf n)
    rfl rfl fun _ => rfl

theorem term_yields {t : Phrase .term} (ht : Compiles s₀ .term t ls) (n : Nat) (next : Lexeme) (rest : List Lexeme)
    (hends : Rank.term.ends next.token = true) :
    Yields s₀ (ls ++ next :: rest) (Parser.term (factorWithin n)) t (next :: rest) :=
  starts_last (factor_reads_zero n) (ht n) (Rank.ends_term hends).1 (Rank.ends_term hends).2

/-! ## Simple expressions -/

theorem signedTerm_goes (n : Nat) : Goes (signedTerm (factorWithin n)) :=
  .of_reads (signedTerm_reads (factor_reads_zero n))

theorem term_reads_zero (n : Nat) : Reads 0 (Parser.term (factorWithin n)) := term_reads (factor_reads_zero n)

theorem term {t : Phrase .term} (ht : Compiles s₀ .term t (l :: ls)) (hsign : sign? l.token = none) :
    Compiles s₀ .simple (.term t) (l :: ls) := by
  refine fun n => starts_first (term_reads_zero n) fun next rest hends => .see (signedTerm_goes n) rfl ?_
  rw [hsign]
  exact term_yields ht n next rest hends

include hs in
theorem sign {negative : Bool} {t : Phrase .term} (hsign : l.token = if negative then .minus else .plus)
    (ht : Compiles s₀ .term t ls) : Compiles s₀ .simple (.sign negative t) (l :: ls) := by
  have hsome : sign? l.token = some negative := by
    rw [hsign]
    cases negative <;> rfl
  refine fun n => starts_first (term_reads_zero n) fun next rest hends => .see (signedTerm_goes n) rfl ?_
  rw [hsome]
  refine .take rfl (sign_mem hsome).2 <| (term_yields ht n next rest hends).bind fun o => ?_
  refine Ensures.types_eq.also.bind fun ts => (Ensures.required _ rfl).bind fun _ => .line fun line => .pure ?_
  rintro s ⟨hnumeric, ho, rfl, hleft⟩
  exact ⟨ho.sign hs hnumeric line, hleft⟩

include hs in
theorem add {φ : Phrase .simple} {op : Operator} {t : Phrase .term} (hφ : Compiles s₀ .simple φ ls)
    (hop : Operator.additive? l.token = some op) (ht : Compiles s₀ .term t ks) :
    Compiles s₀ .simple (.add φ op t) (ls ++ l :: ks) := by
  have hne : op ≠ .divide := by
    rintro rfl
    generalize l.token = token at hop
    cases token <;> cases hop
  exact fun n => starts_next hs (term_reads_zero n) (hφ n) (ends_of_additive hop) hop (additive_mem hop).2 hne
    (term_yields ht n) rfl rfl fun _ => rfl

theorem simple_yields {φ : Phrase .simple} (hφ : Compiles s₀ .simple φ ls) (n : Nat) {next : Lexeme}
    {rest : List Lexeme} (hends : Rank.simple.ends next.token = true) :
    Yields s₀ (ls ++ next :: rest) (simpleExpression (factorWithin n)) φ (next :: rest) :=
  starts_last (term_reads_zero n) (hφ n) (Rank.ends_simple hends).1 (Rank.ends_simple hends).2

/-! ## Expressions -/

theorem comparison_goes (n : Nat) (o : Operand) : Goes (comparison (factorWithin n) o) :=
  .of_reads (comparison_reads (factor_reads_zero n) o)

theorem simple {φ : Phrase .simple} (hφ : Compiles s₀ .simple φ ls) : Compiles s₀ .expression (.simple φ) ls := by
  intro n next rest hends
  rw [expressionOf_eq]
  refine (simple_yields hφ n (Rank.ends_expression hends).1).bind fun o => ?_
  refine .given (comparison_goes n o) fun ho => .see (comparison_goes n o) rfl ?_
  rw [(Rank.ends_expression hends).2]
  exact .pure fun s hleft => ⟨ho, hleft⟩

include hs in
theorem compare {φ ψ : Phrase .simple} {relation : Relation} (hφ : Compiles s₀ .simple φ ls)
    (hrelation : Relation.ofToken? l.token = some relation) (hψ : Compiles s₀ .simple ψ ks) :
    Compiles s₀ .expression (.compare φ relation ψ) (ls ++ l :: ks) := by
  intro n next rest hends
  rw [append_assoc, expressionOf_eq]
  refine (simple_yields hφ n (ends_of_relation hrelation)).bind fun before => ?_
  refine .given (comparison_goes n before) fun hbefore => .see (comparison_goes n before) rfl ?_
  rw [hrelation]
  refine .take rfl (relation_mem hrelation).2 <| (simple_yields hψ n (Rank.ends_expression hends).1).bind fun after => ?_
  refine Ensures.types_eq.also.bind fun ts => (Ensures.required _ rfl).bind fun _ => .require rfl ?_
  refine .line fun line => .pure ?_
  rintro s ⟨hcomparable, hafter, rfl, hleft⟩
  exact ⟨hbefore.compare hs hafter hcomparable line, hleft⟩

end Compiles

/-- The lexemes of a phrase are analysed as the phrase. -/
theorem compiles {s₀ : State} (hs : s₀.Viable) {r : Rank} {φ : Phrase r} {ls : List Lexeme} (h : Spells φ ls)
    (hnames : ∀ x ∈ φ.names, s₀.Names x) : Compiles s₀ r φ ls := by
  induction h with
  | integer ht hv => exact .integer ht hv
  | character ht hc => exact .character ht hc
  | name ht htext => exact .name hs ht htext (hnames _ (mem_singleton.mpr rfl))
  | paren hopen _ hclose ih => exact .paren hopen (ih hnames) hclose
  | complement ht _ ih => exact .complement hs ht (ih hnames)
  | apply ht hordinal hopen _ hclose ih => exact .apply hs ht hordinal hopen (ih hnames) hclose
  | factor _ ih => exact .factor (ih hnames)
  | multiply _ hop hne _ ih ih' =>
    obtain ⟨hfirst, hsecond⟩ := forall_mem_append.mp hnames
    exact .multiply hs (ih hfirst) hop hne (ih' hsecond)
  | term ht ih =>
    obtain ⟨l, ks, rfl, hsign⟩ := ht.unsigned (.inr rfl)
    exact .term (ih hnames) hsign
  | sign hsign _ ih => exact .sign hs hsign (ih hnames)
  | add _ hop _ ih ih' =>
    obtain ⟨hfirst, hsecond⟩ := forall_mem_append.mp hnames
    exact .add hs (ih hfirst) hop (ih' hsecond)
  | simple _ ih => exact .simple (ih hnames)
  | compare _ hrelation _ ih ih' =>
    obtain ⟨hfirst, hsecond⟩ := forall_mem_append.mp hnames
    exact .compare hs (ih hfirst) hrelation (ih' hsecond)

theorem expression_yields {s₀ : State} (hs : s₀.Viable) {e : Phrase .expression} {ls : List Lexeme} (h : Spells e ls)
    (hnames : ∀ x ∈ e.names, s₀.Names x) {next : Lexeme} (hends : Rank.expression.ends next.token = true)
    (rest : List Lexeme) : Yields s₀ (ls ++ next :: rest) expression e (next :: rest) := by
  have hcompiles : Compiles s₀ .expression e ls := compiles hs h hnames
  exact .of_fuel (p := fun k => expressionOf (factorWithin k)) fun k => hcompiles k next rest hends

end MiniPascal.Parser
