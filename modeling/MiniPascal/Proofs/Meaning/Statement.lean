import MiniPascal.Proofs.Meaning.Control
import MiniPascal.Proofs.Meaning.Expression

/-!
# The analysis of commands

The lexemes of a command are analysed as that command: the code of the statement runs it, and the lexemes after it are
left. The statements of a series are collected in a list.
-/

namespace MiniPascal.Parser

open List

open State Machine

/-- The code of a statement runs a command, wherever it stands. -/
def Realizes (s : State) (c : Command) (stmt : Stmt) : Prop :=
  ∀ (E : Scene s) (entries : Entries) (here : Nat), E.Runs c here (instrs (stmt.code entries here))

/-! ## Statements for commands -/

namespace Realizes

variable {s : State} {c d : Command} {stmt stmt' : Stmt} {e : Phrase .expression} {o : Operand}

theorem skip : Realizes s .skip .skip := fun _ _ _ => .skip

theorem assign {x : Text} {entry : Scope.Entry Declaration} (hx : s.scope.lookup x = .ok entry) {offset : Int64}
    {type : TypeId} (hentry : entry.value = .variable offset type) (ho : Implements s e o) {conversion : Conversion}
    (hconversion : ∀ v : Value, v.type = o.type → conversion.code = [] ∧ v.type = type) (line line' : Nat) :
    Realizes s (.assign x e)
      (.assign (.variable { hops := s.level - entry.level, offset, type } line) o.expr conversion line') := by
  intro E entries here
  have hruns : E.Runs (.assign x e) here _ := .assign hx hentry ho hconversion entries
  simpa [Stmt.code, Designator.code] using hruns

theorem seq (h : Realizes s c stmt) (h' : Realizes s d stmt') : Realizes s (.seq c d) (.seq stmt stmt') := by
  intro E entries here
  have hruns : E.Runs (.seq c d) here _ := (h E entries here).seq (h' E entries _)
  simpa [Stmt.code] using hruns

/-- The empty statement at the end of a list has no code. -/
theorem single (h : Realizes s c stmt) : Realizes s c (.ofList [stmt]) := by
  intro E entries here
  have hcode : instrs ((Stmt.ofList [stmt]).code entries here) = instrs (stmt.code entries here) := by
    simp [Stmt.ofList, Stmt.code]
  rw [hcode]
  exact h E entries here

variable (ho : Implements s e o) (hboolean : ∀ v : Value, v.type = o.type → v.kind = .boolean)

include ho hboolean

theorem ifThen (h : Realizes s c stmt) (line : Nat) : Realizes s (.ifThen e c) (.ifThen o.expr line stmt) := by
  intro E entries here
  have hruns : E.Runs (.ifThen e c) here _ := .ifThen (ho.tests hboolean entries) (h E entries _)
  simpa [Stmt.code] using hruns

theorem ifElse (h : Realizes s c stmt) (h' : Realizes s d stmt') (line line' : Nat) :
    Realizes s (.ifElse e c d) (.ifElse o.expr line stmt line' stmt') := by
  intro E entries here
  have hruns : E.Runs (.ifElse e c d) here _ := .ifElse (ho.tests hboolean entries) (h E entries _) (h' E entries _)
  simpa [Stmt.code] using hruns

theorem whileDo (h : Realizes s c stmt) (line line' : Nat) :
    Realizes s (.whileDo e c) (.whileDo o.expr line stmt line') := by
  intro E entries here
  have hruns : E.Runs (.whileDo e c) here _ := .whileDo (ho.tests hboolean entries) (h E entries _)
  simpa [Stmt.code] using hruns

theorem repeatUntil (h : Realizes s c stmt) (line : Nat) :
    Realizes s (.repeatUntil c e) (.repeatUntil stmt o.expr line) := by
  intro E entries here
  have hruns : E.Runs (.repeatUntil c e) here _ := .repeatUntil (h E entries _) (ho.tests hboolean entries)
  simpa [Stmt.code] using hruns

end Realizes

/-! ## Parts of statements -/

theorem statementWithin_goes (n : Nat) : Goes (statementWithin n) := (statementWithin_parses n).goes

theorem ends_of_endsStatement {isOpen : Bool} {t : Token} (h : t.endsStatement isOpen = true) :
    Rank.expression.ends t = true := by
  cases t <;> first | rfl | cases h

/-- A condition was analysed as an expression that has a truth value. -/
def Decides (s : State) (e : Phrase .expression) (test : Expr) : Prop :=
  ∃ o : Operand, o.expr = test ∧ Implements s e o ∧ ∀ v : Value, v.type = o.type → v.kind = .boolean

section

variable {s₀ : State} {l sign last : Lexeme} {ls rest : List Lexeme} {e : Phrase .expression}

theorem becomes_ensures (h : sign.token = .becomes) : Ensures (Left s₀ (sign :: ls)) becomes fun _ => Left s₀ ls := by
  refine .see (becomes_parses fun _ => True).goes h ?_
  rw [if_neg (by decide)]
  exact .met h nofun

theorem convert_ensures (target source : TypeId) : Ensures (Left s₀ ls) (convert target source)
    fun conversion s => s₀.types.convert target source = .ok conversion ∧ Left s₀ ls s := by
  have hwarn (b : Bool) (q : Concern) : Ensures (Left s₀ ls) (warnIf b q) fun _ => Left s₀ ls := by
    refine .of_reads (warnIf_reads b q) fun s _ hleft _ => ⟨hleft.same.trans (warnIf_reads (n := 0) b q s).2, ?_⟩
    unfold warnIf
    split <;> exact hleft.lexemes
  refine .types_bind (.of_reads (convert_reads target source)) ?_
  split
  · next conversion hconvert => exact (hwarn _ _).bind fun _ => .pure fun s hleft => ⟨hconvert, hleft⟩
  · exact .report_bind rfl (.pure _)

variable (hs : s₀.Viable)

include hs

theorem assignment_ensures {x : Text} {entry : Scope.Entry Declaration} (hx : s₀.scope.lookup x = .ok entry)
    {offset : Int64} {w : Value} (hentry : entry.value = .variable offset w.type) {value : Operand}
    (hvalue : Implements s₀ e value) (line : Nat) : Ensures (Left s₀ ls)
      (assignment ⟨.variable { hops := s₀.level - entry.level, offset, type := w.type } line, w.type⟩ value)
      fun stmt s => Realizes s₀ (.assign x e) stmt ∧ Left s₀ ls s := by
  have hscalar : s₀.types.isAggregate w.type = false := by
    unfold TypeTable.isAggregate
    rw [hs.kind_value]
    cases w <;> rfl
  refine .types_bind (.of_reads (assignment_reads _ _)) ?_
  rw [hscalar]
  refine (convert_ensures _ _).bind fun conversion => .line fun line' => .pure ?_
  rintro s ⟨hconvert, hleft⟩
  refine ⟨.assign hx hentry hvalue (fun v hv => ?_) line line', hleft⟩
  rw [← hv] at hconvert
  exact hs.convert_value hconvert

variable (he : Spells e ls) (hnames : ∀ x ∈ e.names, s₀.Names x)

include he hnames

theorem condition_ensures (hends : Rank.expression.ends l.token = true) : Ensures (Left s₀ (ls ++ l :: rest)) condition
    fun test s => Decides s₀ e test.1 ∧ Left s₀ (l :: rest) s := by
  refine (expression_yields hs he hnames hends rest).bind fun o => Ensures.types_eq.also.bind fun ts => ?_
  refine (Ensures.required _ rfl).bind fun _ => .line fun line => .pure ?_
  rintro s ⟨hkind, ho, rfl, hleft⟩
  refine ⟨⟨o, rfl, ho, fun v hv => ?_⟩, hleft⟩
  rw [← hv, hs.rootKind_value] at hkind
  exact of_decide_eq_true hkind

theorem namedStatement_assigns {x : Text} (ht : l.token = .identifier) (htext : l.text = x)
    (hsign : sign.token = .becomes) (hx : s₀.Names x) (hends : Rank.expression.ends last.token = true) :
    Ensures (Left s₀ (l :: sign :: (ls ++ last :: rest))) namedStatement
      fun stmt s => Realizes s₀ (.assign x e) stmt ∧ Left s₀ (last :: rest) s := by
  obtain ⟨entry, hlookup, hvalue⟩ := hx
  have hgoes : Goes namedStatement := (namedStatement_parses fun _ => True).goes
  refine Compiles.resolve_ensures hgoes (htext ▸ hlookup) ht nofun ?_
  rcases hvalue with ⟨value, type, hvalue⟩ | ⟨offset, w, hvalue⟩
  · -- a constant is not assigned to
    rw [hvalue]
    exact .report_bind rfl (.pure _)
  · rw [hvalue]
    refine (Compiles.variableAt_ensures _ _ _).bind fun v => ?_
    refine (Compiles.designator_ensures expression_reads v (by rw [hsign]; rfl)).also.bind fun place => ?_
    refine (becomes_ensures hsign).also.also.bind fun _ => ?_
    refine (expression_yields hs he hnames hends rest).also.also.bind fun value => ?_
    have hassigns : Goes (assignment place value) := .of_reads (assignment_reads place value)
    refine .given hassigns fun hv => .given hassigns fun hplace => .given hassigns fun hoperand => ?_
    obtain ⟨line, rfl⟩ := hplace
    subst hv
    exact assignment_ensures hs hlookup hvalue hoperand line

end

/-! ## Statements -/

/-- What follows a statement of a series: a semicolon, after which the series goes on, or a lexeme at which it stops
and after which some lexemes are left. -/
structure Ending (s₀ : State) (ending : List Stmt → Parser (Bool × List Stmt)) (l : Lexeme) (rest after : List Lexeme) :
    Prop where
  goes : ∀ stmts, Goes (ending stmts)
  more : ∀ (separator : Lexeme) ks stmts, separator.token = .semicolon →
    Ensures (Left s₀ (separator :: ks)) (ending stmts) fun r s => r = (true, stmts) ∧ Left s₀ ks s
  stop : ∀ stmts, Ensures (Left s₀ (l :: rest)) (ending stmts) fun r s => r = (false, stmts) ∧ Left s₀ after s

def seriesStep (statement : Parser Stmt) (ending : List Stmt → Parser (Bool × List Stmt)) (stmts : List Stmt) :
    Parser (Bool × List Stmt) := do
  ending (stmts ++ [← statement])

/-- The lexemes of a command are analysed as the command, and those after it are left. -/
def Analyses (s₀ : State) : Grade → Command → List Lexeme → Prop
  | .statement isOpen, c, ls => ∀ n l rest, l.token.endsStatement isOpen = true →
    Ensures (Left s₀ (ls ++ l :: rest)) (statementWithin n) fun stmt s => Realizes s₀ c stmt ∧ Left s₀ (l :: rest) s
  | .series, c, ls => ∀ n ending l rest after, l.token = .kwEnd ∨ l.token = .kwUntil → Ending s₀ ending l rest after →
    ∀ k stmts, Ensures (Left s₀ (ls ++ l :: rest)) (repeatFor (seriesStep (statementWithin n) ending) k stmts)
      fun all s => (∃ more, all = stmts ++ more ∧ Realizes s₀ c (.ofList more)) ∧ Left s₀ after s

namespace Analyses

variable {s₀ : State} {l sign first middle last : Lexeme} {ls ks js : List Lexeme} {e : Phrase .expression}
  {c d : Command} {isOpen : Bool}

theorem of_succ (h : ∀ n l rest, l.token.endsStatement isOpen = true → Ensures (Left s₀ (ls ++ l :: rest))
    (statementWithin (n + 1)) fun stmt s => Realizes s₀ c stmt ∧ Left s₀ (l :: rest) s) :
    Analyses s₀ (.statement isOpen) c ls := by
  intro n l rest hends
  cases n with
  | zero => exact .exhaust _
  | succ n => exact h n l rest hends

theorem skip : Analyses s₀ (.statement false) .skip [] := by
  refine of_succ fun n l rest hends => .see (statementWithin_goes (n + 1)) rfl ?_
  generalize l.token = t at hends
  split <;> first | exact .pure fun s hleft => ⟨.skip, hleft⟩ | cases hends

/-! ### Series -/

theorem seriesStep_goes {n : Nat} {ending : List Stmt → Parser (Bool × List Stmt)} (h : ∀ stmts, Goes (ending stmts))
    (stmts : List Stmt) : Goes (seriesStep (statementWithin n) ending stmts) :=
  (statementWithin_goes n).bind fun _ => h _

theorem single (h : Analyses s₀ (.statement isOpen) c ls) : Analyses s₀ .series c ls := by
  intro n ending l rest after hl hending k stmts
  have hends : l.token.endsStatement isOpen = true := by
    rcases hl with hl | hl
    · rw [hl]; rfl
    · rw [hl]; rfl
  refine .repeat_once (G := fun r s => r.1 = false ∧ (∃ more, r.2 = stmts ++ more ∧ Realizes s₀ c (.ofList more)) ∧
    Left s₀ after s) ((h n l rest hends).bind fun stmt => (hending.stop _).also.post ?_)
    (fun k all => .given (.loop (seriesStep_goes hending.goes) k all) nofun) (fun _ _ h => h.2) k
  rintro r s ⟨hstmt, rfl, hleft⟩
  exact ⟨rfl, ⟨[stmt], rfl, hstmt.single⟩, hleft⟩

theorem seq (h : Analyses s₀ (.statement isOpen) c ls) (ht : middle.token = .semicolon) (h' : Analyses s₀ .series d ks) :
    Analyses s₀ .series (.seq c d) (ls ++ middle :: ks) := by
  intro n ending l rest after hl hending k stmts
  rw [append_assoc]
  have hends : middle.token.endsStatement isOpen = true := by rw [ht]; rfl
  refine .repeat_once (G := fun r s => r.1 = true ∧ (∃ stmt, r.2 = stmts ++ [stmt] ∧ Realizes s₀ c stmt) ∧
    Left s₀ (ks ++ l :: rest) s) ?_ (fun k all => ?_) (fun _ _ h => nomatch h.1) k
  · refine (h n middle _ hends).bind fun stmt => (hending.more middle _ _ ht).also.post ?_
    rintro r s ⟨hstmt, rfl, hleft⟩
    exact ⟨rfl, ⟨stmt, rfl, hstmt⟩, hleft⟩
  · have hgoes : Goes (repeatFor (seriesStep (statementWithin n) ending) k all) := .loop (seriesStep_goes hending.goes) k all
    refine .given hgoes fun _ => .given hgoes fun hall => ?_
    obtain ⟨stmt, rfl, hstmt⟩ := hall
    refine (h' n ending l rest after hl hending k _).post ?_
    rintro all s ⟨⟨more, rfl, hmore⟩, hleft⟩
    exact ⟨⟨stmt :: more, append_assoc .., hstmt.seq hmore⟩, hleft⟩

theorem compound (hfirst : first.token = .kwBegin) (h : Analyses s₀ .series c ls) (hlast : last.token = .kwEnd) :
    Analyses s₀ (.statement false) c (first :: ls ++ [last]) := by
  refine of_succ fun n next rest _ => ?_
  have hgoes (stmts : List Stmt) : Goes (sequenceEnd stmts) := .of_reads (sequenceEnd_reads stmts)
  have hending : Ending s₀ sequenceEnd last (next :: rest) (next :: rest) := by
    refine ⟨hgoes, fun separator ks stmts ht => ?_, fun stmts => ?_⟩
    · exact .see (hgoes stmts) ht <| .take ht nofun <| .pure fun s hleft => ⟨rfl, hleft⟩
    · exact .see (hgoes stmts) hlast <| .take hlast nofun <| .pure fun s hleft => ⟨rfl, hleft⟩
  rw [append_assoc]
  refine .see (statementWithin_goes (n + 1)) hfirst (.meet hfirst nofun ?_)
  refine (Ensures.of_fuel (p := fun k => repeatFor (sequenceStep (statementWithin n)) k [])
    (h n sequenceEnd last _ _ (.inl hlast) hending · [])).bind fun all => .pure ?_
  rintro s ⟨⟨more, rfl, hmore⟩, hleft⟩
  exact ⟨hmore, hleft⟩

/-- What follows a statement in the body of a loop that is tested at its end. -/
def bodyEnd (stmts : List Stmt) : Parser (Bool × List Stmt) := do
  if (← token) = .semicolon then
    advance
    return (true, stmts)
  else return (false, stmts)

/-- What follows the first branch of a condition. -/
def alternative (statement : Parser Stmt) (test : Expr) (testLine : Nat) (body : Stmt) : Parser Stmt := do
  if (← token) = .kwElse then
    advance
    let elseLine ← line
    let alternative ← statement
    return .ifElse test testLine body elseLine alternative
  else return .ifThen test testLine body

theorem alternative_goes (n : Nat) (test : Expr) (testLine : Nat) (body : Stmt) :
    Goes (alternative (statementWithin n) test testLine body) := by
  refine (Goes.of_reads token_reads).bind fun t => ?_
  split
  · exact (Goes.of_reads advance_reads).bind fun _ => (Goes.of_reads line_reads).bind fun _ =>
      (statementWithin_goes n).bind fun _ => .pure _
  · exact .pure _

/-! ### Statements with an expression -/

variable (hs : s₀.Viable) (he : Spells e ls) (hnames : ∀ x ∈ e.names, s₀.Names x)

include hs he hnames

theorem assign {x : Text} (ht : l.token = .identifier) (htext : l.text = x) (hsign : sign.token = .becomes)
    (hx : s₀.Names x) : Analyses s₀ (.statement false) (.assign x e) (l :: sign :: ls) := by
  refine of_succ fun n next rest hends => .see (statementWithin_goes (n + 1)) ht ?_
  exact namedStatement_assigns hs he hnames ht htext hsign hx (ends_of_endsStatement hends)

theorem repeatUntil (hfirst : first.token = .kwRepeat) (h : Analyses s₀ .series c ks) (hmiddle : middle.token = .kwUntil) :
    Analyses s₀ (.statement false) (.repeatUntil c e) (first :: ks ++ middle :: ls) := by
  refine of_succ fun n next rest hends => ?_
  have hgoes (stmts : List Stmt) : Goes (bodyEnd stmts) := by
    refine (Goes.of_reads token_reads).bind fun t => ?_
    split
    · exact .of_reads (advance_reads.bind fun _ => .pure _)
    · exact .pure _
  have hending : Ending s₀ bodyEnd middle (ls ++ next :: rest) (middle :: (ls ++ next :: rest)) := by
    refine ⟨hgoes, fun separator ks stmts ht => ?_, fun stmts => ?_⟩
    · exact .see (hgoes stmts) ht <| .take ht nofun <| .pure fun s hleft => ⟨rfl, hleft⟩
    · exact .see (hgoes stmts) hmiddle <| .pure fun s hleft => ⟨rfl, hleft⟩
  rw [append_assoc]
  refine .see (statementWithin_goes (n + 1)) hfirst (.take hfirst nofun ?_)
  refine (Ensures.of_fuel (p := fun k => repeatFor (seriesStep (statementWithin n) bodyEnd) k [])
    (h n bodyEnd middle _ _ (.inr hmiddle) hending · [])).bind fun all => ?_
  refine (Ensures.met hmiddle (by decide)).also.bind fun _ => ?_
  refine (condition_ensures hs he hnames (ends_of_endsStatement hends)).also.bind fun test => .pure ?_
  rintro s ⟨⟨more, rfl, hmore⟩, ⟨o, ho, himplements, hboolean⟩, hleft⟩
  rw [← ho]
  exact ⟨.repeatUntil himplements hboolean hmore _, hleft⟩

theorem whileDo (hfirst : first.token = .kwWhile) (hmiddle : middle.token = .kwDo)
    (h : Analyses s₀ (.statement isOpen) c ks) :
    Analyses s₀ (.statement isOpen) (.whileDo e c) (first :: ls ++ middle :: ks) := by
  refine of_succ fun n next rest hends => ?_
  rw [append_assoc]
  refine .see (statementWithin_goes (n + 1)) hfirst (.take hfirst nofun ?_)
  refine (condition_ensures hs he hnames (by rw [hmiddle]; rfl)).bind fun test => ?_
  refine (Ensures.met hmiddle (by decide)).also.bind fun _ => (h n next rest hends).also.bind fun stmt => ?_
  refine .line fun line => .pure ?_
  rintro s ⟨⟨o, ho, himplements, hboolean⟩, hstmt, hleft⟩
  rw [← ho]
  exact ⟨.whileDo himplements hboolean hstmt _ _, hleft⟩

theorem branch_ensures {n : Nat} {rest : List Lexeme} {H : Stmt → State → Prop} (hfirst : first.token = .kwIf)
    (hmiddle : middle.token = .kwThen) (h : Analyses s₀ (.statement isOpen) c ks)
    (hends : last.token.endsStatement isOpen = true)
    (hrest : ∀ o testLine body, Implements s₀ e o → (∀ v : Value, v.type = o.type → v.kind = .boolean) →
      Realizes s₀ c body → Ensures (Left s₀ (last :: rest)) (alternative (statementWithin n) o.expr testLine body) H) :
    Ensures (Left s₀ (first :: ls ++ middle :: (ks ++ last :: rest))) (statementWithin (n + 1)) H := by
  refine .see (statementWithin_goes (n + 1)) hfirst (.take hfirst nofun ?_)
  refine (condition_ensures hs he hnames (by rw [hmiddle]; rfl)).bind fun test => ?_
  refine (Ensures.met hmiddle (by decide)).also.bind fun _ => (h n last rest hends).also.bind fun body => ?_
  have hgoes := alternative_goes n test.1 test.2 body
  refine .given hgoes fun htest => .given hgoes fun hbody => ?_
  obtain ⟨o, ho, himplements, hboolean⟩ := htest
  have hensures := hrest o test.2 body himplements hboolean hbody
  rwa [ho] at hensures

theorem ifThen (hfirst : first.token = .kwIf) (hmiddle : middle.token = .kwThen)
    (h : Analyses s₀ (.statement isOpen) c ks) :
    Analyses s₀ (.statement true) (.ifThen e c) (first :: ls ++ middle :: ks) := by
  refine of_succ fun n next rest hends => ?_
  have hne : next.token ≠ .kwElse := by
    intro heq
    rw [heq] at hends
    cases hends
  have hends' : next.token.endsStatement isOpen = true := by
    generalize next.token = t at hends hne
    cases t <;> first | rfl | cases hends
  rw [append_assoc]
  refine branch_ensures hs he hnames hfirst hmiddle h hends' fun o testLine body ho hboolean hbody => ?_
  refine .see (alternative_goes n _ _ _) rfl ?_
  rw [if_neg hne]
  exact .pure fun s hleft => ⟨.ifThen ho hboolean hbody _, hleft⟩

theorem ifElse (hfirst : first.token = .kwIf) (hmiddle : middle.token = .kwThen)
    (h : Analyses s₀ (.statement false) c ks) (hlast : last.token = .kwElse) (h' : Analyses s₀ (.statement isOpen) d js) :
    Analyses s₀ (.statement isOpen) (.ifElse e c d) (first :: ls ++ middle :: ks ++ last :: js) := by
  refine of_succ fun n next rest hends => ?_
  have hlist : first :: ls ++ middle :: ks ++ last :: js ++ next :: rest =
      first :: ls ++ middle :: (ks ++ last :: (js ++ next :: rest)) := by simp
  rw [hlist]
  refine branch_ensures hs he hnames hfirst hmiddle h (by rw [hlast]; rfl) fun o testLine body ho hboolean hbody => ?_
  refine .see (alternative_goes n _ _ _) hlast (.take hlast nofun ?_)
  refine .line fun elseLine => (h' n next rest hends).bind fun stmt => .pure ?_
  rintro s ⟨hstmt, hleft⟩
  exact ⟨.ifElse ho hboolean hbody hstmt _ _, hleft⟩

end Analyses

theorem analyses {s₀ : State} (hs : s₀.Viable) {g : Grade} {c : Command} {ls : List Lexeme} (h : c.Spelled g ls)
    (hnames : ∀ x ∈ c.names, s₀.Names x) : Analyses s₀ g c ls := by
  induction h with
  | skip => exact .skip
  | assign token text becomes value =>
    obtain ⟨hx, hvalue⟩ := forall_mem_cons.mp hnames
    exact .assign hs value hvalue token text becomes hx
  | compound begins _ ends ih => exact .compound begins (ih hnames) ends
  | ifThen begins test follows _ ih =>
    obtain ⟨htest, hbody⟩ := forall_mem_append.mp hnames
    exact .ifThen hs test htest begins follows (ih hbody)
  | ifElse begins test follows _ otherwise _ ih ih' =>
    obtain ⟨htest, hbranches⟩ := forall_mem_append.mp hnames
    obtain ⟨hbody, halternative⟩ := forall_mem_append.mp hbranches
    exact .ifElse hs test htest begins follows (ih hbody) otherwise (ih' halternative)
  | whileDo begins test follows _ ih =>
    obtain ⟨htest, hbody⟩ := forall_mem_append.mp hnames
    exact .whileDo hs test htest begins follows (ih hbody)
  | repeatUntil begins _ follows test ih =>
    obtain ⟨hbody, htest⟩ := forall_mem_append.mp hnames
    exact .repeatUntil hs test htest begins (ih hbody) follows
  | single _ ih => exact .single (ih hnames)
  | seq _ token _ ih ih' =>
    obtain ⟨hfirst, hsecond⟩ := forall_mem_append.mp hnames
    exact .seq (ih hfirst) token (ih' hsecond)

end MiniPascal.Parser
