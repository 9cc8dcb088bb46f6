import MiniPascal.Proofs.Tree.Segments

/-!
# Targets

Where the jumps and the calls of laid out code lead. A jump of a statement leads to an instruction of the
statement or right behind it, and never to a copy, which is what stands in place of a load that was taken
back. The calls of a statement are those of its tree, in order.
-/

namespace MiniPascal

open Opcode

namespace Opcode

/-- Operations that only work on the topmost words. -/
def isInline : Opcode → Bool
  | .unary _ | .itor2 | .binary _ | .push | .llimit | .ulimit => true
  | _ => false

def inExpression : Opcode → Bool
  | .pushVar | .eval | .call => true
  | op => op.isInline

def inStatement : Opcode → Bool
  | .assign | .copy | .pop | .jump | .jneq | .dup | .write | .writeln | .new | .dispose => true
  | op => op.inExpression

/-- Operations that go on elsewhere in the same body. -/
def isJump : Opcode → Bool
  | .jump | .jneq => true
  | _ => false

def isStraight (op : Opcode) : Bool := !op.isJump

/-- Operations of statements that do not jump. -/
def inLeaf (op : Opcode) : Bool := op.inStatement && op.isStraight

variable {op : Opcode}

theorem isStraight_of_inExpression (h : op.inExpression = true) : op.isStraight = true := by
  cases op <;> simp_all [isInline, inExpression, isStraight, isJump]

theorem inExpression_of_isInline (h : op.isInline = true) : op.inExpression = true := by
  cases op <;> simp_all [isInline, inExpression]

theorem inStatement_of_inExpression (h : op.inExpression = true) : op.inStatement = true := by
  cases op <;> simp_all [isInline, inExpression, inStatement]

theorem inLeaf_of_inExpression (h : op.inExpression = true) : op.inLeaf = true := by
  rw [inLeaf, inStatement_of_inExpression h, isStraight_of_inExpression h, Bool.and_self]

end Opcode

attribute [local simp] isInline inExpression inStatement isStraight isJump
  inLeaf withInt withTarget Variable.address Callee.code

/-- All operations of some code are of a class. -/
def AllOps (P : Opcode → Bool) (code : List Instr) : Prop := ∀ x ∈ code, P x.op = true

namespace AllOps

variable {P Q : Opcode → Bool} {a b : List Instr}

@[simp] theorem nil : AllOps P [] := by simp [AllOps]

@[simp] theorem cons_iff {x : Instr} : AllOps P (x :: a) ↔ P x.op = true ∧ AllOps P a := by simp [AllOps]

@[simp] theorem append_iff : AllOps P (a ++ b) ↔ AllOps P a ∧ AllOps P b := by
  simp only [AllOps, List.mem_append]
  exact ⟨fun h => ⟨fun x hx => h x (.inl hx), fun x hx => h x (.inr hx)⟩, fun h x hx => hx.elim (h.1 x) (h.2 x)⟩

theorem mono (h : AllOps P a) (hPQ : ∀ op, P op = true → Q op = true) : AllOps Q a :=
  fun x hx => hPQ _ (h x hx)

end AllOps

/-! ### Selected operations -/

@[simp] theorem Promotion.inline_code (p : Promotion) : AllOps isInline p.code := by
  cases p <;> simp [code]

@[simp] theorem Bounds.inline_code (b : Bounds) : AllOps isInline b.code := by simp [code]

@[simp] theorem Conversion.inline_code (c : Conversion) : AllOps isInline c.code := by
  obtain ⟨coercion, bounds⟩ := c
  unfold code
  rw [AllOps.append_iff]
  constructor
  · cases coercion <;> simp [Coercion.code]
  · cases bounds with
    | none => simp
    | some b => exact b.inline_code

@[simp] theorem Operator.inline_select (op : Operator) (k : OperandKinds) :
    AllOps isInline ((op.select k).getD []) := by
  have numbers (op : BinaryOp) : AllOps isInline ((onNumbers op k).getD []) := by
    unfold onNumbers
    split <;> simp [Promotion.inline_code]
  have integers (op : BinaryOp) : AllOps isInline ((onIntegers op k).getD []) := by
    unfold onIntegers
    split <;> simp
  have logical (p q : BinaryOp) : AllOps isInline ((onLogical p q k).getD []) := by
    unfold onLogical
    split
    · simp
    · split <;> simp
  have reals : AllOps isInline ((onReals k).getD []) := by
    unfold onReals
    split
    · simp only [Option.getD_some, AllOps.append_iff]
      refine ⟨⟨?_, ?_⟩, ?_⟩
      · split <;> simp
      · split <;> simp
      · simp
    · simp
  cases op with
  | add => exact numbers .add
  | sub => exact numbers .sub
  | mul => exact numbers .mul
  | divide => exact reals
  | div => exact integers .div
  | mod => exact integers .rem
  | shl => exact integers .shl
  | shr => exact integers .shr
  | and => exact logical .and .band
  | or => exact logical .or .bor
  | xor => exact logical (.compare .notEqual) .bxor

@[simp] theorem Relation.inline_select (r : Relation) (k : OperandKinds) : AllOps isInline (r.select k) := by
  simp [select, Promotion.inline_code]

@[simp] theorem Builtin.inline_select (f : Builtin) (k : TypeKind) : AllOps isInline (f.select k) := by
  have real (op : UnaryOp) : AllOps isInline (onReal op k) := by
    unfold onReal
    split <;> simp
  cases f <;> first | exact real _ | simp [select]

@[simp] theorem Dimension.inline_code (d : Dimension) : AllOps isInline d.code := by
  unfold code
  simp only [AllOps.append_iff, d.bounds.inline_code, true_and]
  refine ⟨⟨⟨?_, ?_⟩, ?_⟩, ?_⟩
  · split <;> simp
  · split <;> simp
  · split <;> simp
  · simp

/-! ### Expressions -/

variable {code : List Instr}

section

variable (entries : Entries)

theorem AllOps.straight (h : AllOps inExpression code) :
    AllOps isStraight code := h.mono fun _ => isStraight_of_inExpression

@[simp] theorem AllOps.inExpression (h : AllOps isInline code) :
    AllOps inExpression code := h.mono fun _ => inExpression_of_isInline

attribute [local simp] Expr.code Designator.code Args.code Stmt.code

mutual

@[simp] theorem Expr.ops_code : (e : Expr) → AllOps inExpression (instrs (e.code entries))
  | .absent | .literal .. => by simp
  | .load source _ _ => by simp [source.ops_code]
  | .call _ args _ => by simp [args.ops_code]
  | .sign negative operand _ => by cases negative <;> simp [operand.ops_code]
  | .complement operand _ => by simp [operand.ops_code]
  | .binary _ left right _ _ | .compare _ left right _ _ => by simp [left.ops_code, right.ops_code]
  | .apply _ arg _ bounds _ => by cases bounds <;> simp [arg.ops_code]

@[simp] theorem Designator.ops_code : (d : Designator) → AllOps inExpression (instrs (d.code entries))
  | .variable .. | .result .. => by simp
  | .element array index _ _ => by simp [array.ops_code, index.ops_code]
  | .field record offset _ => by by_cases offset = 0 <;> simp_all [record.ops_code]
  | .pointee pointer _ => by simp [pointer.ops_code]
  | .surplus place index => by simp [place.ops_code, index.ops_code]

@[simp] theorem Args.ops_code : (a : Args) → AllOps inExpression (instrs (a.code entries))
  | .nil => by simp
  | .cons arg _ _ rest => by simp [arg.ops_code, rest.ops_code]

end

/-- The code of a designator starts with the address of a variable or of a result. -/
theorem Designator.head_code : (d : Designator) → ∃ x rest, instrs (d.code entries) = x :: rest ∧ x.op = .pushVar
  | .variable v _ => ⟨v.address, [], rfl, rfl⟩
  | .result .. => ⟨_, [], rfl, rfl⟩
  | .element array _ _ _ => by
    obtain ⟨x, rest, heq, hop⟩ := array.head_code
    simp [heq, hop]
  | .field record _ _ => by
    obtain ⟨x, rest, heq, hop⟩ := record.head_code
    simp [heq, hop]
  | .pointee pointer _ => by
    obtain ⟨x, rest, heq, hop⟩ := pointer.head_code
    simp [heq, hop]
  | .surplus place _ => by
    obtain ⟨x, rest, heq, hop⟩ := place.head_code
    simp [heq, hop]

end

/-! ### Calls -/

def callTargets (code : List Instr) : List Datum := (code.filter fun x => x.op = .call).map Instr.arg

@[simp] theorem callTargets_nil : callTargets [] = [] := rfl

@[simp] theorem callTargets_append (a b : List Instr) : callTargets (a ++ b) = callTargets a ++ callTargets b := by
  simp [callTargets]

@[simp] theorem callTargets_cons (x : Instr) (a : List Instr) :
    callTargets (x :: a) = if x.op = .call then x.arg :: callTargets a else callTargets a := by
  by_cases h : x.op = .call <;> simp [callTargets, h]

@[simp] theorem AllOps.callTargets_eq (h : AllOps isInline code) : callTargets code = [] := by
  induction code with
  | nil => rfl
  | cons x rest ih =>
    obtain ⟨hx, hrest⟩ := AllOps.cons_iff.mp h
    have hop : x.op ≠ .call := by
      intro heq
      simp [heq] at hx
    rw [callTargets_cons, if_neg hop, ih hrest]

section

variable (entries : Entries)

def Entries.target (r : RoutineId) : Datum := .integer (Int64.ofNat (entries r))

attribute [local simp] Expr.code Designator.code Args.code Expr.callees Designator.callees Args.callees

mutual

@[simp] theorem Expr.callTargets_code : (e : Expr) →
    callTargets (instrs (e.code entries)) = e.callees.map entries.target
  | .absent | .literal .. => by simp
  | .load source _ _ => by simp [source.callTargets_code]
  | .call _ args _ => by simp [args.callTargets_code, Entries.target]
  | .sign negative operand _ => by cases negative <;> simp [operand.callTargets_code]
  | .complement operand _ => by simp [operand.callTargets_code]
  | .binary _ left right _ _ | .compare _ left right _ _ => by simp [left.callTargets_code, right.callTargets_code]
  | .apply _ arg _ bounds _ => by cases bounds <;> simp [arg.callTargets_code]

@[simp] theorem Designator.callTargets_code : (d : Designator) →
    callTargets (instrs (d.code entries)) = d.callees.map entries.target
  | .variable .. | .result .. => by simp
  | .element array index _ _ => by simp [array.callTargets_code, index.callTargets_code]
  | .field record offset _ => by by_cases offset = 0 <;> simp_all [record.callTargets_code]
  | .pointee pointer _ => by simp [pointer.callTargets_code]
  | .surplus place index => by simp [place.callTargets_code, index.callTargets_code]

@[simp] theorem Args.callTargets_code : (a : Args) →
    callTargets (instrs (a.code entries)) = a.callees.map entries.target
  | .nil => by simp
  | .cons arg _ _ rest => by simp [arg.callTargets_code, rest.callTargets_code]

end

end

/-! ### Storing aggregates -/

namespace Stmt

/-- Storing an aggregate adds an assignment to the code, or puts a copy in the place of its last load. -/
theorem storeWhole_cases (code : List Emission) (size : Int64) (line : Nat) :
    instrs (storeWhole code size line) = instrs code ++ [Opcode.assign.withInt size] ∨
      ∃ before last, instrs code = before ++ [last] ∧ last.op = .eval ∧
        instrs (storeWhole code size line) = before ++ [copy.withInt size] := by
  rcases List.eq_nil_or_concat code with rfl | ⟨before, last, rfl⟩
  · exact .inl rfl
  · rw [List.concat_eq_append]
    unfold storeWhole
    simp only [List.getLast?_append, List.getLast?_singleton, Option.some_or, List.dropLast_concat]
    split
    · rename_i h
      exact .inr ⟨instrs before, last.instr, by simp [instrs], h, by simp⟩
    · exact .inl (by rw [instrs_append, instrs_emitAt])

theorem ops_storeWhole {P : Opcode → Bool} (hassign : P .assign = true) (hcopy : P .copy = true)
    {code : List Emission} (h : AllOps P (instrs code)) (size : Int64) (line : Nat) :
    AllOps P (instrs (storeWhole code size line)) := by
  rcases storeWhole_cases code size line with heq | ⟨before, last, hcode, -, heq⟩
  · simp [heq, h, hassign]
  · rw [hcode, AllOps.append_iff] at h
    simp [heq, h, hcopy]

theorem callTargets_storeWhole (code : List Emission) (size : Int64) (line : Nat) :
    callTargets (instrs (storeWhole code size line)) = callTargets (instrs code) := by
  rcases storeWhole_cases code size line with heq | ⟨before, last, hcode, hop, heq⟩
  · simp [heq]
  · simp [heq, hcode, hop]

end Stmt

/-! ### Jumps -/

def StartsPlain (code : List Instr) : Prop := ∀ y, code.head? = some y → y.op ≠ .copy

@[simp] theorem StartsPlain.nil : StartsPlain [] := by simp [StartsPlain]

@[simp] theorem StartsPlain.cons_iff {x : Instr} : StartsPlain (x :: code) ↔ x.op ≠ .copy := by simp [StartsPlain]

theorem StartsPlain.append {a b : List Instr} (ha : StartsPlain a) (hb : StartsPlain b) : StartsPlain (a ++ b) := by
  cases a with
  | nil => exact hb
  | cons x rest => exact StartsPlain.cons_iff.mpr (StartsPlain.cons_iff.mp ha)

@[simp] theorem AllOps.startsPlain (h : AllOps Opcode.inExpression code) : StartsPlain code := by
  cases code with
  | nil => exact .nil
  | cons x rest =>
    refine StartsPlain.cons_iff.mpr fun heq => ?_
    have := (AllOps.cons_iff.mp h).1
    simp [heq] at this

namespace Stmt

variable (entries : Entries)

/-- Whether a statement has no statements inside it. -/
def isLeaf : Stmt → Bool
  | .seq .. | .ifThen .. | .ifElse .. | .whileDo .. | .repeatUntil .. | .forLoop .. => false
  | _ => true

@[local simp] theorem inLeaf_of_ops (h : AllOps inExpression code) :
    AllOps inLeaf code := h.mono fun _ => inLeaf_of_inExpression

attribute [local simp] code callees compareControl stepControl

/-- The operations of a statement with no statements inside it. -/
theorem ops_leaf {s : Stmt} (h : s.isLeaf = true) (here : Nat) :
    AllOps inLeaf (instrs (s.code entries here)) := by
  cases s with
  | assignWhole target value size line => exact ops_storeWhole rfl rfl (by simp) size line
  | write value format line =>
    have hformat : AllOps inLeaf (instrs (format.flatMap fun e => e.code entries)) := by
      clear h
      induction format <;> simp_all
    simp [hformat]
  | writeText text line =>
    rw [code]
    clear h
    induction text <;> simp_all
  | skip | assign | abandoned | call | writeln | new | dispose => simp
  | _ => cases h

/-- A statement with no statements inside it does not jump. -/
theorem straight_code {s : Stmt} (h : s.isLeaf = true) (here : Nat) :
    AllOps isStraight (instrs (s.code entries here)) :=
  (ops_leaf entries h here).mono fun _ hop => (Bool.and_eq_true_iff.mp hop).2

/-- The operations of statements; none of them enters or leaves a body. -/
theorem ops_code (s : Stmt) (here : Nat) : AllOps inStatement (instrs (s.code entries here)) := by
  have lift {code : List Instr} (h : AllOps inExpression code) : AllOps inStatement code :=
    h.mono fun _ => inStatement_of_inExpression
  induction s generalizing here with
  | seq first second ih₁ ih₂ => simp [ih₁, ih₂]
  | ifThen _ _ _ ih => simp [lift, ih]
  | ifElse _ _ _ _ _ ih₁ ih₂ => simp [lift, ih₁, ih₂]
  | whileDo _ _ _ _ ih => simp [lift, ih]
  | repeatUntil _ _ _ ih => simp [lift, ih]
  | forLoop _ _ _ _ _ _ _ _ _ _ ih => simp [lift, ih]
  | _ => exact (ops_leaf entries rfl here).mono fun _ hop => (Bool.and_eq_true_iff.mp hop).1

theorem callTargets_code (s : Stmt) (here : Nat) :
    callTargets (instrs (s.code entries here)) = s.callees.map entries.target := by
  induction s generalizing here with
  | seq first second ih₁ ih₂ => simp [ih₁, ih₂]
  | assignWhole _ _ _ _ => simp [callTargets_storeWhole]
  | call callee args line => simp [Entries.target]
  | ifThen _ _ _ ih => simp [ih]
  | ifElse _ _ _ _ _ ih₁ ih₂ => simp [ih₁, ih₂]
  | whileDo _ _ _ _ ih => simp [ih]
  | repeatUntil _ _ _ ih => simp [ih]
  | forLoop _ _ _ _ _ _ _ _ _ _ ih => simp [ih]
  | write value format line =>
    have hformat : callTargets (instrs (format.flatMap fun e => e.code entries)) =
        (format.flatMap Expr.callees).map entries.target := by
      induction format <;> simp_all
    simp [hformat]
  | writeText text line =>
    rw [code]
    induction text <;> simp_all
  | _ => simp

theorem startsPlain_code (s : Stmt) (here : Nat) : StartsPlain (instrs (s.code entries here)) := by
  have place (d : Designator) (rest : List Instr) : StartsPlain (instrs (d.code entries) ++ rest) := by
    obtain ⟨x, more, heq, hop⟩ := d.head_code entries
    simp [heq, hop]
  have value (e : Expr) {rest : List Instr} (h : StartsPlain rest) :
      StartsPlain (instrs (e.code entries) ++ rest) := (e.ops_code entries).startsPlain.append h
  induction s generalizing here with
  | seq first second ih₁ ih₂ =>
    rw [code, instrs_append]
    exact (ih₁ here).append (ih₂ _)
  | assignWhole target v size line =>
    obtain ⟨x, more, hhead, hop⟩ := target.head_code entries
    rw [code]
    rcases storeWhole_cases (target.code entries ++ v.code entries) size line with
      heq | ⟨before, last, hcode, hlast, heq⟩
    · simp [heq, hhead, hop]
    · cases before with
      | nil =>
        have : x = last := by simp_all
        simp_all
      | cons y before =>
        have : x = y := by simp_all
        simp [heq, ← this, hop]
  | call callee args line => exact instrs_append _ _ ▸ (args.ops_code entries).startsPlain.append (by simp)
  | repeatUntil _ _ _ ih => simp [(ih here).append, value]
  | write v format line =>
    have hformat : StartsPlain (instrs (format.flatMap fun e => e.code entries)) := by
      induction format <;> simp_all
    simp [value, hformat.append]
  | writeText text line => cases text <;> simp
  | _ => simp [place, value]

end Stmt

end MiniPascal
