import MiniPascal.Proofs.Grammar.Types
import MiniPascal.Proofs.Meaning.Computation

/-!
# Nodes of phrases

The operand that the analysis makes for a node of a phrase implements it, if the operands for its parts do and the
checks of their types have passed.
-/

namespace MiniPascal.Parser

open List

open State Machine

/-! ## The types of values -/

namespace State.Viable

variable {s : State} (h : s.Viable) (v : Value)

include h

omit h in
theorem basic_value : v.type.Basic := by
  cases v with
  | integer n => exact (by decide : TypeId.integer.Basic)
  | boolean b => exact (by decide : TypeId.boolean.Basic)
  | character c => exact (by decide : TypeId.char.Basic)

theorem root_value : s.types.root v.type = v.type := h.root_basic (basic_value v)

theorem alike_value : (TypeTable.builtins.get v.type).Alike (s.types.get v.type) :=
  h.types.alike (Nat.lt_succ_of_lt (basic_value v))

theorem kind_value : s.types.kind v.type = v.kind := (h.alike_value v).kind.trans (by cases v <;> rfl)

theorem rootKind_value : s.types.rootKind v.type = v.kind := by
  unfold TypeTable.rootKind
  rw [h.root_value, h.kind_value]

theorem size_value : s.types.size v.type = 1 := (h.alike_value v).size.trans (by cases v <;> rfl)

theorem isNarrow_value : s.types.isNarrow v.type = false := by
  have hbase : (s.types.get v.type).base = none := h.hostless _ (basic_value v)
  simp [TypeTable.isNarrow, TypeDesc.isSubrange, hbase]

theorem neighbourBounds_value : s.types.neighbourBounds v.type = none := by
  unfold TypeTable.neighbourBounds
  rw [h.rootKind_value, h.isNarrow_value]
  cases v <;> rfl

theorem convert_value {v w : Value} {conversion : Conversion}
    (hconvert : s.types.convert w.type v.type = .ok conversion) : conversion.code = [] ∧ v.type = w.type := by
  have hkind (u : Value) : (s.types.get u.type).kind = u.kind := h.kind_value u
  simp only [TypeTable.convert, TypeTable.same, h.root_value, h.kind_value, h.isNarrow_value, hkind] at hconvert
  cases v <;> cases w <;> cases hconvert <;> exact ⟨rfl, rfl⟩

theorem kind_eq_of_comparable {v w : Value} (hcomparable : comparable s.types v.type w.type = true) :
    v.kind = w.kind := by
  unfold comparable TypeTable.promote at hcomparable
  simp only [h.root_value, h.kind_value] at hcomparable
  cases v <;> cases w <;> first | rfl | cases hcomparable

end State.Viable

/-! ## Nodes -/

namespace Implements

variable {s : State} (hs : s.Viable) {r r' r'' : Rank} {φ : Phrase r} {ψ : Phrase r'} {o left right : Operand}

theorem integer (n : Int32) (line : Nat) : Implements s (.integer n) ⟨.literal (.integer n.toInt64) .integer line, .integer⟩ :=
  fun _ _ hA _ => ⟨rfl, fun _ => .literal hA (.integer n)⟩

theorem character (c : UInt8) (line : Nat) : Implements s (.character c) ⟨.literal (.character c) .char line, .char⟩ :=
  fun _ _ hA _ => ⟨rfl, fun _ => .literal hA (.character c)⟩

theorem constant {x : Text} {e : Scope.Entry Declaration} (hx : s.scope.lookup x = .ok e) {value : Datum}
    {type : TypeId} (he : e.value = .constant value type) (line : Nat) :
    Implements s (.name x) ⟨.literal value type line, type⟩ := by
  intro A values hA hnames
  obtain ⟨-, hdenotes⟩ := hnames x (mem_singleton.mpr rfl)
  cases hdenotes with
  | constant hfound hvalue =>
    cases hx.symm.trans hfound
    cases he.symm.trans hvalue
    exact ⟨rfl, fun _ => .literal hA (values x)⟩
  | stored hfound hvalue =>
    cases hx.symm.trans hfound
    cases he.symm.trans hvalue

include hs in
theorem load {x : Text} {e : Scope.Entry Declaration} (hx : s.scope.lookup x = .ok e) {offset : Int64}
    {type : TypeId} (he : e.value = .variable offset type) (line line' : Nat) : Implements s (.name x)
      ⟨.load (.variable { hops := s.level - e.level, offset, type } line) (s.types.size type) line', type⟩ := by
  intro A values hA hnames
  obtain ⟨hnear, hdenotes⟩ := hnames x (mem_singleton.mpr rfl)
  cases hdenotes with
  | constant hfound hvalue =>
    cases hx.symm.trans hfound
    cases he.symm.trans hvalue
  | stored hfound hvalue hlies hword =>
    cases hx.symm.trans hfound
    cases he.symm.trans hvalue
    refine ⟨rfl, fun entries => ?_⟩
    rw [hs.size_value]
    exact .load hA hlies (hnear _ _ _ hx he) hword

include hs in
theorem complement {f : Phrase .factor} (h : Implements s f o)
    (hkind : s.types.kind (s.types.root o.type) = .boolean ∨ s.types.kind (s.types.root o.type) = .integer)
    (line : Nat) : Implements s (.complement f) ⟨.complement o.expr line, s.types.root o.type⟩ := by
  intro A values hA hnames
  obtain ⟨htype, hcode⟩ := h A values hA hnames
  have hvalue (v : Value) (hv : f.eval values = .ok v) :
      ResultOf (s.types.root o.type) v.complement ∧ UnaryOp.not.apply v.datum = v.complement.map Value.datum := by
    have hvtype : v.type = o.type := by rwa [hv] at htype
    rw [← hvtype, hs.root_value, hs.kind_value] at hkind
    rw [← hvtype, hs.root_value]
    exact Value.apply_complement hkind
  refine ⟨htype.bind fun v hv _ => (hvalue v hv).1, fun entries => ?_⟩
  show Computes A (instrs (o.expr.code entries ++ emitAt line [{ op := .unary .not }])) f.words _
  rw [instrs_append, instrs_emitAt]
  exact (hcode entries).unary hA fun v hv => ⟨.not, rfl, (hvalue v hv).2⟩

include hs in
theorem apply {function : Builtin} (hordinal : function.isOrdinal = true) {e : Phrase .expression}
    (h : Implements s e o) {bounds : Option Bounds} {type : TypeId} (htakes : ∀ v : Value, v.type = o.type →
      function.takes v.kind = true ∧ type = function.resultType v.type ∧ bounds = none)
    (line : Nat) : Implements s (.apply function e)
      ⟨.apply function o.expr (s.types.rootKind o.type) bounds line, type⟩ := by
  intro A values hA hnames
  obtain ⟨htype, hcode⟩ := h A values hA hnames
  obtain ⟨check, happly, hnone⟩ : ∃ check : List Instr,
      (∀ entries, instrs ((Expr.apply function o.expr (s.types.rootKind o.type) bounds line).code entries) =
        instrs (o.expr.code entries) ++ (function.select (s.types.rootKind o.type) ++ check)) ∧
      (bounds = none → check = []) := by
    cases bounds with
    | none => exact ⟨[], fun entries => by simp [Expr.code], fun _ => rfl⟩
    | some b => exact ⟨b.code, fun entries => by simp [Expr.code], nofun⟩
  have hvalue (v : Value) (hv : e.eval values = .ok v) : ResultOf type (function.value v) ∧
      ∃ op : UnaryOp, function.select (s.types.rootKind o.type) ++ check = [{ op := .unary op }] ∧
        op.apply v.datum = (function.value v).map Value.datum := by
    have hvtype : v.type = o.type := by rwa [hv] at htype
    obtain ⟨hkind, rfl, hbounds⟩ := htakes v hvtype
    rw [hnone hbounds, ← hvtype, hs.rootKind_value, append_nil]
    exact Builtin.apply_select hordinal hkind
  refine ⟨htype.bind fun v hv _ => (hvalue v hv).1, fun entries => ?_⟩
  rw [happly]
  exact (hcode entries).unary hA fun v hv => (hvalue v hv).2

/-- Two phrases whose values are joined by one instruction. -/
theorem joined {χ : Phrase r''} {value : Value → Value → Except Fault Value} (hnames : χ.names = φ.names ++ ψ.names)
    (hwords : χ.words = max φ.words (ψ.words + 1)) (heval : ∀ values, χ.eval values = do
      let a ← φ.eval values; let b ← ψ.eval values; value a b) (hleft : Implements s φ left) (hright : Implements s ψ right) {code : List Instr}
    {line : Nat} {node : Operand}
    (hcode : ∀ entries, node.expr.code entries =
      left.expr.code entries ++ right.expr.code entries ++ emitAt line code)
    (hvalue : ∀ a b : Value, a.type = left.type → b.type = right.type → ResultOf node.type (value a b) ∧
      ∃ f : BinaryOp, code = [{ op := .binary f }] ∧ f.apply a.datum b.datum = (value a b).map Value.datum) :
    Implements s χ node := by
  intro A values hA hknown
  rw [hnames] at hknown
  obtain ⟨hfirst, hsecond⟩ := forall_mem_append.mp hknown
  obtain ⟨hltype, hlcode⟩ := hleft A values hA hfirst
  obtain ⟨hrtype, hrcode⟩ := hright A values hA hsecond
  have hvalue (a b : Value) (ha : φ.eval values = .ok a) (hb : ψ.eval values = .ok b) :=
    hvalue a b (by rwa [ha] at hltype) (by rwa [hb] at hrtype)
  rw [heval, hwords]
  refine ⟨hltype.bind fun a ha _ => hrtype.bind fun b hb _ => (hvalue a b ha hb).1, fun entries => ?_⟩
  rw [hcode, instrs_append, instrs_append, instrs_emitAt]
  exact (hlcode entries).binary hA (hrcode entries) fun a b ha hb => (hvalue a b ha hb).2

include hs in
/-- Two phrases joined by an operator. -/
theorem operator {op : Operator} (hop : op ≠ .divide) {χ : Phrase r''} (hnames : χ.names = φ.names ++ ψ.names)
    (hwords : χ.words = max φ.words (ψ.words + 1)) (heval : ∀ values, χ.eval values = do
      let a ← φ.eval values; let b ← ψ.eval values; op.value a b) (hleft : Implements s φ left) (hright : Implements s ψ right)
    (hselect : (op.select ⟨s.types.rootKind left.type, s.types.rootKind right.type⟩).isSome = true) (line : Nat) :
    Implements s χ ⟨.binary op left.expr right.expr ⟨s.types.rootKind left.type, s.types.rootKind right.type⟩ line,
      op.resultType ⟨s.types.rootKind left.type, s.types.rootKind right.type⟩⟩ := by
  obtain ⟨code, hcode⟩ := Option.isSome_iff_exists.mp hselect
  refine joined hnames hwords heval hleft hright (fun entries => rfl) fun a b ha hb => ?_
  rw [hcode]
  rw [← ha, ← hb, hs.rootKind_value, hs.rootKind_value] at hcode ⊢
  exact Operator.apply_select hop hcode

include hs in
theorem compare {relation : Relation} {φ ψ : Phrase .simple} (hleft : Implements s φ left)
    (hright : Implements s ψ right) (hcomparable : comparable s.types left.type right.type = true) (line : Nat) :
    Implements s (.compare φ relation ψ)
      ⟨.compare relation left.expr right.expr ⟨s.types.rootKind left.type, s.types.rootKind right.type⟩ line,
        .boolean⟩ := by
  refine joined rfl rfl (fun _ => rfl) hleft hright (fun entries => rfl) fun a b ha hb => ?_
  rw [← ha, ← hb] at hcomparable ⊢
  have hkind := hs.kind_eq_of_comparable hcomparable
  obtain ⟨hresult, happly⟩ := relation.apply_compare hkind
  refine ⟨hresult, .compare relation, ?_, happly⟩
  rw [hs.rootKind_value, hs.rootKind_value, hkind]
  cases b <;> rfl

include hs in
theorem sign {negative : Bool} {t : Phrase .term} (h : Implements s t o)
    (hnumeric : (s.types.rootKind o.type).isNumeric = true) (line : Nat) :
    Implements s (.sign negative t) ⟨.sign negative o.expr line, o.type⟩ := by
  intro A values hA hnames
  obtain ⟨htype, hcode⟩ := h A values hA hnames
  have hvalue (v : Value) (hv : t.eval values = .ok v) : ∃ n, v = .integer n ∧ .integer = o.type := by
    have hvtype : v.type = o.type := by rwa [hv] at htype
    rw [← hvtype, hs.rootKind_value] at hnumeric
    cases v with
    | integer n => exact ⟨n, rfl, hvtype⟩
    | boolean b => cases hnumeric
    | character c => cases hnumeric
  refine ⟨htype.bind fun v hv _ => ?_, fun entries => ?_⟩
  · obtain ⟨n, rfl, hinteger⟩ := hvalue v hv
    exact hinteger
  · cases negative with
    | true =>
      show Computes A (instrs (o.expr.code entries ++ emitAt line [{ op := .unary .neg }])) t.words _
      rw [instrs_append, instrs_emitAt]
      refine (hcode entries).unary hA fun v hv => ?_
      obtain ⟨n, rfl, -⟩ := hvalue v hv
      exact ⟨.neg, rfl, Value.apply_neg n⟩
    | false =>
      show Computes A (instrs (o.expr.code entries ++ [])) t.words _
      rw [append_nil]
      -- a plus sign changes nothing
      have hkeep : (t.eval values >>= Value.signed false) = t.eval values := by
        cases hv : t.eval values with
        | error f => rfl
        | ok v =>
          obtain ⟨n, rfl, -⟩ := hvalue v hv
          rfl
      show Computes A _ _ (t.eval values >>= Value.signed false)
      rw [hkeep]
      exact hcode entries

end Implements

end MiniPascal.Parser
