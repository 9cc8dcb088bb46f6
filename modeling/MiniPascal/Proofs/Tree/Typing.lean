import MiniPascal.Proofs.Tree.Routines
import MiniPascal.Proofs.Types.Formation
import MiniPascal.Tree.Selection

/-!
# Typing of checked trees

The typing rules of the language, stated on checked trees. Every expression and every place has a type of
the table of types, a variable is one that a surrounding block has, and a call is one of a subprogram that
is declared in a surrounding block. Numbers are asked to be right only if sizes are exact, that is, if
there are no pointers and no type is too large.
-/

namespace MiniPascal

/-- A word that is far from the ends of the words. -/
def Datum.Bounded : Datum → Prop
  | .integer n => -2 ^ 48 < n.toInt ∧ n.toInt < 2 ^ 48
  | _ => True

def TypeKind.holds : TypeKind → Datum → Bool
  | .integer, .integer _ | .enumeration, .integer _ | .real, .real _ | .boolean, .boolean _
  | .character, .character _ | .pointer, .address _ => true
  | _, _ => false

namespace Builtin

/-- The kinds of arguments that a function takes. -/
def accepts : Builtin → TypeKind → Bool
  | .odd, k | .chr, k => k = .integer
  | .pred, k | .succ, k | .ord, k => k.isOrdinal
  | _, k => k.isNumeric

def resultKind : Builtin → TypeKind → TypeKind
  | .abs, k | .sqr, k | .pred, k | .succ, k => k
  | .round, _ | .trunc, _ | .ord, _ => .integer
  | .odd, _ => .boolean
  | .chr, _ => .character
  | _, _ => .real

def resultTypeIn (ts : TypeTable) (arg : TypeId) : Builtin → TypeId
  | .abs | .sqr => ts.root arg
  | .pred | .succ => arg
  | .round | .trunc | .ord => .integer
  | .odd => .boolean
  | .chr => .char
  | _ => .real

/-- The range to which the result of a function is held. -/
def limits (ts : TypeTable) (arg : TypeId) : Builtin → Option Bounds
  | .pred | .succ => ts.neighbourBounds arg
  | _ => none

end Builtin

def OperandKinds.comparable (k : OperandKinds) : Bool :=
  k.left.isNumeric && k.right.isNumeric || k.left = k.right && !k.left.isAggregate

theorem Operator.has_resultType (op : Operator) (k : OperandKinds) : TypeTable.builtins.Has (op.resultType k) := by
  unfold Operator.resultType
  split <;> (try split) <;> decide

/-- The elements of an array of a number of words. -/
structure Dimension.Covers (d : Dimension) (words : Int) : Prop where
  lower : -2 ^ 31 ≤ d.bounds.lower.toInt
  ordered : d.bounds.lower.toInt ≤ d.bounds.upper.toInt
  upper : d.bounds.upper.toInt < 2 ^ 48
  words : (d.bounds.upper.toInt - d.bounds.lower.toInt + 1) * d.elementSize.toInt = words

namespace TypeTable

/-- A conversion checks the bounds of its target type if its values have to be checked. -/
def Guards (ts : TypeTable) (t : TypeId) (c : Conversion) : Prop :=
  ts.isNarrow t = true → c.bounds = some (ts.bounds t)

/-- Values of one type can be stored as another: aggregates only as they are, and scalars as scalars that are checked. -/
def Stores (ts : TypeTable) (target source : TypeId) (c : Conversion) : Prop :=
  if ts.isAggregate target then source = target ∧ c = {} else ts.isAggregate source = false ∧ ts.Guards target c

variable {ts : TypeTable} {t : TypeId}

/-- A value of a type whose values have to be checked is a scalar. -/
theorem scalar_of_isNarrow (h : ts.isNarrow t = true) : ts.isAggregate t = false := by
  unfold isNarrow TypeDesc.isSubrange at h
  simp only [Bool.and_eq_true] at h
  have hord : (ts.kind t).isOrdinal = true := h.1.1
  unfold isAggregate
  cases hkind : ts.kind t <;> simp_all [TypeKind.isOrdinal, TypeKind.isAggregate]

theorem guards_convert {target source : TypeId} {c : Conversion} (h : ts.convert target source = .ok c) :
    ts.Guards target c := by
  intro hnarrow
  unfold convert at h
  simp only [hnarrow, if_pos] at h
  split at h
  · cases h
    rfl
  · cases h
    rfl
  · split at h
    · cases h
      rfl
    · cases h

theorem Formed.dimension {exact : Prop} (h : ts.Formed exact) {a : TypeId} (ha : ts.Has a) (hkind : ts.kind a = .array)
    (hbase : (ts.get a).base = some t) : ts.Has t ∧ (ts.dimension a).kind.isOrdinal = true ∧
      (ts.dimension a).elementSize = ts.size t ∧ (exact → (ts.dimension a).Covers (ts.size a).toInt) := by
  obtain ⟨element, index, hbase', hindex, hhe, hhi, hord, -, hsize⟩ := (h _ _ ha.getElem?).array hkind
  obtain rfl : t = element := Option.some.inj (hbase.symm.trans hbase')
  simp only [TypeTable.dimension, hbase, hindex, Option.getD_some]
  refine ⟨hhe, ?_, trivial, fun hx => ?_⟩
  · rw [h.rootKind hhi]
    exact hord
  · obtain ⟨hlower, hle, hupper⟩ := h.bounds hhi hx hord
    exact ⟨hlower, hle, hupper, hsize hx⟩

end TypeTable

namespace Routine

/-- The parameters of a subprogram lie right below its frame, and its result is a scalar. -/
structure WellPlaced (ts : TypeTable) (r : Routine) : Prop where
  types : ∀ f ∈ r.params, ts.Has f.type
  size : r.paramSize = ts.width r.params
  placed : ts.Placed (-r.paramSize) r.params
  result : ∀ t, r.result = some t → ts.Has t ∧ ts.isAggregate t = false

theorem WellPlaced.grow {ts ts' : TypeTable} {r : Routine} (h : r.WellPlaced ts) (hgrows : ts.Grows ts') :
    r.WellPlaced ts' where
  types f hf := hgrows.has (h.types f hf)
  size := h.size.trans (hgrows.width h.types).symm
  placed := hgrows.placed h.types h.placed
  result t ht := by
    obtain ⟨hhas, hscalar⟩ := h.result t ht
    refine ⟨hgrows.has hhas, ?_⟩
    rw [TypeTable.isAggregate, hgrows.kind hhas]
    exact hscalar

end Routine

namespace BlockInfo

/-- The local variables of a block lie one after the other. -/
structure WellPlaced (ts : TypeTable) (info : BlockInfo) : Prop where
  routine : info.routine.WellPlaced ts
  types : ∀ f ∈ info.vars, ts.Has f.type
  size : info.locals = ts.width info.vars
  placed : ts.Placed 0 info.vars

end BlockInfo

/-- What surrounds a part of a tree: the types of the program, whether sizes are exact, the subprograms
each with the blocks around it, and the blocks around the part, innermost first. -/
structure Context where
  types : TypeTable
  exact : Prop
  known : Routine → List Level → Prop
  levels : List Level

namespace Context

/-- The subprograms around a place, innermost first. -/
def ids (C : Context) : List RoutineId := C.levels.map fun l => l.routine.id

/-- The context inside a further block. -/
def enter (C : Context) (l : Level) : Context := { C with levels := l :: C.levels }

/-- A variable is one of a block around. -/
def Declares (C : Context) (v : Variable) : Prop :=
  ∃ (k : Nat) (l : Level), v.hops = k ∧ C.levels[k]? = some l ∧ ∃ f ∈ l.fields, f.offset = v.offset ∧ f.type = v.type

/-- A call reaches a subprogram that is declared in a block around. -/
def Calls (C : Context) (c : Callee) (r : Routine) : Prop :=
  ∃ k : Nat, c.hops = k ∧ k ≤ C.levels.length ∧ c.routine = r.id ∧ c.result = r.result ∧ C.known r (C.levels.drop k)

/-- A result belongs to a function around. -/
def Returns (C : Context) (hops : Int) (t : TypeId) : Prop :=
  ∃ (k : Nat) (l : Level), hops = k ∧ C.levels[k]? = some l ∧ l.routine.result = some t

/-- A number stands for one subprogram, and the subprograms around a place are known. -/
structure Coherent (C : Context) : Prop where
  unique : ∀ r around r' around', C.known r around → C.known r' around' → r.id = r'.id → r = r' ∧ around = around'
  levels : ∀ k l, C.levels[k]? = some l → C.known l.routine (C.levels.drop (k + 1))

/-- The table of types has the built-in types, and every type in it is formed as it should be. -/
structure WellFormed (C : Context) : Prop where
  builtins : TypeTable.builtins.Grows C.types
  formed : C.types.Formed C.exact

def Value (C : Context) (t : TypeId) (v : Datum) : Prop :=
  (C.types.kind t).holds v = true ∧ (C.exact → v.Bounded)

end Context

namespace Context

variable {C : Context}

/-- A subprogram that is known and stands around a place has its frame where its calls say. -/
theorem Coherent.level_of_known (h : C.Coherent) {r : Routine} {k : Nat} (hk : k ≤ C.levels.length)
    (hknown : C.known r (C.levels.drop k)) (hmem : r.id ∈ C.ids) :
    ∃ (j : Nat) (l : Level), k = j + 1 ∧ C.levels[j]? = some l ∧ l.routine = r := by
  obtain ⟨l, hl, hid⟩ := List.mem_map.mp hmem
  obtain ⟨j, hj⟩ := List.mem_iff_getElem?.mp hl
  obtain ⟨hr, haround⟩ := h.unique _ _ _ _ hknown (h.levels j l hj) hid.symm
  refine ⟨j, l, ?_, hj, hr.symm⟩
  have hlt := (List.getElem?_eq_some_iff.mp hj).1
  have hlength := congrArg List.length haround
  simp only [List.length_drop] at hlength
  omega

theorem Coherent.enter (h : C.Coherent) {l : Level} (hl : C.known l.routine C.levels) : (C.enter l).Coherent where
  unique := h.unique
  levels k m hm := by
    cases k with
    | zero => exact Option.some.inj hm ▸ hl
    | succ k => exact h.levels k m hm

end Context

mutual

def Expr.HasType (C : Context) : Expr → TypeId → Prop
  | .absent, _ => False
  | .literal value type _, t => t = type ∧ C.types.Has t ∧ C.Value t value
  | .load source size _, t => source.HasType C t ∧ size = C.types.size t
  | .call callee args _, t =>
    ∃ r, C.Calls callee r ∧ r.result = some t ∧ C.types.Has t ∧ C.types.isAggregate t = false ∧
      args.HaveTypes C (r.params.map Field.type)
  | .sign _ operand _, t => operand.HasType C t ∧ (C.types.kind t).isNumeric = true
  | .complement operand _, t => ∃ t', operand.HasType C t' ∧ t = C.types.root t' ∧
    (C.types.kind t' = .boolean ∨ C.types.kind t' = .integer)
  | .binary op left right kinds _, t => ∃ l r, left.HasType C l ∧ right.HasType C r ∧
    kinds = ⟨C.types.kind l, C.types.kind r⟩ ∧ (op.select kinds).isSome = true ∧ t = op.resultType kinds
  | .compare _ left right kinds _, t => ∃ l r, left.HasType C l ∧ right.HasType C r ∧
    kinds = ⟨C.types.kind l, C.types.kind r⟩ ∧ kinds.comparable = true ∧ t = .boolean
  | .apply function arg kind bounds _, t => ∃ a, arg.HasType C a ∧ kind = C.types.kind a ∧
    function.accepts kind = true ∧ t = function.resultTypeIn C.types a ∧ bounds = function.limits C.types a

def Designator.HasType (C : Context) : Designator → TypeId → Prop
  | .variable v _, t => C.Declares v ∧ t = v.type ∧ C.types.Has t
  | .result hops _, t => C.Returns hops t ∧ C.types.Has t ∧ C.types.isAggregate t = false
  | .element array index dimension _, t => ∃ a i, array.HasType C a ∧ index.HasType C i ∧
    C.types.kind a = .array ∧ (C.types.get a).base = some t ∧ dimension = C.types.dimension a ∧
    dimension.kind = C.types.kind i
  | .field record offset _, t => ∃ r, record.HasType C r ∧ C.types.kind r = .record ∧
    ∃ f ∈ (C.types.get r).fields, f.offset = offset ∧ f.type = t
  | .pointee pointer _, t => ∃ p, pointer.HasType C p ∧ C.types.kind p = .pointer ∧ (C.types.get p).base = some t
  | .surplus .., _ => False

/-- Arguments can be passed to parameters of given types. -/
def Args.HaveTypes (C : Context) : Args → List TypeId → Prop
  | .nil, [] => True
  | .cons arg conversion _ rest, p :: params =>
    (∃ t, arg.HasType C t ∧ C.types.Stores p t conversion) ∧ rest.HaveTypes C params
  | _, _ => False

end

def Expr.IsScalar (C : Context) (e : Expr) : Prop := ∃ t, e.HasType C t ∧ C.types.isAggregate t = false

def Expr.HasKind (C : Context) (e : Expr) (k : TypeKind) : Prop := ∃ t, e.HasType C t ∧ C.types.kind t = k

/-- A statement obeys the typing rules. -/
def Stmt.WellTyped (C : Context) : Stmt → Prop
  | .skip => True
  | .seq first second => first.WellTyped C ∧ second.WellTyped C
  | .assign target value conversion _ =>
    (∃ t, target.HasType C t ∧ C.types.isAggregate t = false ∧ C.types.Guards t conversion) ∧ value.IsScalar C
  | .assignWhole target value size _ => ∃ t, target.HasType C t ∧ C.types.isAggregate t = true ∧
    size = C.types.size t ∧ value.HasType C t
  | .abandoned .. => False
  | .call callee args _ =>
    ∃ r, C.Calls callee r ∧ r.result = none ∧ args.HaveTypes C (r.params.map Field.type)
  | .ifThen condition _ body => condition.HasKind C .boolean ∧ body.WellTyped C
  | .ifElse condition _ body _ alternative =>
    condition.HasKind C .boolean ∧ body.WellTyped C ∧ alternative.WellTyped C
  | .whileDo condition _ body _ => condition.HasKind C .boolean ∧ body.WellTyped C
  | .repeatUntil body condition _ => body.WellTyped C ∧ condition.HasKind C .boolean
  | .forLoop control _ start conversion _ _ limit _ body _ => C.Declares control ∧ C.types.Has control.type ∧
    (C.types.isOrdinal control.type = true ∧ C.types.Guards control.type conversion) ∧ start.IsScalar C ∧
    limit.IsScalar C ∧ body.WellTyped C
  | .write value format _ =>
    value.IsScalar C ∧ format.length ≤ 2 ∧ ∀ e ∈ format, e.HasKind C .integer
  | .writeText .. => True
  | .writeln _ => True
  | .new target _ _ => ¬C.exact ∧ ∃ t, target.HasType C t ∧ C.types.kind t = .pointer
  | .dispose target _ => ¬C.exact ∧ ∃ t, target.HasType C t ∧ C.types.kind t = .pointer

def Blocks.WellTyped (C : Context) : Blocks → Prop
  | .nil => True
  | .cons info inner body rest => info.WellPlaced C.types ∧ C.known info.routine C.levels ∧
    inner.WellTyped (C.enter ⟨info.routine, info.vars⟩) ∧
    body.WellTyped (C.enter ⟨info.routine, info.vars⟩) ∧ rest.WellTyped C

end MiniPascal
