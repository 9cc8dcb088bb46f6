import MiniPascal.Proofs.Machine.Arrival
import MiniPascal.Proofs.Meaning.Computation
import MiniPascal.Proofs.Types.Dimensions

/-!
# Types predict the kinds of values

The code of a typed expression leaves a datum of the kind of its type, whatever operations it is made
of, if the places that it reads hold data of their kinds. Where these places are is told by the
frames of the blocks around, by the values of indices and by the pointers that are followed.
-/

namespace MiniPascal

open Machine Designator Instr

/-- The faults at which the code of an expression may stop. -/
def Fault.MayArise (f : Fault) : Prop := f = .divideByZero ∨ f = .outOfRange ∨ f = .stackOverflow

namespace TypeKind

/-- The data of a kind. -/
inductive Admits : TypeKind → Datum → Prop
  | integer (v : Int64) : Admits .integer (.integer v)
  | enumeration (v : Int64) : Admits .enumeration (.integer v)
  | real (x : Float) : Admits .real (.real x)
  | boolean (b : Bool) : Admits .boolean (.boolean b)
  | character (c : UInt8) : Admits .character (.character c)
  | pointer (a : Int64) : Admits .pointer (.address a)

variable {k : TypeKind} {a b d : Datum}

theorem admits_iff : k.Admits d ↔ k.holds d = true := by
  constructor
  · intro h
    cases h <;> rfl
  · intro h
    cases k <;> cases d <;> first
      | constructor
      | cases h

/-- A computation has a result of a kind, or it stops at a fault that may arise. -/
abbrev Emerges (k : TypeKind) : Except Fault Datum → Prop := Expects Fault.MayArise k.Admits

/-- Code that takes some operands leaves a datum of a kind, or it stops at a fault that may arise.
What it does depends on nothing else. -/
def Ensues (k : TypeKind) (code : List Instr) (operands : List Datum) : Prop :=
  ∃ r, k.Emerges r ∧ ∀ room ds, computeAll room code (operands ++ ds) =
    r.map (· :: ds) >>= computeAll room []

theorem Ensues.ok {code : List Instr} {operands : List Datum} (hd : k.Admits d)
    (h : ∀ room ds, computeAll room code (operands ++ ds) = .ok (d :: ds)) :
    k.Ensues code operands := ⟨.ok d, hd, h⟩

theorem emerges_division (h : a.isNumeric = true ∧ b.isNumeric = true) (hd : k.Admits d) :
    k.Emerges (BinaryOp.arithmetic (Datum.checkDivision a b >>= fun _ => .ok d)) := by
  unfold Datum.checkDivision
  rw [h.1, h.2, if_neg (by simp)]
  split
  · exact .inl rfl
  · exact hd

/-- What is out of a domain is refused. -/
theorem emerges_within {c : Prop} [Decidable c] (hd : k.Admits d) :
    k.Emerges (if c then .error .outOfRange else .ok d) ∧
      k.Emerges (if c then .ok d else .error .outOfRange) := by
  constructor
  · split
    · exact .inr (.inl rfl)
    · exact hd
  · split
    · exact hd
    · exact .inr (.inl rfl)

theorem emerges_whole (n : Option Int) : TypeKind.integer.Emerges (wholeOrFault n) := by
  unfold wholeOrFault
  split
  · exact (emerges_within (.integer _)).2
  · exact .inr (.inl rfl)

end TypeKind

variable {k : TypeKind} {a b d : Datum}

/-- An operator leaves a datum of the kind of its result. -/
theorem Operator.ensues {op : Operator} {k : OperandKinds} {code : List Instr}
    (hcode : op.select k = some code) (ha : k.left.Admits a) (hb : k.right.Admits b) :
    (TypeTable.builtins.kind (op.resultType k)).Ensues code [b, a] := by
  obtain ⟨l, r⟩ := k
  cases op with
  | divide | div | mod =>
    cases ha <;> cases hb <;> cases hcode <;>
      exact ⟨_, TypeKind.emerges_division ⟨rfl, rfl⟩ (by constructor), fun _ _ => rfl⟩
  | _ => cases ha <;> cases hb <;> cases hcode <;> exact .ok (by constructor) fun _ _ => rfl

/-- A comparison leaves a truth value. -/
theorem Relation.ensues (r : Relation) {k : OperandKinds} (hk : k.comparable = true)
    (ha : k.left.Admits a) (hb : k.right.Admits b) :
    TypeKind.boolean.Ensues (r.select k) [b, a] := by
  obtain ⟨l, r⟩ := k
  cases ha <;> cases hb <;> first
    | exact .ok (.boolean _) fun _ _ => rfl
    | cases hk

theorem UnaryOp.ensues_neg (hk : k.isNumeric = true) (hd : k.Admits d) :
    k.Ensues [{ op := .unary .neg }] [d] := by
  cases hd <;> first
    | exact .ok (by constructor) fun _ _ => rfl
    | cases hk

theorem UnaryOp.ensues_not (hk : k = .boolean ∨ k = .integer) (hd : k.Admits d) :
    k.Ensues [{ op := .unary .not }] [d] := by
  cases hd <;> first
    | exact .ok (by constructor) fun _ _ => rfl
    | simp at hk

theorem UnaryOp.emerges_neighbour (distance : Int64) (hk : k.isOrdinal = true)
    (hd : k.Admits d) : k.Emerges (neighbour distance d) := by
  cases hd with
  | integer | enumeration => constructor
  | boolean => exact (TypeKind.emerges_within (.boolean _)).1
  | character => exact (TypeKind.emerges_within (.character _)).1
  | _ => cases hk

/-- A function leaves a datum of the kind of its result. -/
theorem Builtin.ensues (f : Builtin) (hk : f.accepts k = true) (hd : k.Admits d) :
    (f.resultKind k).Ensues (f.select k) [d] := by
  cases f with
  | ln | sqrt =>
    cases hd <;> first
      | exact ⟨_, (TypeKind.emerges_within (.real _)).2, fun _ _ => rfl⟩
      | cases hk
  | round | trunc =>
    cases hd <;> first
      | exact ⟨_, TypeKind.emerges_whole _, fun _ _ => rfl⟩
      | cases hk
  | pred | succ => exact ⟨_, UnaryOp.emerges_neighbour _ hk hd, fun _ _ => rfl⟩
  | chr =>
    cases hd <;> first
      | exact ⟨_, (TypeKind.emerges_within (.character _)).1, fun _ _ => rfl⟩
      | cases hk
  | _ =>
    cases hd <;> first
      | exact .ok (by constructor) fun _ _ => rfl
      | cases hk

/-- Only neighbours are held to a range. -/
theorem Builtin.isOrdinal_of_limits {f : Builtin} {ts : TypeTable} {t : TypeId} {b : Bounds}
    (haccepts : f.accepts (ts.kind t) = true) (h : f.limits ts t = some b) :
    (f.resultKind (ts.kind t)).isOrdinal = true := by
  cases f with
  | pred | succ => exact haccepts
  | _ => cases h

/-! ## Runs through the code -/

/-- A datum with a property lies on top of other operands. -/
def Topped (ds : List Datum) (P : Datum → Prop) (ds' : List Datum) : Prop := ∃ d, ds' = d :: ds ∧ P d

/-- The datum that some code leaves of its operands. -/
def Instr.leaves? (code : List Instr) (operands : List Datum) : Option Datum :=
  match computeAll 0 code operands with
  | .ok [d] => some d
  | _ => none

namespace Machine

/-- An address is not in the unused part of the stack, and the word there, if it may be read, is of a
kind. -/
structure Furnishes (m : Machine) (k : TypeKind) (a : Int64) : Prop where
  used : ¬(m.sp < a ∧ a < m.stackSize)
  word : m.valid a 1 = true → ∃ d, m.read? a = some d ∧ k.holds d = true

/-- From operands at an address, a machine gets through the code there to operands with a property,
or it stops at a fault that may arise. It has come there through a larger piece of code. -/
def Brings (m₀ : Machine) (height lo hi pc : Nat) (xs : List Instr) (ds : List Datum)
    (Q : List Datum → Prop) : Prop :=
  Stands m₀.code pc xs → lo ≤ pc → pc + xs.length ≤ hi → ∀ m, Arrives m₀ height lo hi pc ds m →
    Settles m₀ height lo hi Fault.MayArise (pc + xs.length) Q

namespace Brings

variable {m₀ : Machine} {height lo hi pc : Nat} {xs ys zs : List Instr} {ds operands : List Datum}
  {x : Instr} {P B : Datum → Prop} {Q : List Datum → Prop}

theorem nil (hQ : Q ds) : Brings m₀ height lo hi pc [] ds Q := fun _ _ _ _ h => h.settles hQ

theorem append {R : List Datum → Prop} (h : Brings m₀ height lo hi pc xs ds R)
    (h' : ∀ ds', R ds' → Brings m₀ height lo hi (pc + xs.length) ys ds' Q) :
    Brings m₀ height lo hi pc (xs ++ ys) ds Q := by
  intro hstands hlo hhi m harrives
  rw [List.length_append, ← Nat.add_assoc] at hhi ⊢
  exact (h hstands.left hlo (by omega) m harrives).bind fun ds' m' harrives' hR =>
    h' ds' hR hstands.right (by omega) hhi m' harrives'

/-- Code after its operand. -/
theorem unary (h : Brings m₀ height lo hi pc xs ds (Topped ds P))
    (h' : ∀ a, P a → Brings m₀ height lo hi (pc + xs.length) ys (a :: ds) Q) :
    Brings m₀ height lo hi pc (xs ++ ys) ds Q := by
  refine h.append ?_
  rintro _ ⟨a, rfl, ha⟩
  exact h' a ha

/-- Code after its two operands. -/
theorem binary (h : Brings m₀ height lo hi pc xs ds (Topped ds P))
    (h' : ∀ a, Brings m₀ height lo hi (pc + xs.length) ys (a :: ds) (Topped (a :: ds) B))
    (h'' : ∀ a b, P a → B b →
      Brings m₀ height lo hi (pc + xs.length + ys.length) zs (b :: a :: ds) Q) :
    Brings m₀ height lo hi pc (xs ++ ys ++ zs) ds Q := by
  rw [List.append_assoc]
  exact h.unary fun a ha => (h' a).unary fun b hb => h'' a b ha hb

section

variable (hm : m₀.Ready)

include hm

theorem compute (h : ∀ room, Expects Fault.MayArise Q (computeAll room xs ds)) :
    Brings m₀ height lo hi pc xs ds Q := by
  intro hstands hlo hhi m harrives
  obtain ⟨room, hroom⟩ := harrives.carries.exists_room
  exact harrives.compute hm hroom (by simp [Fault.MayArise]) hstands hlo hhi (h room)

theorem ensues (h : k.Ensues xs operands)
    (hQ : ∀ d, k.Admits d → leaves? xs operands = some d → Q (d :: ds)) :
    Brings m₀ height lo hi pc xs (operands ++ ds) Q := by
  obtain ⟨r, hr, hcompute⟩ := h
  refine compute hm fun room => ?_
  have hleaves := hcompute 0 []
  rw [List.append_nil] at hleaves
  rw [hcompute]
  cases r with
  | ok d =>
    refine hQ d hr ?_
    unfold leaves?
    rw [hleaves]
    rfl
  | error f => exact hr

/-- A datum is pushed before something is computed. -/
theorem push {level : Int8}
    (h : ∀ room, Expects Fault.MayArise Q (computeAll room xs (d :: ds))) :
    Brings m₀ height lo hi pc (⟨.push, level, d⟩ :: xs) ds Q := by
  refine compute hm fun room => ?_
  show Expects _ _ ((if ds.length < room then .ok (d :: ds) else _) >>= _)
  split
  · exact h room
  · exact .inr (.inr rfl)

theorem single {n : Nat} (hpops : x.op.pops = some n) (hn : n ≤ ds.length)
    (h : ∀ m, Carries m₀ height (pc + 1) ds m → ∃ r, Computed (fun _ => True) m₀ height (pc + 1) (m.execute x) r ∧
      Expects Fault.MayArise Q r) : Brings m₀ height lo hi pc [x] ds Q := by
  intro hstands hlo hhi m harrives
  obtain ⟨hat, hstep⟩ := harrives.carries.step_eq hm.roomy hstands.head hpops (by omega)
  obtain ⟨r, hr, hQ⟩ := h _ hat
  exact harrives.computed (hstep ▸ hr) hlo hhi hQ

/-- The address of a variable of a block around is pushed. -/
theorem locate {level : Int8} {base : Int64} (offset : Int64)
    (hframe : ∀ m, Carries m₀ height (pc + 1) ds m → m.frameAt level = .ok base)
    (hQ : Q (.address (base + offset) :: ds)) :
    Brings m₀ height lo hi pc [⟨.pushVar, level, .integer offset⟩] ds Q := by
  refine single hm (n := 0) rfl (Nat.zero_le _) fun m hat => ?_
  have hexecute : m.execute ⟨.pushVar, level, .integer offset⟩ =
      m.push (.address (base + offset)) := by
    unfold execute
    simp only [hframe m hat]
  refine ⟨_, hexecute ▸ hat.bears.push hm.roomy fun _ => trivial, ?_⟩
  split
  · exact hQ
  · exact .inr (.inr rfl)

/-- A word is loaded if it is on the stack or in the heap. -/
theorem load {a : Int64} (hsp : m₀.sp.toInt = height) (hslot : m₀.Furnishes k a)
    (hQ : ∀ d, k.Admits d → m₀.read? a = some d → Q (d :: ds)) :
    Brings m₀ height lo hi pc [Opcode.eval.withInt 1] (.address a :: ds) Q := by
  refine single hm (n := 1) rfl (by simp) fun m hat => ?_
  obtain ⟨hvalid, hread⟩ := hat.read?_eq_of_used hsp hslot.used
  by_cases hreadable : m₀.valid a 1 = true
  · obtain ⟨d, hd, hkind⟩ := hslot.word hreadable
    refine ⟨_, hat.load hm fun _ => hread.trans hd, ?_⟩
    rw [hvalid, if_pos hreadable]
    exact hQ d (TypeKind.admits_iff.mpr hkind) hd
  · refine ⟨_, hat.load (d := .integer 0) hm fun hv => absurd (hvalid ▸ hv) hreadable, ?_⟩
    rw [hvalid, if_neg hreadable]
    exact .inr (.inl rfl)

end

end Brings

end Machine

/-! ## Expressions -/

mutual

/-- Whether a function is called in an expression. -/
def Expr.calls : Expr → Bool
  | .call .. => true
  | .absent | .literal .. => false
  | .load source _ _ => source.calls
  | .sign _ operand _ | .complement operand _ | .apply _ operand _ _ _ => operand.calls
  | .binary _ left right _ _ | .compare _ left right _ _ => left.calls || right.calls

/-- Whether a function is called to find a place. -/
def Designator.calls : Designator → Bool
  | .variable .. | .result .. => false
  | .element place index _ _ | .surplus place index => place.calls || index.calls
  | .field place _ _ | .pointee place _ => place.calls

end

mutual

/-- The places of which the code of an expression loads a word. -/
def Expr.loads : Expr → List Designator
  | .absent | .literal .. | .call .. => []
  | .load source _ _ => source.loads ++ [source]
  | .sign _ operand _ | .complement operand _ | .apply _ operand _ _ _ => operand.loads
  | .binary _ left right _ _ | .compare _ left right _ _ => left.loads ++ right.loads

/-- The places of which a word is loaded on the way to a place. -/
def Designator.loads : Designator → List Designator
  | .variable .. | .result .. => []
  | .element place index _ _ | .surplus place index => place.loads ++ index.loads
  | .field place _ _ => place.loads
  | .pointee place _ => place.loads ++ [place]

end

/-- How many blocks out the variable is at which a place starts. -/
def Designator.hops : Designator → Int
  | .variable v _ => v.hops
  | .result hops _ => hops
  | .element place _ _ _ | .field place _ _ | .pointee place _ | .surplus place _ => place.hops

mutual

/-- The value of an expression without calls, from the frames of the blocks around it, innermost
first, and the words of a machine. -/
def Expr.value? (frames : List Nat) (m : Machine) : Expr → Option Datum
  | .absent | .call .. => none
  | .literal value _ _ => some value
  | .load source _ _ => do m.read? (← source.address? frames m)
  | .sign negative operand _ => do
    let d ← operand.value? frames m
    if negative then leaves? [{ op := .unary .neg }] [d] else d
  | .complement operand _ => do
    leaves? [{ op := .unary .not }] [← operand.value? frames m]
  | .binary op left right kinds _ => do
    let a ← left.value? frames m
    let b ← right.value? frames m
    leaves? ((op.select kinds).getD []) [b, a]
  | .compare relation left right kinds _ => do
    let a ← left.value? frames m
    let b ← right.value? frames m
    leaves? (relation.select kinds) [b, a]
  | .apply function arg kind bounds _ => do
    let d ← leaves? (function.select kind) [← arg.value? frames m]
    if bounds.all fun b => b.lower.toInt ≤ d.rank ∧ d.rank ≤ b.upper.toInt then d else none

/-- The address of a place. An index out of its bounds has no place. -/
def Designator.address? (frames : List Nat) (m : Machine) : Designator → Option Int64
  | .variable v _ => do Int64.ofNat (← frames[v.hops.toNat]?) + v.frameOffset
  | .result hops _ => do Int64.ofNat (← frames[hops.toNat]?) + FrameSlot.result.offset
  | .element array index dim _ => do
    let a ← array.address? frames m
    let d ← index.value? frames m
    if dim.bounds.lower.toInt ≤ d.rank ∧ d.rank ≤ dim.bounds.upper.toInt then
      a + Int64.ofInt (dim.stride d)
    else none
  | .field record offset _ => do (← record.address? frames m) + offset
  | .pointee pointer _ => do
    match ← m.read? (← pointer.address? frames m) with
    | .address a => a
    | _ => none
  | .surplus .. => none

end

/-- A place of which a word is loaded: it is not too many blocks out, and it holds a datum of the kind
of its type. -/
structure Context.Stocks (C : Context) (frames : List Nat) (m : Machine) (p : Designator) : Prop where
  near : p.hops ≤ 127
  slot : ∀ t a, p.HasType C t → p.address? frames m = some a → m.Furnishes (C.types.kind t) a

/-- A machine in the middle of the code of a block: its links lead to the frames of the blocks
around, whatever lies on top of the stack, and the arrays of the program have exact sizes. -/
structure Context.Hosts (C : Context) (frames : List Nat) (height : Nat) (m : Machine) : Prop where
  formed : C.WellFormed
  arrays : ∀ t, C.types.Has t → C.types.kind t = .array → (C.types.dimension t).Fits
  levels : C.levels.length ≤ frames.length
  ready : m.Ready
  sp : m.sp.toInt = height
  links : ∀ {pc ds m'} {k f : Nat}, Carries m height pc ds m' → k ≤ 127 → frames[k]? = some f →
    m'.frameAt (Int8.ofInt k) = .ok (Int64.ofNat f)

section

variable {C : Context} {entries : Entries} {frames : List Nat} {height : Nat} {m₀ : Machine}
  {lo hi : Nat} (h : C.Hosts frames height m₀)

include h

theorem Context.Hosts.locate {hops : Nat} {l : Level} (hl : C.levels[hops]? = some l)
    (hnear : (hops : Int) ≤ 127) (offset : Int64) {ds : List Datum} {pc : Nat}
    {Q : List Datum → Prop} (hQ : ∀ a : Int64,
      (do Int64.ofNat (← frames[hops]?) + offset : Option Int64) = some a → Q (.address a :: ds)) :
    Brings m₀ height lo hi pc [⟨.pushVar, Int8.ofInt hops, .integer offset⟩] ds Q := by
  have hlt := (List.getElem?_eq_some_iff.mp hl).1
  have hframe := List.getElem?_eq_getElem (Nat.lt_of_lt_of_le hlt h.levels)
  refine .locate h.ready offset (fun m hat => h.links hat (by omega) hframe) (hQ _ ?_)
  rw [hframe]
  rfl

mutual

/-- The code of an expression leaves its value, which is of the kind of its type. -/
theorem Expr.brings : (e : Expr) → {t : TypeId} → e.HasType C t → C.types.isAggregate t = false →
    e.calls = false → (∀ p ∈ e.loads, C.Stocks frames m₀ p) → (ds : List Datum) → {pc : Nat} →
    Brings m₀ height lo hi pc (instrs (e.code entries)) ds
      (Topped ds fun d => (C.types.kind t).Admits d ∧ e.value? frames m₀ = some d)
  | .literal value _ _, t, ⟨_, _, hvalue⟩, _, _, _, ds, _ => by
    rw [Expr.code, instrs_emitAt]
    exact .push h.ready fun room => ⟨value, rfl, TypeKind.admits_iff.mpr hvalue.1, rfl⟩
  | .load source size _, t, ⟨hsource, hsize⟩, hscalar, hcalls, hloads, ds, _ => by
    obtain ⟨hplace, hlast⟩ := List.forall_mem_append.mp hloads
    have hslot := hlast source (List.mem_singleton.mpr rfl)
    have hhas := h.formed.has_designator source hsource
    rw [Expr.code, instrs_append, instrs_emitAt, hsize, h.formed.formed.scalar hhas hscalar]
    refine (Designator.brings source hsource hcalls hslot.near hplace ds).unary ?_
    rintro _ ⟨a, rfl, ha⟩
    refine .load h.ready h.sp (hslot.slot t a hsource ha) fun d hd hread => ⟨d, rfl, hd, ?_⟩
    rw [Expr.value?, ha]
    exact hread
  | .sign negative operand _, t, ⟨hoperand, hnumeric⟩, hscalar, hcalls, hloads, ds, _ => by
    rw [Expr.code, instrs_append]
    refine (Expr.brings operand hoperand hscalar hcalls hloads ds).unary fun d hd => ?_
    cases negative with
    | false =>
      refine .nil ⟨d, rfl, hd.1, ?_⟩
      rw [Expr.value?, hd.2]
      rfl
    | true =>
      refine .ensues h.ready (UnaryOp.ensues_neg hnumeric hd.1) fun r hr hleaves => ⟨r, rfl, hr, ?_⟩
      rw [Expr.value?, hd.2]
      exact hleaves
  | .complement operand _, _, ⟨t', hoperand, rfl, hkinds⟩, _, hcalls, hloads, ds, _ => by
    have hscalar : C.types.isAggregate t' = false := by
      rcases hkinds with hk | hk <;> rw [TypeTable.isAggregate, hk] <;> rfl
    have hroot : C.types.kind (C.types.root t') = C.types.kind t' :=
      h.formed.formed.rootKind (h.formed.has_expr operand hoperand)
    rw [Expr.code, instrs_append, instrs_emitAt, hroot]
    refine (Expr.brings operand hoperand hscalar hcalls hloads ds).unary fun d hd => ?_
    refine .ensues h.ready (UnaryOp.ensues_not hkinds hd.1) fun r hr hleaves => ⟨r, rfl, hr, ?_⟩
    rw [Expr.value?, hd.2]
    exact hleaves
  | .binary op left right kinds _, _, ⟨l, r, hleft, hright, hkinds, hselect, rfl⟩, _, hcalls,
      hloads, ds, _ => by
    subst hkinds
    obtain ⟨code, hcode⟩ := Option.isSome_iff_exists.mp hselect
    obtain ⟨hl, hr⟩ := OperandKinds.scalars_of_select hcode
    obtain ⟨hcl, hcr⟩ := Bool.or_eq_false_iff.mp hcalls
    obtain ⟨hll, hlr⟩ := List.forall_mem_append.mp hloads
    rw [Expr.code, instrs_append, instrs_append, instrs_emitAt, hcode,
      h.formed.builtins.kind (op.has_resultType _)]
    refine (Expr.brings left hleft hl hcl hll ds).binary
      (fun a => Expr.brings right hright hr hcr hlr _) fun a b ha hb => ?_
    refine .ensues h.ready (Operator.ensues hcode ha.1 hb.1) fun r hr hleaves => ⟨r, rfl, hr, ?_⟩
    rw [Expr.value?, ha.2, hb.2, hcode]
    exact hleaves
  | .compare relation left right kinds _, _, ⟨l, r, hleft, hright, hkinds, hcompare, rfl⟩, _,
      hcalls, hloads, ds, _ => by
    subst hkinds
    obtain ⟨hl, hr⟩ := OperandKinds.scalars_of_comparable hcompare
    obtain ⟨hcl, hcr⟩ := Bool.or_eq_false_iff.mp hcalls
    obtain ⟨hll, hlr⟩ := List.forall_mem_append.mp hloads
    rw [Expr.code, instrs_append, instrs_append, instrs_emitAt,
      h.formed.builtins.kind (t := .boolean) (by decide)]
    refine (Expr.brings left hleft hl hcl hll ds).binary
      (fun a => Expr.brings right hright hr hcr hlr _) fun a b ha hb => ?_
    refine .ensues h.ready (relation.ensues hcompare ha.1 hb.1) fun r hr hleaves => ⟨r, rfl, hr, ?_⟩
    rw [Expr.value?, ha.2, hb.2]
    exact hleaves
  | .apply function arg kind bounds _, _, ⟨a, harg, hkind, haccepts, rfl, hbounds⟩, _, hcalls,
      hloads, ds, pc => by
    subst hkind hbounds
    rw [(h.formed.resultType function (h.formed.has_expr arg harg)).2]
    have hscalar := (Builtin.scalar_of_accepts haccepts).1
    have happlied : Brings m₀ height lo hi pc
        (instrs (arg.code entries) ++ function.select (C.types.kind a)) ds (Topped ds fun r =>
          (function.resultKind (C.types.kind a)).Admits r ∧ ∃ d, arg.value? frames m₀ = some d ∧
            leaves? (function.select (C.types.kind a)) [d] = some r) :=
      (Expr.brings arg harg hscalar hcalls hloads ds).unary fun d hd =>
        .ensues h.ready (function.ensues haccepts hd.1) fun r hr hleaves =>
          ⟨r, rfl, hr, d, hd.2, hleaves⟩
    cases hlimits : function.limits C.types a with
    | none =>
      simp only [Expr.code, instrs_append, instrs_emitAt]
      refine happlied.unary ?_
      rintro r ⟨hr, d, hvalue, hleaves⟩
      refine .nil ⟨r, rfl, hr, ?_⟩
      rw [Expr.value?, hvalue]
      show (leaves? _ [d] >>= _) = _
      rw [hleaves]
      rfl
    | some b =>
      have hordinal := Builtin.isOrdinal_of_limits haccepts hlimits
      simp only [Expr.code, instrs_append, instrs_emitAt]
      refine happlied.unary ?_
      rintro r ⟨hr, d, hvalue, hleaves⟩
      obtain ⟨v, hv⟩ := TypeKind.exists_ordinal (TypeKind.admits_iff.mp hr) hordinal
      refine .compute h.ready fun room => ?_
      rw [computeAll_bounds hv]
      split
      · next hin =>
        refine ⟨r, rfl, hr, ?_⟩
        rw [Expr.value?, hvalue]
        show (leaves? _ [d] >>= _) = _
        rw [hleaves]
        exact if_pos (decide_eq_true hin)
      · exact .inr (.inl rfl)

/-- The code of a place leaves its address. -/
theorem Designator.brings : (p : Designator) → {t : TypeId} → p.HasType C t → p.calls = false →
    p.hops ≤ 127 → (∀ q ∈ p.loads, C.Stocks frames m₀ q) → (ds : List Datum) → {pc : Nat} →
    Brings m₀ height lo hi pc (instrs (p.code entries)) ds
      (Topped ds fun d => ∃ a, d = .address a ∧ p.address? frames m₀ = some a)
  | .variable v _, t, ⟨⟨k, l, hhops, hl, _⟩, _⟩, _, hnear, _, ds, pc => by
    rw [Designator.code, instrs_emitAt, Variable.address, hhops]
    refine h.locate hl (hhops ▸ hnear) _ fun a ha => ⟨_, rfl, a, rfl, ?_⟩
    rw [address?, hhops]
    exact ha
  | .result hops _, t, ⟨⟨k, l, hhops, hl, _⟩, _⟩, _, hnear, _, ds, pc => by
    subst hhops
    rw [Designator.code, instrs_emitAt]
    refine h.locate hl hnear _ fun a ha => ⟨_, rfl, a, rfl, ?_⟩
    rw [address?]
    exact ha
  | .element array index dim _, t, ⟨a, i, harray, hindex, hkind, hbase, hdim, hord⟩, hcalls, hnear,
      hloads, ds, _ => by
    have hfits := h.arrays a (h.formed.has_designator array harray) hkind
    obtain ⟨hca, hci⟩ := Bool.or_eq_false_iff.mp hcalls
    obtain ⟨hla, hli⟩ := List.forall_mem_append.mp hloads
    rw [← hdim] at hfits
    rw [Designator.code, instrs_append, instrs_append, instrs_emitAt]
    have hscalar := TypeKind.scalar_of_isOrdinal (hord ▸ hfits.ordinal)
    refine (Designator.brings array harray hca hnear hla ds).binary
      (fun a => Expr.brings index hindex hscalar hci hli _) ?_
    rintro _ d ⟨a, rfl, ha⟩ ⟨hd, hvalue⟩
    have hholds : dim.kind.holds d = true := TypeKind.admits_iff.mp (hord ▸ hd)
    refine .compute h.ready fun room => ?_
    by_cases hin : dim.bounds.lower.toInt ≤ d.rank ∧ d.rank ≤ dim.bounds.upper.toInt
    · have htakes : dim.Takes d := ⟨hholds, hin.1, hin.2⟩
      refine (htakes.expects_code hfits a).mono (fun f hf => .inr (.inr hf.1)) ?_
      rintro _ rfl
      refine ⟨_, rfl, _, rfl, ?_⟩
      rw [address?, ha, hvalue]
      exact if_pos hin
    · obtain ⟨v, hv⟩ := TypeKind.exists_ordinal hholds hfits.ordinal
      rw [Dimension.computeAll_of_out hv hin]
      exact .inr (.inl rfl)
  | .field record offset _, t, ⟨r, hrecord, _⟩, hcalls, hnear, hloads, ds, _ => by
    rw [Designator.code, instrs_append]
    refine (Designator.brings record hrecord hcalls hnear hloads ds).unary ?_
    rintro _ ⟨a, rfl, ha⟩
    have haddress : (field record offset 0).address? frames m₀ = some (a + offset) := by
      rw [address?, ha]
      rfl
    split
    · next hzero =>
      rw [hzero, Int64.add_zero] at haddress
      exact .nil ⟨_, rfl, a, rfl, hzero ▸ haddress⟩
    · exact .push h.ready fun room => ⟨_, rfl, _, rfl, haddress⟩
  | .pointee pointer _, t, ⟨p, hpointer, hkind, _⟩, hcalls, hnear, hloads, ds, _ => by
    obtain ⟨hplace, hlast⟩ := List.forall_mem_append.mp hloads
    have hslot := hlast pointer (List.mem_singleton.mpr rfl)
    rw [Designator.code, instrs_append, instrs_emitAt]
    refine (Designator.brings pointer hpointer hcalls hnear hplace ds).unary ?_
    rintro _ ⟨a, rfl, ha⟩
    refine .load h.ready h.sp (hslot.slot p a hpointer ha) fun d hd hread => ?_
    rw [hkind] at hd
    cases hd with
    | pointer b =>
      refine ⟨_, rfl, b, rfl, ?_⟩
      rw [address?, ha]
      show (m₀.read? a >>= _) = _
      rw [hread]
      rfl

end

end

end MiniPascal
