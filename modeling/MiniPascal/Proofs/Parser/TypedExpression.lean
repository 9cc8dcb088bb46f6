import MiniPascal.Proofs.Parser.Grounded

/-!
# Expressions that are accepted are typed

The analysis of an expression in a state that obeys the typing rules yields a typed tree, unless it reports a
problem.
-/

namespace MiniPascal

open List TypeTable

/-- An expression and its type agree. -/
structure Operand.Typed (C : Context) (ts : TypeTable) (o : Operand) : Prop where
  expr : o.expr.HasType C o.type
  has : ts.Has o.type

/-- A place and its type agree. -/
structure Place.Typed (C : Context) (ts : TypeTable) (p : Place) : Prop where
  designator : p.designator.HasType C p.type
  has : ts.Has p.type

namespace Context.Stage

variable {C : Context} {ts : TypeTable} (h : C.Stage ts) {t : TypeId}
include h

section

variable (ht : ts.Has t)

include ht

theorem has : C.types.Has t := h.grows.has ht

theorem kind : C.types.kind t = ts.kind t := h.grows.kind ht

theorem isAggregate : C.types.isAggregate t = ts.isAggregate t := by
  rw [TypeTable.isAggregate, h.kind ht]
  rfl

theorem size : C.types.size t = ts.size t := h.grows.size ht

theorem rootKind : ts.rootKind t = C.types.kind t :=
  (h.formed.rootKind ht).trans (h.kind ht).symm

/-- A check of a range is one that the whole program asks for. -/
theorem guards {c : Conversion} (hguards : ts.Guards t c) : C.types.Guards t c := by
  unfold TypeTable.Guards
  rw [isNarrow_eq h.ordered h.formed h.grows h.retains ht, h.grows.bounds ht]
  exact hguards

theorem root : C.types.root t = ts.root t :=
  root_eq h.ordered h.formed h.grows h.retains ht

theorem base (hkind : ts.kind t ≠ .pointer) : (C.types.get t).base = (ts.get t).base :=
  h.retains t ht fun hwaits => hkind hwaits.kind

theorem neighbourBounds : C.types.neighbourBounds t = ts.neighbourBounds t := by
  unfold TypeTable.neighbourBounds TypeTable.rootKind
  rw [h.root ht, h.kind (h.formed.has_root ht), h.grows.bounds ht, isNarrow_eq h.ordered h.formed h.grows h.retains ht]

end

theorem dimension {a : TypeId} (ha : ts.Has a) (hkind : ts.kind a = .array) : C.types.dimension a = ts.dimension a := by
  obtain ⟨element, index, hbase, hindex, hhe, hhi, -⟩ := (h.formed _ _ ha.getElem?).array hkind
  have hbase' := h.base ha (by rw [hkind]; exact TypeKind.noConfusion)
  unfold TypeTable.dimension TypeTable.rootKind
  rw [hbase', (h.grows.alike ha).index, hbase, hindex]
  simp only [Option.getD_some]
  rw [h.root hhi, h.kind (h.formed.has_root hhi), h.grows.bounds hhi, h.size hhe]

theorem has_builtin (ht : TypeTable.builtins.Has t) : ts.Has t := h.builtins.has ht

theorem kind_builtin (ht : TypeTable.builtins.Has t) : C.types.kind t = TypeTable.builtins.kind t :=
  (h.kind (h.has_builtin ht)).trans (h.builtins.kind ht)

end Context.Stage

namespace Parser

variable {C : Context} {now : TypeTable} {c : Prop} (hn : C.Stage now)

include hn

theorem literal_gives {value : Datum} {type : TypeId} (h : c → now.Has type ∧ C.Value type value) :
    Gives C now c (literal value type) (Operand.Typed C now) := by
  refine .line fun _ => .pure fun hc => ?_
  obtain ⟨hhas, hvalue⟩ := h hc
  exact ⟨⟨rfl, hn.has hhas, hvalue⟩, hhas⟩

theorem convert_gives {target source : TypeId}
    (h : c → now.Has target ∧ now.Has source ∧ now.isAggregate target = false) :
    Gives C now c (convert target source) fun conversion =>
      now.isAggregate source = false ∧ C.types.Guards target conversion := by
  refine .types fun ts => ?_
  split
  · next conversion hconvert =>
    refine .read (warnIf_reads _ _) fun _ => .pure ?_
    rintro ⟨hc, rfl⟩
    obtain ⟨ht, hs, hscalar⟩ := h hc
    exact ⟨hn.formed.scalar_of_convert ht hs hconvert hscalar, hn.guards ht (guards_convert hconvert)⟩
  · exact .report_bind rfl (.pure _)

omit hn in
theorem variableAt_gives {e : Scope.Entry Declaration} {offset : Int64} (type : TypeId)
    (h : c → C.Declares { hops := C.levels.length - e.level, offset, type }) :
    Gives C now c (variableAt e offset type) fun v => C.Declares v ∧ v.type = type := by
  refine .level fun l => .pure ?_
  rintro ⟨hc, rfl⟩
  exact ⟨h hc, rfl⟩

section

variable {expression : Parser Operand} (he : Gives C now True expression (Operand.Typed C now)) {place : Place}
  {params : List Field}
include he

section

variable (h : c → place.Typed C now)

include h

theorem index_gives : Gives C now c (index expression place) (Place.Typed C now) := by
  refine .types fun ts => ?_
  dsimp only
  split
  · next harray =>
    refine he.weaken.bind fun i => .require rfl <| .line fun _ => .pure ?_
    rintro ⟨⟨⟨hc, rfl⟩, hi⟩, hsame⟩
    obtain ⟨hplace, hhas⟩ := h hc
    obtain ⟨element, index, hbase, hindex, hhe, hhi, -⟩ := (hn.formed _ _ hhas.getElem?).array harray
    have hsame : ts.same index i.type = true := by rwa [hindex] at hsame
    have harray' : ts.kind place.type = .array := harray
    have hbase' := hn.base hhas (by rw [harray']; exact TypeKind.noConfusion)
    rw [hbase, Option.getD_some]
    refine ⟨⟨place.type, i.type, hplace, hi.expr, (hn.kind hhas).trans harray, hbase'.trans hbase,
      (hn.dimension hhas harray).symm, ?_⟩, hhe⟩
    simp only [TypeTable.dimension, hindex, Option.getD_some]
    rw [hn.formed.rootKind hhi, hn.formed.kind_of_same hhi hi.has hsame, hn.kind hi.has]
  · exact .report_bind rfl (he.reads.bind fun _ => .pure _)

omit he in
theorem field_gives : Gives C now c (field place) (Place.Typed C now) := by
  refine .read identifier_reads fun name => .types fun ts => ?_
  dsimp only
  split
  · next hrecord =>
    split
    · next f hf =>
      refine .line fun _ => .pure ?_
      rintro ⟨hc, rfl⟩
      obtain ⟨hplace, hhas⟩ := h hc
      have hmem : f ∈ (ts.get place.type).fields := mem_of_find?_eq_some hf
      have hfield := ((hn.formed _ _ hhas.getElem?).fields f hmem).1
      have hsame : f ∈ (C.types.get place.type).fields := by
        rw [(hn.grows.alike hhas).fields]
        exact hmem
      exact ⟨⟨place.type, hplace, (hn.kind hhas).trans hrecord, f, hsame, rfl, rfl⟩, hfield⟩
    · exact .report_bind rfl (.pure _)
  · exact .report_bind rfl (.pure _)

omit he in
theorem pointee_gives : Gives C now c (pointee place) (Place.Typed C now) := by
  refine .types fun ts => ?_
  dsimp only
  split
  · next base hkind hbase =>
    refine .line fun _ => .pure ?_
    rintro ⟨hc, rfl⟩
    obtain ⟨hplace, hhas⟩ := h hc
    obtain ⟨-, htarget⟩ := (hn.formed _ _ hhas.getElem?).target hkind base hbase
    have hbase' := hn.retains _ hhas fun hwaits => by simp [hwaits.base] at hbase
    exact ⟨⟨place.type, hplace, (hn.kind hhas).trans hkind, hbase'.trans hbase⟩, htarget⟩
  · exact .report_bind rfl (.pure _)

theorem selector_gives : Gives C now c (selector expression place) fun r => r.2.Typed C now := by
  refine .token fun t => ?_
  split
  · exact .advance <| .bind (.separated (I := Place.Typed C now) (fun _ => index_gives hn he And.right) h) fun place =>
      .expect <| .pure And.right
  · exact .advance <| (field_gives hn h).bind fun _ => .pure And.right
  · exact .advance <| (pointee_gives hn h).bind fun _ => .pure And.right
  · exact .pure h

end

theorem designator_gives {v : Variable} (h : c → C.Declares v ∧ now.Has v.type) :
    Gives C now c (designator expression v) (Place.Typed C now) := by
  refine .line fun line => .loop (fun _ => selector_gives hn he And.right) fun hc => ?_
  obtain ⟨hdeclares, hhas⟩ := h hc
  exact ⟨⟨hdeclares, rfl, hn.has hhas⟩, hhas⟩

omit he in
theorem passTo_gives {param arg : TypeId} (h : c → now.Has param ∧ now.Has arg) :
    Gives C now c (passTo param arg) (C.types.Stores param arg) := by
  refine .types fun ts => ?_
  split
  · next hagg =>
    refine .require rfl <| .pure ?_
    rintro ⟨⟨hc, rfl⟩, hsame⟩
    obtain ⟨hparam, harg⟩ := h hc
    rw [TypeTable.Stores, hn.isAggregate hparam, if_pos hagg]
    exact ⟨(hn.formed.eq_of_same harg hagg hsame).symm, rfl⟩
  · next hagg =>
    have hscalar : ts.isAggregate param = false := by simpa using hagg
    refine (convert_gives hn (c := c ∧ ts = now) ?_).mono id ?_
    · rintro ⟨hc, rfl⟩
      exact ⟨(h hc).1, (h hc).2, hscalar⟩
    · rintro ⟨hc, rfl⟩ conversion hconversion
      obtain ⟨hparam, hhas⟩ := h hc
      rw [TypeTable.Stores, hn.isAggregate hparam, hscalar, hn.isAggregate hhas]
      exact hconversion

def Passed (C : Context) (params : List Field) (args : List Argument) : Prop :=
  ∀ (i : Nat) (a : Argument) (f : Field), args[i]? = some a → params[i]? = some f →
    ∃ t, a.expr.HasType C t ∧ C.types.Stores f.type t a.conversion

theorem argument_gives (hparams : c → ∀ f ∈ params, now.Has f.type) {args : List Argument}
    (h : c → Passed C params args) : Gives C now c (argument expression params args) (Passed C params) := by
  refine he.weaken.bind fun a => .bind (G := fun conversion => ∀ f, params[args.length]? = some f →
    C.types.Stores f.type a.type conversion) ?_ fun conversion => .line fun line => .pure ?_
  · cases hparam : params[args.length]? with
    | none => exact .pure fun _ f hf => nomatch hf
    | some param =>
      refine (passTo_gives hn ?_).mono id fun _ _ hstores f hf => Option.some.inj hf ▸ hstores
      rintro ⟨hc, ha⟩
      exact ⟨hparams hc _ (mem_of_getElem? hparam), ha.has⟩
  · rintro ⟨⟨hc, ha⟩, hstores⟩ i b f hi hf
    rw [List.getElem?_append] at hi
    split at hi
    · exact h hc i b f hi hf
    · next hlt =>
      obtain ⟨hlt', rfl⟩ := List.getElem?_eq_some_iff.mp hi
      have hiq : i = args.length := by
        simp only [length_cons, length_nil] at hlt'
        omega
      subst hiq
      simp only [Nat.sub_self, getElem_cons_zero]
      exact ⟨a.type, ha.expr, hstores f hf⟩

theorem arguments_gives (hparams : c → ∀ f ∈ params, now.Has f.type) :
    Gives C now c (arguments expression params) (Passed C params) := by
  have none : Passed C params [] := fun i a f hi => by simp at hi
  refine .token fun t => ?_
  split
  · exact .advance <| .bind (.separated (fun _ => argument_gives hn he (hparams ·.1) And.right) fun _ => none)
      fun args => .expect <| .pure And.right
  · exact .pure fun _ => none

omit hn he in
theorem Passed.haveTypes {args : List Argument} (h : Passed C params args) (hlen : args.length = params.length) :
    (Args.ofList args).HaveTypes C (params.map Field.type) := by
  induction args generalizing params with
  | nil =>
    rw [length_eq_zero_iff.mp hlen.symm]
    exact trivial
  | cons a rest ih =>
    cases params with
    | nil => simp at hlen
    | cons f params =>
      exact ⟨h 0 a f rfl rfl, ih (fun i b g hi hg => h (i + 1) b g hi hg) (by simpa using hlen)⟩

theorem callOf_gives {e : Scope.Entry Declaration} {r : Routine} (h : c → C.Offers now e.level r) :
    Gives C now c (callOf expression e r) fun x => C.Calls x.1 r ∧ x.2.1.HaveTypes C (r.params.map Field.type) := by
  refine (arguments_gives hn he fun hc => (h hc).params).bind fun args => .require rfl <| .level fun level => .line fun _ => .pure ?_
  rintro ⟨⟨⟨hc, hargs⟩, hlen⟩, rfl⟩
  exact ⟨(h hc).reached, hargs.haveTypes (of_decide_eq_true hlen)⟩

theorem namedFactor_gives : Gives C now c (namedFactor expression) (Operand.Typed C now) := by
  refine .resolve fun e => ?_
  split
  · next value type hvalue =>
    refine literal_gives hn ?_
    rintro ⟨-, hadmits⟩
    have := hadmits.value
    rwa [hvalue] at this
  · next offset type hvalue =>
    refine .bind (variableAt_gives type ?_) fun v => (designator_gives hn he ?_).bind
      fun place => .types fun ts => .line fun _ => .pure ?_
    · rintro ⟨-, hadmits⟩
      have := hadmits.value
      rw [hvalue] at this
      exact this.2
    · rintro ⟨⟨-, hadmits⟩, hdeclares, htype⟩
      have := hadmits.value
      rw [hvalue] at this
      exact ⟨hdeclares, htype ▸ this.1⟩
    · rintro ⟨⟨-, hplace⟩, rfl⟩
      exact ⟨⟨hplace.designator, (hn.size hplace.has).symm⟩, hplace.has⟩
  · next r hvalue =>
    refine .bind (callOf_gives hn he ?_) fun x => .pure ?_
    · rintro ⟨-, hadmits⟩
      have := hadmits.value
      rw [hvalue] at this
      exact this.1
    · rintro ⟨⟨-, hadmits⟩, hcalls, hargs⟩
      have := hadmits.value
      rw [hvalue] at this
      obtain ⟨-, t, hresult, hhas, hscalar⟩ := this
      rw [hresult]
      exact ⟨⟨r, hcalls, hresult, hn.has hhas, (hn.isAggregate hhas).trans hscalar, hargs⟩, hhas⟩
  · exact .report_bind rfl (.pure _)

omit he in
theorem applied_gives {function : Builtin} {arg : Operand} (h : c → arg.Typed C now) :
    Gives C now c (applied function arg) (Operand.Typed C now) := by
  refine .types fun ts => .line fun line => ?_
  dsimp only
  -- A check that the argument is acceptable, and the application.
  have checked {b : Bool} {p : Problem} (hp : p.isPointerBase = false) {type : TypeId} {bounds : Option Bounds}
      (haccepts : ts = now → now.Has arg.type → b = true → function.accepts (now.rootKind arg.type) = true)
      (htype : ts = now → now.Has arg.type → now.Has type ∧ type = function.resultTypeIn C.types arg.type)
      (hbounds : bounds = function.limits C.types arg.type) :
      Gives C now (c ∧ ts = now) (do
        require b p
        return ⟨.apply function arg.expr (ts.rootKind arg.type) bounds line, type⟩)
        (Operand.Typed C now) := by
    refine .require hp <| .pure ?_
    rintro ⟨⟨hc, hts⟩, hb⟩
    obtain ⟨hexpr, hhas⟩ := h hc
    obtain ⟨ht, heq⟩ := htype hts hhas
    rw [hts]
    exact ⟨⟨arg.type, hexpr, hn.rootKind hhas, haccepts hts hhas hb, heq, hbounds⟩, ht⟩
  have root (hts : ts = now) (hhas : now.Has arg.type) :
      now.Has (ts.root arg.type) ∧ ts.root arg.type = C.types.root arg.type :=
    hts.symm ▸ ⟨hn.formed.has_root hhas, (hn.root hhas).symm⟩
  have ordinal (hts : ts = now) (hhas : now.Has arg.type) (hb : ts.isOrdinal arg.type = true) :
      (now.rootKind arg.type).isOrdinal = true := by
    rw [hn.formed.rootKind hhas, ← hts]
    exact hb
  have neighbour (haccepts : function.accepts = TypeKind.isOrdinal)
      (hresult : function.resultTypeIn C.types arg.type = arg.type)
      (hlimits : function.limits C.types arg.type = C.types.neighbourBounds arg.type) :
      Gives C now (c ∧ ts = now) (if ts.isOrdinal arg.type then
        pure ⟨.apply function arg.expr (ts.rootKind arg.type) (ts.neighbourBounds arg.type) line, arg.type⟩
      else do
        report (.ordinalExpectedBy function)
        return arg) (Operand.Typed C now) := by
    split
    · next hord =>
      refine .pure ?_
      rintro ⟨hc, rfl⟩
      obtain ⟨hexpr, hhas⟩ := h hc
      refine ⟨⟨arg.type, hexpr, hn.rootKind hhas, ?_, hresult.symm, ?_⟩, hhas⟩
      · rw [haccepts]
        exact ordinal rfl hhas hord
      · rw [hlimits, hn.neighbourBounds hhas]
    · exact .report_bind rfl (.pure _)
  cases function with
  | abs | sqr => exact checked rfl (fun hts _ hb => hts ▸ hb) root rfl
  | sin | cos | arctan | exp | ln | sqrt | round | trunc | odd | chr =>
    exact checked rfl (fun hts _ hb => hts ▸ hb) (fun _ _ => ⟨hn.has_builtin (by decide), rfl⟩) rfl
  | ord => exact checked rfl ordinal (fun _ _ => ⟨hn.has_builtin (by decide), rfl⟩) rfl
  | pred | succ => exact neighbour rfl rfl rfl

theorem factor_gives {inner : Parser Operand} (hi : Gives C now True inner (Operand.Typed C now)) :
    Gives C now c (factor expression inner) (Operand.Typed C now) := by
  refine .get fun s => ?_
  dsimp only
  -- A literal is taken after its value is noted.
  have taken {value : Datum} {type : TypeId} {d : Prop} (ht : TypeTable.builtins.Has type)
      (hvalue : d → (TypeTable.builtins.kind type).holds value = true ∧ value.Bounded) :
      Gives C now d (do
        let operand ← literal value type
        advance
        return operand) (Operand.Typed C now) := by
    refine .bind (literal_gives hn fun hd => ?_) fun _ => .advance <| .pure And.right
    obtain ⟨hholds, hbounded⟩ := hvalue hd
    exact ⟨hn.has_builtin ht, by rw [hn.kind_builtin ht]; exact hholds, fun _ => hbounded⟩
  split
  · next htoken =>
    refine taken (by decide) ?_
    rintro ⟨-, hs, -⟩
    obtain ⟨n, hvalue, hbounded⟩ := (hs.lexemes s.current (by simp [State.lexemes])).integer htoken
    rw [hvalue]
    exact ⟨rfl, hbounded⟩
  · next htoken =>
    refine taken (by decide) ?_
    rintro ⟨-, hs, -⟩
    obtain ⟨x, hvalue⟩ := (hs.lexemes s.current (by simp [State.lexemes])).real htoken
    rw [hvalue]
    exact ⟨rfl, trivial⟩
  · exact .require rfl <| taken (by decide) fun _ => ⟨rfl, trivial⟩
  · exact taken (by decide) fun _ => ⟨rfl, trivial⟩
  · exact .advance <| he.weaken.bind fun _ => .expect <| .pure And.right
  · refine .advance <| hi.weaken.bind fun operand => .types fun ts =>
      .require rfl <| .line fun _ => .pure ?_
    rintro ⟨⟨⟨-, hexpr, hhas⟩, rfl⟩, hkind⟩
    have hrootKind : ts.kind (ts.root operand.type) = C.types.kind operand.type := hn.rootKind hhas
    refine ⟨⟨operand.type, hexpr, (hn.root hhas).symm, ?_⟩, hn.formed.has_root hhas⟩
    rw [← hrootKind]
    simpa using hkind
  · exact namedFactor_gives hn he
  · exact .advance <| .expect <| he.weaken.bind fun arg =>
      .expect <| applied_gives hn And.right
  · exact .report_bind rfl (.pure _)

end

theorem combine_gives {op : Operator} {left right : Operand} (hl : c → left.Typed C now)
    (hr : c → right.Typed C now) : Gives C now c (combine op left right) (Operand.Typed C now) := by
  refine .types fun ts => .require (isPointerBase_problem op) <| .line fun _ => .pure ?_
  rintro ⟨⟨hc, rfl⟩, hselect⟩
  obtain ⟨hleft, hl⟩ := hl hc
  obtain ⟨hright, hr⟩ := hr hc
  refine ⟨⟨left.type, right.type, hleft, hright, ?_, hselect, rfl⟩, hn.has_builtin (op.has_resultType _)⟩
  rw [hn.rootKind hl, hn.rootKind hr]

section

variable {factor : Parser Operand} (hf : Gives C now True factor (Operand.Typed C now))
include hf

theorem joined_gives {operator? : Token → Option Operator} {first : Operand}
    (h : c → first.Typed C now) : Gives C now c (joined operator? factor first) (Operand.Typed C now) := by
  refine .loop (fun left => .token fun t => ?_) h
  split
  · exact .advance <| hf.weaken.bind fun right =>
      (combine_gives hn (·.1.2) And.right).bind fun _ => .pure And.right
  · exact .pure And.right

theorem term_gives : Gives C now c (term factor) (Operand.Typed C now) :=
  hf.weaken.bind fun _ => joined_gives hn hf And.right

theorem signedTerm_gives : Gives C now c (signedTerm factor) (Operand.Typed C now) := by
  refine .token fun t => ?_
  split
  · refine .advance <| (term_gives hn hf).bind fun operand => .types fun ts =>
      .require rfl <| .line fun _ => .pure ?_
    rintro ⟨⟨⟨-, hexpr, hhas⟩, rfl⟩, hnumeric⟩
    rw [hn.rootKind hhas] at hnumeric
    exact ⟨⟨hexpr, hnumeric⟩, hhas⟩
  · exact term_gives hn hf

theorem simpleExpression_gives : Gives C now c (simpleExpression factor) (Operand.Typed C now) :=
  (signedTerm_gives hn hf).bind fun _ => joined_gives hn (term_gives hn hf) And.right

omit hf hn in
theorem kinds_of_comparable {ts : TypeTable} {left right : TypeId} (h : comparable ts left right = true) :
    OperandKinds.comparable ⟨ts.rootKind left, ts.rootKind right⟩ = true := by
  unfold comparable TypeTable.promote at h
  unfold OperandKinds.comparable TypeTable.rootKind
  simp only [Bool.and_eq_true] at h
  obtain ⟨hok, -⟩ := h
  split at hok
  · next h₁ h₂ => simp [h₁, h₂, TypeKind.isNumeric]
  · next h₁ h₂ => simp [h₁, h₂, TypeKind.isNumeric]
  · split at hok
    · cases hok
    · next hkinds =>
      split at hok
      · cases hok
      · split at hok
        · cases hok
        · next hagg => simp [Decidable.not_not.mp hkinds] at hagg ⊢; simp [hagg]

theorem expressionOf_gives : Gives C now c (expressionOf factor) (Operand.Typed C now) := by
  refine (simpleExpression_gives hn hf).bind fun left => .token fun t => ?_
  split
  · exact .pure And.right
  · refine .advance <| (simpleExpression_gives hn hf).bind fun right =>
      .types fun ts => .require rfl <| .require rfl <| .line fun _ => .pure ?_
    rintro ⟨⟨⟨⟨⟨-, hleft, hl⟩, hright, hr⟩, rfl⟩, hcompare⟩, -⟩
    have hboolean : ts.Has .boolean := hn.has_builtin (by decide)
    refine ⟨⟨left.type, right.type, hleft, hright, ?_, kinds_of_comparable hcompare, rfl⟩, hboolean⟩
    rw [hn.rootKind hl, hn.rootKind hr]

end

theorem factorWithin_gives (n : Nat) : Gives C now True (factorWithin n) (Operand.Typed C now) := by
  induction n with
  | zero => exact .exhaust _ _
  | succ n ih => exact factor_gives hn (expressionOf_gives hn ih) ih

theorem expression_gives : Gives C now c expression (Operand.Typed C now) :=
  .of_fuel fun k => expressionOf_gives hn (factorWithin_gives hn k)

end Parser

end MiniPascal
