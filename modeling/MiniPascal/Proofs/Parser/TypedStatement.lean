import MiniPascal.Proofs.Parser.TypedExpression

/-!
# Statements that are accepted are typed

The analysis of a statement in a state that obeys the typing rules yields a typed tree, unless it reports a problem.
-/

namespace MiniPascal

open List

theorem TypeTable.scalar_of_ordinal {ts : TypeTable} {t : TypeId} (h : ts.isOrdinal t = true) :
    ts.isAggregate t = false := by
  unfold isOrdinal isAggregate at *
  cases hk : ts.kind t <;> simp_all [TypeKind.isOrdinal, TypeKind.isAggregate]

theorem Stmt.typed_ofList {C : Context} {statements : List Stmt} (h : ∀ s ∈ statements, s.WellTyped C) :
    (Stmt.ofList statements).WellTyped C := by
  induction statements with
  | nil => exact trivial
  | cons s rest ih =>
    obtain ⟨hs, hrest⟩ := forall_mem_cons.mp h
    exact ⟨hs, ih hrest⟩

theorem Stmt.typed_append {C : Context} {body : List Stmt} {next : Stmt} (h : ∀ s ∈ body, s.WellTyped C)
    (hnext : next.WellTyped C) : ∀ s ∈ body ++ [next], s.WellTyped C :=
  forall_mem_append.mpr ⟨h, forall_mem_singleton.mpr hnext⟩

namespace Parser

variable {C : Context} {now : TypeTable} {c : Prop} (hn : C.Stage now) {e : Scope.Entry Declaration}

include hn

theorem assignment_gives {place : Place} {value : Operand} (hp : c → place.Typed C now)
    (hv : c → value.Typed C now) : Gives C now c (assignment place value) (Stmt.WellTyped C) := by
  refine .types fun ts => ?_
  split
  · next hagg =>
    split
    · next hsame =>
      refine .line fun _ => .pure ?_
      rintro ⟨hc, rfl⟩
      obtain ⟨hplace, hp⟩ := hp hc
      obtain ⟨hvalue, hv⟩ := hv hc
      refine ⟨place.type, hplace, (hn.isAggregate hp).trans hagg, (hn.size hp).symm, ?_⟩
      rw [hn.formed.eq_of_same hv hagg hsame]
      exact hvalue
    · exact .report_bind rfl (.pure _)
  · next hagg =>
    have hscalar : ts.isAggregate place.type = false := by simpa using hagg
    refine .bind (convert_gives hn ?_) fun conversion => .line fun _ => .pure ?_
    · rintro ⟨hc, rfl⟩
      exact ⟨(hp hc).has, (hv hc).has, hscalar⟩
    · rintro ⟨⟨hc, rfl⟩, hsource, hguards⟩
      obtain ⟨hplace, hp⟩ := hp hc
      obtain ⟨hvalue, hv⟩ := hv hc
      exact ⟨⟨place.type, hplace, (hn.isAggregate hp).trans hscalar, hguards⟩,
        value.type, hvalue, (hn.isAggregate hv).trans hsource⟩

theorem resultStatement_gives (hC : C.Coherent) {r : Routine} (h : c → C.Allows now e.level (.function r)) :
    Gives C now c (resultStatement e r) (Stmt.WellTyped C) := by
  refine .get fun s => ?_
  dsimp only
  split
  · next hbecomes =>
    refine .read becomes_reads fun _ => (expression_gives hn).bind fun value =>
      .bind (convert_gives hn ?_) fun conversion => .line fun _ => .pure ?_
    · rintro ⟨⟨hc, -⟩, hvalue⟩
      obtain ⟨-, t, hresult, hhas, hscalar⟩ := h hc
      rw [hresult]
      exact ⟨hhas, hvalue.has, hscalar⟩
    · rintro ⟨⟨⟨hc, hs, -⟩, hvalue⟩, hsource, hguards⟩
      obtain ⟨hoffers, t, hresult, hhas, hscalar⟩ := h hc
      obtain ⟨k, hhops, hk, -, -, hknown⟩ := hoffers.reached
      have hmem : r.id ∈ C.ids := by
        simp only [Bool.and_eq_true, hs.enclosing, contains_iff_mem] at hbecomes
        exact hbecomes.2
      obtain ⟨j, l, rfl, hl, rfl⟩ := hC.level_of_known hk hknown hmem
      rw [hresult] at hguards
      have hscalar := (hn.isAggregate hhas).trans hscalar
      have hreturns : C.Returns (s.level - e.level - 1) t := by
        refine ⟨j, l, ?_, hl, hresult⟩
        rw [hs.level]
        simp only at hhops
        omega
      exact ⟨⟨t, ⟨hreturns, hn.has hhas, hscalar⟩, hscalar, hguards⟩, value.type, hvalue.expr,
        (hn.isAggregate hvalue.has).trans hsource⟩
  · exact .report_bind rfl ((callOf_gives hn (expression_gives hn) (c := False) nofun).reads.bind fun _ => .pure _)

theorem namedStatement_gives (hC : C.Coherent) : Gives C now c namedStatement (Stmt.WellTyped C) := by
  refine .resolve fun e => ?_
  split
  · next offset type hvalue =>
    refine .bind (variableAt_gives type ?_) fun v =>
      (designator_gives hn (expression_gives hn) ?_).bind fun place => .read becomes_reads fun _ =>
      (expression_gives hn).bind fun value => assignment_gives hn (·.1.2) And.right
    · rintro ⟨-, hadmits⟩
      have := hadmits.value
      rw [hvalue] at this
      exact this.2
    · rintro ⟨⟨-, hadmits⟩, hdeclares, htype⟩
      have := hadmits.value
      rw [hvalue] at this
      exact ⟨hdeclares, htype ▸ this.1⟩
  · next r hvalue =>
    refine .bind (callOf_gives hn (expression_gives hn) ?_) fun x => .pure ?_
    · rintro ⟨-, hadmits⟩
      have := hadmits.value
      rw [hvalue] at this
      exact this.1
    · rintro ⟨⟨-, hadmits⟩, hcalls, hargs⟩
      have := hadmits.value
      rw [hvalue] at this
      exact ⟨r, hcalls, this.2, hargs⟩
  · next r hvalue =>
    refine resultStatement_gives hn hC ?_
    rintro ⟨-, hadmits⟩
    have := hadmits.value
    rwa [hvalue] at this
  · exact .report_bind rfl (.pure _)

theorem condition_gives : Gives C now c condition fun x => x.1.HasKind C .boolean := by
  refine (expression_gives hn).bind fun operand => .types fun ts => .require rfl <| .line fun _ => .pure ?_
  rintro ⟨⟨⟨-, hexpr, hhas⟩, rfl⟩, hkind⟩
  exact ⟨operand.type, hexpr, (hn.rootKind hhas).symm.trans (of_decide_eq_true hkind)⟩

theorem formatArguments_gives (n : Nat) : Gives C now c (formatArguments n) fun format =>
    format.length ≤ n ∧ ∀ e ∈ format, e.HasKind C .integer := by
  induction n generalizing c with
  | zero => exact .pure fun _ => by simp
  | succ n ih =>
    refine .token fun t => ?_
    split
    · refine .advance <| (expression_gives hn).bind fun width => .types fun ts =>
        .require rfl <| ih.bind fun rest => .pure ?_
      rintro ⟨⟨⟨⟨-, hexpr, hhas⟩, rfl⟩, hkind⟩, hlen, hrest⟩
      refine ⟨Nat.succ_le_succ hlen, fun e hmem => ?_⟩
      rcases mem_cons.mp hmem with rfl | hmem
      · exact ⟨width.type, hexpr, (hn.rootKind hhas).symm.trans (of_decide_eq_true hkind)⟩
      · exact hrest e hmem
    · exact .pure fun _ => by simp

theorem writeArgument_gives {written : List Stmt} (h : c → ∀ s ∈ written, s.WellTyped C) :
    Gives C now c (writeArgument written) fun written => ∀ s ∈ written, s.WellTyped C := by
  refine .get fun s => ?_
  split
  · exact .advance <| .pure fun hc => Stmt.typed_append (h hc.1) trivial
  · refine (expression_gives hn).bind fun value => .types fun ts =>
      .require rfl <| (formatArguments_gives hn 2).bind fun format =>
      .line fun _ => .pure ?_
    rintro ⟨⟨⟨⟨⟨hc, -⟩, hexpr, hhas⟩, rfl⟩, hscalar⟩, hlen, hformat⟩
    refine Stmt.typed_append (h hc) ⟨⟨value.type, hexpr, ?_⟩, hlen, hformat⟩
    rw [hn.isAggregate hhas]
    simpa using hscalar

theorem writeArguments_gives : Gives C now c writeArguments fun written => ∀ s ∈ written, s.WellTyped C := by
  refine .token fun t => ?_
  split
  · exact .advance <| .bind (.separated (fun _ => writeArgument_gives hn And.right) fun _ => by simp) fun _ =>
      .expect <| .pure And.right
  · exact .pure fun _ => by simp

theorem writeStatement_gives (newline : Bool) : Gives C now c (writeStatement newline) (Stmt.WellTyped C) := by
  refine .advance <| (writeArguments_gives hn).bind fun written => ?_
  split
  · exact .line fun _ => .pure fun hc => Stmt.typed_ofList (Stmt.typed_append hc.2 trivial)
  · exact .pure fun hc => Stmt.typed_ofList hc.2

omit hn in
theorem variableOr_gives (h : c → C.Admits now e) :
    Gives C now c (variableOr .notAVariable e) fun v => C.Declares v ∧ now.Has v.type := by
  unfold variableOr
  split
  · next offset type hvalue =>
    have hallows (hc : c) : C.Allows now e.level (.variable offset type) := hvalue ▸ (h hc).value
    refine (variableAt_gives _ fun hc => (hallows hc).2).mono id ?_
    rintro hc v ⟨hdeclares, rfl⟩
    exact ⟨hdeclares, (hallows hc).1⟩
  · exact .report_bind rfl (variableAt_reads _ _ _)

theorem heapOperation_gives (allocates : Bool) {place : Place} (h : c → place.Typed C now) :
    Gives C now c (heapOperation allocates place) (Stmt.WellTyped C) := by
  refine .types fun ts => ?_
  dsimp only
  split
  · next base hkind hbase =>
    have pointer (hc : c ∧ ts = now) :
        ¬C.exact ∧ ∃ t, place.designator.HasType C t ∧ C.types.kind t = .pointer := by
      obtain ⟨hc, rfl⟩ := hc
      obtain ⟨hplace, hhas⟩ := h hc
      exact ⟨((hn.formed _ _ hhas.getElem?).target hkind base hbase).1, place.type, hplace, (hn.kind hhas).trans hkind⟩
    split
    · exact .line fun _ => .pure pointer
    · exact .line fun _ => .pure pointer
  · exact .report_bind rfl (.pure _)

theorem heapStatement_gives (allocates : Bool) : Gives C now c (heapStatement allocates) (Stmt.WellTyped C) := by
  refine .advance <| .expect <| .token fun t => ?_
  split
  · exact .resolve fun e => (variableOr_gives And.right).bind fun v =>
      (designator_gives hn (expression_gives hn) And.right).bind fun place =>
      (heapOperation_gives hn allocates And.right).bind fun _ => .expect <| .pure And.right
  · exact .report_bind rfl (.pure _)

theorem controlVariable_gives (h : c → C.Admits now e) :
    Gives C now c (controlVariable e) fun v => C.Declares v ∧ now.Has v.type ∧ now.isOrdinal v.type = true := by
  refine .types fun ts => ?_
  split
  · next offset type hvalue =>
    have hallows (hc : c) : C.Allows now e.level (.variable offset type) := hvalue ▸ (h hc).value
    split
    · next hord =>
      refine (variableAt_gives _ fun hc => (hallows hc.1).2).mono id ?_
      rintro ⟨hc, rfl⟩ v ⟨hdeclares, rfl⟩
      exact ⟨hdeclares, (hallows hc).1, hord⟩
    · exact .report_bind rfl (variableAt_reads _ _ _)
  · exact .report_bind rfl (variableAt_reads _ _ _)

section

variable {statement : Parser Stmt} (hs : Gives C now True statement (Stmt.WellTyped C))
include hs

theorem ifStatement_gives : Gives C now c (ifStatement statement) (Stmt.WellTyped C) := by
  refine .advance <| (condition_gives hn).bind fun x => .expect <| hs.weaken.bind fun body => .token fun t => ?_
  split
  · refine .advance <| .line fun _ => hs.weaken.bind fun _ => .pure ?_
    rintro ⟨⟨⟨-, hkind⟩, hbody⟩, halternative⟩
    exact ⟨hkind, hbody, halternative⟩
  · exact .pure fun hc => ⟨hc.1.2, hc.2⟩

theorem whileStatement_gives : Gives C now c (whileStatement statement) (Stmt.WellTyped C) :=
  .advance <| (condition_gives hn).bind fun _ => .expect <| hs.weaken.bind fun _ => .line fun _ =>
    .pure fun hc => ⟨hc.1.2, hc.2⟩

theorem repeatStatement_gives : Gives C now c (repeatStatement statement) (Stmt.WellTyped C) := by
  refine .advance <| .bind (.separated (I := fun body => ∀ s ∈ body, s.WellTyped C) (fun _ => ?_) fun _ => by simp)
    fun body => .expect <| (condition_gives hn).bind fun x => .pure ?_
  · exact hs.weaken.bind fun next => .pure fun hc => Stmt.typed_append hc.1.2 hc.2
  · exact fun hc => ⟨Stmt.typed_ofList hc.1.2, hc.2⟩

/-- The limit of a loop is as good as its control variable. -/
theorem forStatement_gives : Gives C now c (forStatement statement) (Stmt.WellTyped C) := by
  refine .advance <| .token fun t => ?_
  split
  · refine .resolve fun e => (controlVariable_gives hn And.right).bind fun v => .line fun _ =>
      .read becomes_reads fun _ => (expression_gives hn).bind fun start =>
      .bind (convert_gives hn ?_) fun conversion => .line fun _ =>
      .read direction_reads fun _ => (expression_gives hn).bind fun limit => .types fun ts =>
      .require rfl <| .line fun _ => .expect <| hs.weaken.bind fun body => .line fun _ => .pure ?_
    · rintro ⟨⟨-, -, hhas, hord⟩, hstart⟩
      exact ⟨hhas, hstart.has, TypeTable.scalar_of_ordinal hord⟩
    · rintro ⟨⟨⟨⟨⟨⟨⟨-, hdeclares, hhas, hord⟩, hstart⟩, hscalar, hguards⟩, hlimit⟩, rfl⟩, hsame⟩, hbody⟩
      have hkind := hn.formed.kind_of_same hhas hlimit.has hsame
      refine ⟨hdeclares, hn.has hhas, ⟨?_, hguards⟩, ⟨start.type, hstart.expr, ?_⟩, ⟨limit.type, hlimit.expr, ?_⟩,
        hbody⟩
      · rw [TypeTable.isOrdinal, hn.kind hhas]
        exact hord
      · exact (hn.isAggregate hstart.has).trans hscalar
      · rw [hn.isAggregate hlimit.has, TypeTable.isAggregate, ← hkind]
        exact TypeTable.scalar_of_ordinal hord
  · exact .report_bind rfl (.pure _)

omit hn hs in
theorem sequenceEnd_gives {body : List Stmt} (h : c → ∀ s ∈ body, s.WellTyped C) :
    Gives C now c (sequenceEnd body) fun r => ∀ s ∈ r.2, s.WellTyped C := by
  refine .token fun t => ?_
  split
  · exact .advance <| .pure h
  · exact .advance <| .pure h
  · refine .report_bind rfl ?_
    split
    · exact .pure _
    · exact (advanceIf_reads _).bind fun _ => .pure _

omit hn in
theorem compound_gives : Gives C now c (compound statement) (Stmt.WellTyped C) := by
  refine .expect <| .bind (.loop (I := fun body => ∀ s ∈ body, s.WellTyped C) (fun body => ?_) fun _ => by simp)
    fun body => .pure fun hc => Stmt.typed_ofList hc.2
  exact hs.weaken.bind fun next => sequenceEnd_gives fun hc => Stmt.typed_append hc.1.2 hc.2

theorem statementOf_gives (hC : C.Coherent) : Gives C now c (statementOf statement) (Stmt.WellTyped C) := by
  refine .token fun t => ?_
  split
  · exact namedStatement_gives hn hC
  · exact compound_gives hs
  · exact ifStatement_gives hn hs
  · exact whileStatement_gives hn hs
  · exact repeatStatement_gives hn hs
  · exact forStatement_gives hn hs
  · exact writeStatement_gives hn false
  · exact writeStatement_gives hn true
  · exact heapStatement_gives hn true
  · exact heapStatement_gives hn false
  · exact .pure fun _ => trivial

end

theorem statementWithin_gives (hC : C.Coherent) (n : Nat) :
    Gives C now True (statementWithin n) (Stmt.WellTyped C) := by
  induction n with
  | zero => exact .exhaust _ _
  | succ n ih => exact statementOf_gives hn ih hC

theorem body_gives (hC : C.Coherent) : Gives C now c body (Stmt.WellTyped C) :=
  .of_fuel fun k => compound_gives (statementWithin_gives hn hC k)

end Parser

end MiniPascal
