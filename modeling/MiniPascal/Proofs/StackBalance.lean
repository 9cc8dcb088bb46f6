import MiniPascal.Proofs.Tree.Contexts

/-!
# Bodies are balanced

Every address of a body has one depth of the stack, whichever way leads there. A body starts with its local
variables, takes no operands from below them, and ends with its local variables alone on the stack. Main
statement: `compile_balanced`. It needs the words of every frame to be counted without wrapping around;
`compile_unbalanced` is a program whose local variables have too many words for that.
-/

namespace MiniPascal

/-- A depth of the stack for every address of a segment, as all ways through the code have it. The depth counts
from the end of the frame header. -/
structure Balanced (t : ProgramTree) (types : TypeTable) (code : List Instr) (g : Segment)
    (depth : Nat → Nat) : Prop where
  entry : depth g.start = 0
  /-- Local variables are reserved by the first instruction, unless there are none. -/
  enters : g.info.locals ≠ 0 → code[g.start]? = some (Opcode.enter.withInt g.info.locals) ∧ g.bodyStart = g.start + 1
  entered : (depth g.bodyStart : Int) = g.info.locals.toInt
  /-- Operands lie above the local variables. -/
  covers : ∀ a x, g.bodyStart ≤ a → a < g.stop → code[a]? = some x →
    0 ≤ x.consumes t.signatures ∧ depth g.bodyStart + x.consumes t.signatures ≤ depth a
  next : ∀ a x, g.start ≤ a → a + 1 < g.stop → code[a]? = some x → x.op ≠ .jump →
    (depth (a + 1) : Int) = depth a - x.consumes t.signatures + x.produces t.signatures
  jumps : ∀ a x, g.start ≤ a → a < g.stop → code[a]? = some x → x.op = .jump ∨ x.op = .jneq →
    ∃ b, x.arg = .integer (Int64.ofNat b) ∧ g.start ≤ b ∧ b < g.stop ∧
      (depth b : Int) = depth a - x.consumes t.signatures + x.produces t.signatures
  leaves : code[g.stop - 1]? = some g.leave ∧ depth (g.stop - 1) = depth g.bodyStart
  /-- A statement leaves the depth as it was. -/
  statements : ∀ (a : Nat) (s : Stmt), s.WellTyped (t.contextAt types False g) → g.bodyStart ≤ a →
    a + (s.code t.entries a).length < g.stop → instrs (s.code t.entries a) <+: code.drop a →
    depth (a + (s.code t.entries a).length) = depth a
  /-- An expression adds the words of its type. -/
  expressions : ∀ (a : Nat) (e : Expr) (ty : TypeId), e.HasType (t.contextAt types False g) ty →
    g.bodyStart ≤ a → a + (e.code t.entries).length < g.stop →
    instrs (e.code t.entries) <+: code.drop a →
    (depth (a + (e.code t.entries).length) : Int) = depth a + (types.size ty).toInt

namespace ProgramTree

variable {t : ProgramTree} {types : TypeTable}

def depthAt (t : ProgramTree) (types : TypeTable) (g : Segment) (a : Nat) : Nat :=
  if a < g.bodyStart then 0 else types.total g.info.vars + (t.stackAt types False g a).length

theorem depthAt_of_le {g : Segment} {a : Nat} (h : g.bodyStart ≤ a) :
    t.depthAt types g a = types.total g.info.vars + (t.stackAt types False g a).length :=
  if_neg (Nat.not_lt.mpr h)

section

variable (h : t.WellTyped types False) {g : Segment} (hg : g ∈ t.segments)
  (hlaid : (t.contextAt types False g).Laid t.signatures t.entries)

include h hg hlaid

/-- An instruction of the statements changes the depth by the words that it takes and leaves. -/
theorem depthAt_succ {i : Nat} {x : Instr} (hx : (g.statements t.entries)[i]? = some x) : 0 ≤ x.consumes t.signatures ∧
      types.total g.info.vars + x.consumes t.signatures ≤ t.depthAt types g (g.bodyStart + i) ∧
      (t.depthAt types g (g.bodyStart + i + 1) : Int) =
        t.depthAt types g (g.bodyStart + i) - x.consumes t.signatures + x.produces t.signatures := by
  obtain ⟨hmeets, heffect⟩ := h.meets_statements hg hlaid hx
  have hlength := hmeets.length_effect
  have henough := hmeets.enough
  rw [← heffect] at hlength
  rw [depthAt_of_le (by omega), depthAt_of_le (by omega)]
  refine ⟨hmeets.nonneg, ?_, ?_⟩ <;> omega

theorem WellTyped.balanced (hlocals : types.total g.info.vars < 2 ^ 63) :
    Balanced t types (instrs t.code) g (t.depthAt types g) := by
  have hstop := g.stop_eq t.entries
  have hstart : g.start ≤ g.bodyStart := Nat.le_add_right _ _
  have hlast : g.stop - 1 = g.bodyStart + (g.statements t.entries).length := by omega
  have hbottom : t.depthAt types g g.bodyStart = types.total g.info.vars := by
    rw [depthAt_of_le (Nat.le_refl _), stackAt_start]
    rfl
  have hend : t.depthAt types g (g.bodyStart + (g.statements t.entries).length) =
      types.total g.info.vars := by
    rw [depthAt_of_le (by omega), h.stackAt_end hg hlaid]
    rfl
  have hleave : g.leave.consumes t.signatures = 0 ∧ g.leave.op.isJump = false := by
    unfold Segment.leave
    split <;> exact ⟨rfl, rfl⟩
  have htoInt := h.toInt_locals hg hlaid hlocals
  constructor
  case entry =>
    by_cases hzero : g.start < g.bodyStart
    · exact if_pos hzero
    · have hsame : g.bodyStart = g.start := by omega
      rw [← hsame, hbottom]
      by_cases hnone : g.info.locals = 0
      · rw [hnone, Word.toInt_zero] at htoInt
        omega
      · have := (getElem?_entry hg hnone).2
        omega
  case enters => exact getElem?_entry hg
  case entered => rw [hbottom, htoInt]
  case covers =>
    intro a x hle hlt hx
    rw [hbottom]
    rcases address_cases hg (Nat.le_trans hstart hle) hlt with ⟨rfl, hnext, -⟩ | ⟨i, hi, rfl, hget⟩ | ⟨rfl, hget⟩
    · omega
    · obtain ⟨hnonneg, hcovers, -⟩ := depthAt_succ h hg hlaid (hget ▸ hx)
      exact ⟨hnonneg, hcovers⟩
    · rw [hget, Option.some.injEq] at hx
      rw [← hx, hleave.1, hend]
      omega
  case next =>
    intro a x hle hlt hx _
    rcases address_cases hg hle (by omega) with ⟨rfl, hnext, hget⟩ | ⟨i, hi, rfl, hget⟩ | ⟨rfl, hget⟩
    · rw [hget, Option.some.injEq] at hx
      rw [← hx, ← hnext, hbottom]
      show _ = ((t.depthAt types g g.start : Nat) : Int) - 0 + g.info.locals.toInt
      rw [depthAt, if_pos (by omega), htoInt]
      omega
    · exact (depthAt_succ h hg hlaid (hget ▸ hx)).2.2
    · omega
  case jumps =>
    intro a x hle hlt hx hop
    have hjump : x.op.isJump = true := by
      rcases hop with hop | hop <;> rw [hop] <;> rfl
    rcases address_cases hg hle hlt with ⟨rfl, hnext, hget⟩ | ⟨i, hi, rfl, hget⟩ | ⟨rfl, hget⟩
    · rw [hget, Option.some.injEq] at hx
      rw [← hx] at hjump
      cases hjump
    · obtain ⟨j, hj, harg, hstack⟩ := h.joins_statements hg hlaid (hget ▸ hx) hjump
      refine ⟨g.bodyStart + j, harg, by omega, by omega, ?_⟩
      have hdepth := (depthAt_succ h hg hlaid (hget ▸ hx)).2.2
      rw [depthAt_of_le (by omega : g.bodyStart ≤ g.bodyStart + i + 1), ← hstack] at hdepth
      rwa [depthAt_of_le (by omega)]
    · rw [hget, Option.some.injEq] at hx
      rw [← hx, hleave.2] at hjump
      cases hjump
  case leaves =>
    rw [hlast, hend, hbottom]
    exact ⟨getElem?_leave hg, rfl⟩
  case statements =>
    intro a s hs hle hlt hpiece
    have hstack : t.stackAt types False g _ = _ :=
      stackAt_piece hg hle (by rw [length_instrs]; exact hlt) hpiece
    rw [(Stmt.turns_code hlaid hs a _).1.scan_eq, length_instrs] at hstack
    rw [depthAt_of_le (by omega), depthAt_of_le hle, hstack]
  case expressions =>
    intro a e ty he hle hlt hpiece
    have hstack : t.stackAt types False g _ = _ :=
      stackAt_piece hg hle (by rw [length_instrs]; exact hlt) hpiece
    obtain ⟨vs, hlength, hvs⟩ := e.turns_code hlaid he (t.stackAt types False g a)
    rw [hvs.scan_eq, length_instrs] at hstack
    rw [depthAt_of_le (by omega), depthAt_of_le hle, hstack, List.length_append, hlength]
    have := hlaid.words_eq (hlaid.formed.has_expr e he)
    show _ = _ + ((t.contextAt types False g).types.size ty).toInt
    omega

end

end ProgramTree

/-- The bodies of a source without diagnostics are balanced, if every type has words and neither the local
variables nor the parameters of a block are more words than can be counted. -/
theorem compile_balanced {source : Text} (h : (analyse source).2.diagnostics = [])
    (hlength : (analyse source).1.code.length < 2 ^ 63)
    (hsized : ∀ ty, (analyse source).2.types.Has ty → 1 ≤ ((analyse source).2.types.size ty).toInt)
    (hframes : ∀ g ∈ (analyse source).1.segments, (analyse source).2.types.total g.info.vars < 2 ^ 63 ∧
      (analyse source).2.types.total g.info.routine.params < 2 ^ 63) :
    ∃ p, (compile source).result = .ok p ∧ ∀ g ∈ (analyse source).1.segments, ∃ depth,
      Balanced (analyse source).1 (analyse source).2.types p.code.toList g depth := by
  have htyped := Parser.analyse_wellTyped False h False.elim False.elim False.elim
  obtain ⟨p, hresult, hcode⟩ := compile_instrs h
  refine ⟨p, hresult, fun g hg => ⟨(analyse source).1.depthAt (analyse source).2.types g, ?_⟩⟩
  have hlaid := htyped.laid hlength hsized (fun f hf => (hframes f hf).2) (fun hx => hx.elim) hg
  rw [hcode]
  exact htyped.balanced hg hlaid (hframes g hg).1

/-- A function that calls itself, a counting loop with a limit of its own, and records behind a pointer. -/
def factorialSource : Text := Text.ofChars
  (["program p; type r = record a, b: integer end; ", "var x: r; q: ^r; i: integer; ",
    "function f(n: integer): integer; ", "begin if n = 0 then f := 1 else f := n * f(n - 1) end; ",
    "begin new(q); q^ := x; for i := 1 to f(3) do ", "writeln(i: 4); dispose(q) end."].flatMap String.toList)

theorem compile_balanced_factorial : (analyse factorialSource).2.diagnostics = [] ∧
    ∃ p, (compile factorialSource).result = .ok p ∧ ∀ g ∈ (analyse factorialSource).1.segments, ∃ depth,
      Balanced (analyse factorialSource).1 (analyse factorialSource).2.types p.code.toList g depth := by
  have hfacts : (analyse factorialSource).2.diagnostics = [] ∧
      (analyse factorialSource).1.code.length < 2 ^ 63 ∧
      (∀ d ∈ (analyse factorialSource).2.types.descs.toList, 1 ≤ d.size.toInt) ∧
      ∀ g ∈ (analyse factorialSource).1.segments,
        (analyse factorialSource).2.types.total g.info.vars < 2 ^ 63 ∧
        (analyse factorialSource).2.types.total g.info.routine.params < 2 ^ 63 := by decide +kernel
  obtain ⟨hdiagnostics, hlength, hsizes, hframes⟩ := hfacts
  refine ⟨hdiagnostics, compile_balanced hdiagnostics hlength (fun ty hty => ?_) hframes⟩
  exact hsizes _ (Array.mem_toList_iff.mpr (Array.mem_of_getElem? hty.getElem?))

/-- Eight variables, of which each has an eighth of the words that cannot be counted any more. -/
def wideSource : Text := Text.ofChars ("program p;var a,b,c,d,e,f,g,h:".toList ++
  (List.replicate 10 "record a,b,c,d,e,f,g,h:".toList).flatten ++ "array[1..1073741824]of char".toList ++
  (List.replicate 10 " end".toList).flatten ++ ";begin end.".toList)

/-- The number of local words wraps around although every type has a size, and a negative number of words is
reserved. -/
theorem compile_unbalanced : (analyse wideSource).2.diagnostics = [] ∧
    (∀ ty, (analyse wideSource).2.types.Has ty → 1 ≤ ((analyse wideSource).2.types.size ty).toInt) ∧
    ∃ p, (compile wideSource).result = .ok p ∧ ∃ g ∈ (analyse wideSource).1.segments, ∀ depth,
      ¬Balanced (analyse wideSource).1 (analyse wideSource).2.types p.code.toList g depth := by
  have hfacts : (analyse wideSource).2.diagnostics = [] ∧
      (∀ d ∈ (analyse wideSource).2.types.descs.toList, 1 ≤ d.size.toInt) ∧
      ∃ g ∈ (analyse wideSource).1.segments, g.info.locals.toInt = -9223372036854775808 := by decide +kernel
  obtain ⟨hdiagnostics, hsizes, g, hg, hlocals⟩ := hfacts
  obtain ⟨p, hresult, -⟩ := compile_instrs hdiagnostics
  refine ⟨hdiagnostics, fun ty hty => ?_, p, hresult, g, hg, fun depth h => ?_⟩
  · exact hsizes _ (Array.mem_toList_iff.mpr (Array.mem_of_getElem? hty.getElem?))
  · have := h.entered
    omega

end MiniPascal
