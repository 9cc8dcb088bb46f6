import MiniPascal.Proofs.Compile
import MiniPascal.Proofs.Delivery
import MiniPascal.Proofs.Lexeme.Written
import MiniPascal.Proofs.Machine.Arrival

/-!
# String literals reach the output

A text is put between quotes, with its own quotes doubled, and a program writes it as a line. The literal is read back as
the text; a literal of one byte is a character, which is computed like any other value, and all others are written byte
by byte, but the code is the same. Its run prints the text and the end of the line.
-/

namespace MiniPascal

open List Machine Text

open Lexeme (doubled)

def lineHead : Text := ofChars "program p;begin writeln(".toList

def lineTail : Text := ofChars ")end.".toList

def lineProgram (text : Text) : Text := lineHead ++ 39 :: (doubled text ++ 39 :: lineTail)

def lineLexemes (text : Text) (pos : Nat) : List Lexeme :=
  [{ token := .kwProgram, text := ofChars "program".toList, pos := 0, line := 1 },
    { token := .identifier, text := [112], pos := 8, line := 1 }, { token := .semicolon, pos := 9, line := 1 },
    { token := .kwBegin, text := ofChars "begin".toList, pos := 10, line := 1 },
    { token := .kwWriteln, text := ofChars "writeln".toList, pos := 16, line := 1 },
    { token := .leftParen, pos := 23, line := 1 }, { token := .stringLiteral, text, pos := 24, line := 1 },
    { token := .rightParen, pos := pos, line := 1 },
    { token := .kwEnd, text := ofChars "end".toList, pos := pos + 1, line := 1 },
    { token := .period, pos := pos + 4, line := 1 }, { token := .endOfFile, pos := pos + 5, line := 1 }]

theorem lexemes_cons {c : Cursor} {l : Lexeme} (c' : Cursor) (h : c.next = (l, c')) (hl : l.token ≠ .endOfFile) {n : Nat}
    {rest : List Lexeme} (hrest : Cursor.lexemes n c' = rest) : Cursor.lexemes (n + 1) c = l :: rest := by
  rw [Cursor.lexemes, h, ← hrest]
  exact if_neg hl

variable {text : Text}

theorem scan_lineProgram (hline : 10 ∉ text) :
    Lexeme.scan (lineProgram text) = lineLexemes text ((doubled text).length + 26) := by
  have hlength : (lineProgram text).length = (doubled text).length + 31 := by
    simp [lineProgram, lineHead, lineTail, ofChars]
  have hliteral : Cursor.next ⟨39 :: (doubled text ++ 39 :: lineTail), 24, 1⟩ =
      ({ token := .stringLiteral, text, pos := 24, line := 1 }, ⟨lineTail, (doubled text).length + 26, 1⟩) := by
    have hmatch : Lexeme.matchAt 39 (doubled text ++ 39 :: lineTail) =
        { token := .stringLiteral, text, length := (doubled text).length + 2 } := by
      show Lexeme.matchString _ = _
      rw [Lexeme.matchString, Lexeme.stringContents_doubled hline (by decide)]
      rfl
    have hnext (rest : Text) : Cursor.next ⟨39 :: rest, 24, 1⟩ =
      ({ token := (Lexeme.matchAt 39 rest).token, text := (Lexeme.matchAt 39 rest).text, pos := 24, line := 1,
         value := (Lexeme.matchAt 39 rest).value },
        ⟨(39 :: rest).drop (Lexeme.matchAt 39 rest).length, 24 + (Lexeme.matchAt 39 rest).length, 1⟩) := rfl
    have hdrop : (39 :: (doubled text ++ 39 :: lineTail)).drop ((doubled text).length + 2) = lineTail := by
      rw [drop_succ_cons, drop_length_add_append, drop_succ_cons, drop_zero]
    rw [hnext, hmatch]
    dsimp only
    rw [hdrop, Nat.add_comm 24]
  rw [Lexeme.scan, hlength, lineProgram]
  generalize 39 :: (doubled text ++ 39 :: lineTail) = rest at hliteral
  generalize (doubled text).length = n at hliteral
  refine lexemes_cons ⟨lineHead.drop 7 ++ rest, 7, 1⟩ rfl (by decide) ?_
  refine lexemes_cons ⟨lineHead.drop 9 ++ rest, 9, 1⟩ rfl (by decide) ?_
  refine lexemes_cons ⟨lineHead.drop 10 ++ rest, 10, 1⟩ rfl (by decide) ?_
  refine lexemes_cons ⟨lineHead.drop 15 ++ rest, 15, 1⟩ rfl (by decide) ?_
  refine lexemes_cons ⟨lineHead.drop 23 ++ rest, 23, 1⟩ rfl (by decide) ?_
  refine lexemes_cons ⟨rest, 24, 1⟩ rfl (by decide) ?_
  exact lexemes_cons _ hliteral (by simp) rfl

def writeByte (b : UInt8) : List Instr := [{ op := .push, arg := .character b }, { op := .write }]

def lineCode (text : Text) : List Instr :=
  { op := .call, arg := .integer 2 } :: { op := .halt } :: (text.flatMap writeByte ++ [{ op := .writeln }, { op := .ret }])

/-- The program with a statement in its only block. -/
def lineTree (body : Stmt) : ProgramTree :=
  { name := [112], headingLine := 1, main := ⟨0⟩
    blocks := .cons { routine := { id := ⟨0⟩ }, vars := [], locals := 0, enterLine := 1, exitLine := 1 } .nil body .nil }

/-- A text of one byte is an expression, any other one is written as it is. -/
def writeLiteral : Text → Stmt
  | [b] => .write (.literal (.character b) .char 1) [] 1
  | text => .writeText text 1

def lineAnalysis (text : Text) (pos : Nat) : ProgramTree × Parser.State :=
  Parser.program (.view (lineLexemes text pos) { current := { token := .endOfFile, pos := 0, line := 0 } })

theorem lineAnalysis_eq (text : Text) (pos : Nat) : (lineAnalysis text pos).2.diagnostics = [] ∧
    (lineAnalysis text pos).1 = lineTree (.ofList [.ofList [writeLiteral text, .writeln 1]]) := by
  rcases text with _ | ⟨b, _ | ⟨c, rest⟩⟩ <;> constructor <;> rfl

theorem analyse_lineProgram (hline : 10 ∉ text) :
    analyse (lineProgram text) = lineAnalysis text ((doubled text).length + 26) := by
  rw [Parser.analyse_run, Parser.State.ofSource, scan_lineProgram hline, lineAnalysis]

theorem code_lineTree (text : Text) :
    (lineTree (.ofList [.ofList [writeLiteral text, .writeln 1]])).code.map Emission.instr = lineCode text := by
  have hbody (body : Stmt) : (lineTree body).code.map Emission.instr = { op := .call, arg := .integer 2 } :: { op := .halt } ::
      ((body.code (lineTree body).entries 2).map Emission.instr ++ [{ op := .ret }]) := by
    simp [lineTree, ProgramTree.code, Blocks.code, BlockInfo.code]
    rfl
  have hliteral (entries : Entries) (here : Nat) :
      ((writeLiteral text).code entries here).map Emission.instr = text.flatMap writeByte := by
    rcases text with _ | ⟨b, _ | ⟨c, rest⟩⟩
    · rfl
    · rfl
    · rw [writeLiteral, Stmt.code, map_flatMap]
      · rfl
      · simp
  rw [hbody, lineCode]
  simp only [Stmt.ofList, Stmt.code, map_append, hliteral]
  simp [emitAt]

namespace Machine

variable {m₀ m : Machine} {height pc : Nat}

def printing (m : Machine) (out : Output) : Machine := { m with out }

theorem Ready.printing (h : m.Ready) (out : Output) : (m.printing out).Ready := h.of_extents rfl

theorem Carries.printing (h : Carries m₀ height pc [] m) (out : Output) :
    Carries (m₀.printing out) height pc [] (m.printing out) :=
  ⟨{ h.agrees with out := rfl }, h.pc, h.sp, h.room, h.operands⟩

theorem lasts_one (h : m.step.1 = .success) : m.Lasts 1 := by
  intro i hi
  obtain rfl : i = 0 := by omega
  exact ending?_eq_none.mpr h

theorem Carries.writes (hm : m₀.Ready) (h : Carries m₀ height pc [] m) (hroom : height + 1 < m₀.stackSize.toInt)
    {b : UInt8} (hstands : Stands m₀.code pc (writeByte b)) :
    m.Lasts 2 ∧ Carries (m₀.printing (m₀.out.append [b])) height (pc + 2) [] (m.after 2) := by
  obtain ⟨hpushed, h⟩ := h.step_push hm.roomy hstands.head hroom
  obtain ⟨hat, hstep⟩ := h.step_eq hm.roomy hstands.tail.head (n := 1) rfl (by simp)
  have hwrite : m.step.2.step =
      done (Machine.printing { m.step.2.advance with sp := m.step.2.advance.sp - 1 } (m₀.out.append [b])) := by
    rw [hstep, ← hat.agrees.out]
    show m.step.2.advance.output 0 = _
    have hsp : m.step.2.advance.sp.toInt = height + 1 := hat.sp
    unfold output
    rw [if_neg (by decide), if_neg, if_pos rfl, pop, hat.read_top]
    · rfl
    · rw [Int64.lt_iff_toInt_lt, hsp]
      show ¬(height + 1 : Int) < 1
      omega
  refine ⟨(lasts_add (n := 1)).mpr ⟨lasts_one hpushed, lasts_one ?_⟩, ?_⟩
  · show m.step.2.step.1 = _
    rw [hwrite]
    rfl
  · show Carries _ _ _ _ m.step.2.step.2
    rw [hwrite]
    exact hat.dropped.printing _

theorem Carries.writesText (hm : m₀.Ready) (h : Carries m₀ height pc [] m) (hroom : height + 1 < m₀.stackSize.toInt)
    (hstands : Stands m₀.code pc (text.flatMap writeByte)) : m.Lasts (2 * text.length) ∧
      Carries (m₀.printing (m₀.out.append text)) height (pc + 2 * text.length) [] (m.after (2 * text.length)) := by
  induction text generalizing m₀ m pc with
  | nil =>
    have hempty : m₀.printing (m₀.out.append []) = m₀ := by simp [Machine.printing, Output.append]
    rw [hempty]
    exact ⟨fun i hi => absurd hi (Nat.not_lt_zero i), h⟩
  | cons b text ih =>
    obtain ⟨hlasts, hfirst⟩ := h.writes hm hroom (Stands.left hstands)
    obtain ⟨hlasts', hrest⟩ := ih (hm.printing _) hfirst hroom hstands.right
    have hlength : 2 * (b :: text).length = 2 + 2 * text.length := by rw [length_cons]; omega
    have hout : (m₀.out.append [b]).append text = m₀.out.append (b :: text) := by simp [Output.append]
    rw [hlength, lasts_add, after_add, ← hout, ← Nat.add_assoc]
    exact ⟨⟨hlasts, hlasts'⟩, hrest⟩

/-- The line ends, the frame is left, and the machine halts. -/
theorem Carries.ends (hm : m₀.Ready) (h : Carries m₀ 4 pc [] m) (hstands : Stands m₀.code pc [{ op := .writeln }, { op := .ret }])
    (hhalt : m₀.code[1]? = some { op := .halt }) (hfp : m₀.fp.toInt = 1)
    (hframe : ∀ i < 4, m₀.mem[1 + i]? = (header 1 1 1)[i]?) :
    m.EndsAt 2 .finished ∧ (m.after 3).out = (m₀.out.append newline).flush := by
  let out := (m₀.out.append newline).flush
  obtain ⟨hat, hstep⟩ := h.step_eq hm.roomy hstands.head (n := 0) rfl (Nat.zero_le _)
  have hline : m.step = done (m.advance.printing out) := by
    rw [hstep]
    show done (m.advance.printing (m.advance.out.append newline).flush) = _
    rw [hat.agrees.out]
  obtain ⟨hat, hstep⟩ := (hat.printing out).step_eq (hm.printing out).roomy hstands.tail.head (n := 0) rfl (Nat.zero_le _)
  have hslot (i : Nat) (hi : i < 4) : m.mem[1 + i]? = (header 1 1 1)[i]? :=
    (h.agrees.below (1 + i) (by omega)).trans (hframe i hi)
  obtain ⟨sp, hsp, hret⟩ := ret_eq (m := (m.advance.printing out).advance) (n := 0) (f := 1)
    (show Int64.toInt 0 = (0 : Nat) from rfl) ((congrArg Int64.toInt h.agrees.fp).trans hfp) (by decide) (Int.le_of_eq hat.sp.symm) (by decide)
    (hslot 1 (by decide)) (hslot 2 (by decide)) (hslot 3 (by decide)) false
  have hleft : m.step.2.step = done { (m.advance.printing out).advance with sp, fp := 1, pc := 1 } := by
    rw [hline]
    exact hstep.trans hret
  have hhalted : m.step.2.step.2.step = (.halted, m.step.2.step.2.advance) := by
    rw [hleft]
    refine step_eq_execute (x := { op := .halt }) (n := 0) ?_ rfl (Int.le_of_eq hsp.symm)
    rw [@fetch?_eq _ 1 rfl, ← hhalt, ← h.code_eq]
    rfl
  refine ⟨⟨(lasts_add (n := 1)).mpr ⟨lasts_one ?_, lasts_one ?_⟩, ?_⟩, ?_⟩
  · rw [hline]
    rfl
  · show m.step.2.step.1 = _
    rw [hleft]
    rfl
  · show ending? m.step.2.step.2 = _
    rw [ending?, hhalted]
  · show m.step.2.step.2.step.2.out = _
    rw [hhalted, hleft]
    rfl

theorem line_ends {config : Config} (hc : config.normalize.stackSize.toInt + config.normalize.heapSize.toInt < 2 ^ 63)
    (hroom : 5 < config.normalize.stackSize.toInt) (hlength : 2 * text.length + 4 < 2 ^ 63) :
    let m := ofCode config (lineCode text).toArray
    m.EndsAt (1 + (2 * text.length + 2)) .finished ∧
      (m.after (1 + (2 * text.length + 3))).out = ⟨#[text ++ newline], #[]⟩ := by
  intro m
  have hlaid : m.Laid := .ofCode hc _
  have hready : m.Ready := ⟨hlaid, by
    show (lineCode text).toArray.size < 2 ^ 63
    simp [lineCode, writeByte]
    omega⟩
  have hstands : Stands m.code 0 (lineCode text) := .whole _
  have hsize := hlaid.words
  have hheap := hlaid.heap_nonneg
  have hstack : m.stackSize = config.normalize.stackSize := rfl
  -- The call opens the only frame.
  obtain ⟨m₁, hcall, hcode, hstack₁, hmem, hpc, hfp, hsp⟩ := call_eq (m := m.advance) (s := 0)
    (show m.advance.frameAt 0 = .ok 1 from rfl) rfl
    (by decide) (show (0 + 4 : Int) < m.stackSize.toInt by rw [hstack]; omega) (show m.stackSize.toInt ≤ m.mem.size by omega) 2
  have hstep : m.step = (.success, m₁) :=
    (step_eq_execute ((fetch?_eq rfl).trans hstands.head) rfl (Int.le_refl 0)).trans hcall
  have hout : m₁.out = {} := by
    have h := congrArg (fun e : Effect => e.2.out) (call_onOut m.advance {} 0 2)
    rw [show (m.advance.onOut {}).call 0 2 = _ from hcall] at h
    exact h
  have hready₁ : m₁.Ready := hready.of_extents (by rw [← extents_step m, hstep])
  have hroom₁ : 5 < m₁.stackSize.toInt := by rw [hstack₁]; exact hroom
  have hstart : Carries m₁ 4 2 [] m₁ :=
    ⟨.refl 4 m₁, by rw [hpc]; rfl, hsp, show (4 : Int) < _ by omega, trivial⟩
  have hframe (i : Nat) (hi : i < 4) : m₁.mem[1 + i]? = (header 1 1 1)[i]? := by
    rw [hmem]
    exact getElem?_blit (show 1 + 4 ≤ m.mem.size by rw [hstack] at hsize; omega) hi
  have hstands₁ : Stands m₁.code 2 (text.flatMap writeByte ++ [{ op := .writeln }, { op := .ret }]) := by
    rw [hcode]
    exact hstands.tail.tail
  obtain ⟨hlasts, htext⟩ := hstart.writesText hready₁ hroom₁ hstands₁.left
  have hpieces : 2 + (text.flatMap writeByte).length = 2 + 2 * text.length := by
    simp [writeByte, Nat.mul_comm]
  obtain ⟨hends, hprinted⟩ := htext.ends (hready₁.printing _) (hpieces ▸ hstands₁.right)
    (show m₁.code[1]? = _ by rw [hcode]; exact hstands.tail.head) hfp hframe
  have hafter : m.after 1 = m₁ := congrArg Prod.snd hstep
  refine ⟨endsAt_add.mpr ⟨lasts_one (by rw [hstep]), ?_⟩, ?_⟩
  · rw [hafter]
    exact endsAt_add.mpr ⟨hlasts, hends⟩
  · rw [after_add, hafter, after_add, hprinted]
    show ((m₁.out.append text).append newline).flush = _
    rw [hout]
    simp [Output.append, Output.flush, newline]

end Machine

/-- A text without a newline, put between quotes with its own quotes doubled, is accepted as an argument of `writeln`. The
run comes to a good end, and what it hands to its writer, whatever that is, is the text and a newline. -/
theorem literal_reaches_output {text : Text} (hline : 10 ∉ text) (hlength : 2 * text.length + 4 < 2 ^ 63)
    {config : Machine.Config} (hc : config.normalize.stackSize.toInt + config.normalize.heapSize.toInt < 2 ^ 63)
    (hroom : 5 < config.normalize.stackSize.toInt) : ∃ p, (compile (lineProgram text)).result = .ok p ∧
      ∀ (σ : Type) (w : Writer σ) (s : σ) (looks : Nat), 2 * text.length + 3 < looks * interval →
        ((ofCode config p.code).run w looks s).1 = .finished ∧
        ((ofCode config p.code).run w looks s).2.2 = w.feed s [text ++ newline] := by
  obtain ⟨hclean, htree⟩ := lineAnalysis_eq text ((doubled text).length + 26)
  rw [← analyse_lineProgram hline] at hclean htree
  obtain ⟨e, -, -, hcode, hresult⟩ := compile_accepted hclean
  refine ⟨_, hresult, fun σ w s looks hlooks => ?_⟩
  have hprogram : (e.program (analyse (lineProgram text)).1.name (lineProgram text)).code = (lineCode text).toArray := by
    show e.code.map Emission.instr = _
    rw [← Array.toList_inj, Array.toList_map, hcode, htree, code_lineTree]
  obtain ⟨hends, hout⟩ := line_ends hc hroom hlength
  have hexecution := execution_of_endsAt hends (show _ < allowance looks _ by unfold allowance; omega)
  rw [hprogram, run_eq, hexecution]
  dsimp only
  rw [show (Machine.after _ (1 + (2 * text.length + 2) + 1)).out = _ from hout]
  exact ⟨rfl, rfl⟩

/-- A text with a quote and with braces. -/
theorem literal_reaches_output_quote : ∃ p, (compile (lineProgram (ofString "it's {1}"))).result = .ok p ∧
    ((ofCode {} p.code).run (Writer.bounded none) 1 #[]).2.2 = (ofString "it's {1}\n").toArray := by
  obtain ⟨p, hp, hrun⟩ := @literal_reaches_output (ofString "it's {1}") (by decide) (by decide) {} (by decide)
    (by decide)
  exact ⟨p, hp, (hrun _ (Writer.bounded none) #[] 1 (by decide)).2.trans (by decide)⟩

end MiniPascal
