import MiniPascal.Proofs.Meaning.Expression

/-!
# Expressions keep their meaning

The code of an expression of numbers, truth values and characters computes the value of its parse tree: it pushes the
value and changes nothing else on the stack, or it stops at the fault of the first operation that has no result. A
variable is found as long as it is declared at most 127 blocks further out, because the number of links to follow is
kept in eight bits.
-/

namespace MiniPascal

namespace Machine

/-- A machine pushes the value of a result on its way through the code between two addresses, and leaves the stack
below as it was; or it stops there at the fault. -/
def Delivers (m : Machine) (lo hi : Nat) : Except Fault Value → Prop
  | .ok v => ∃ n m', Passes lo hi n m m' ∧ m'.pc.toInt = hi ∧ m'.fp = m.fp ∧ m'.sp.toInt = m.sp.toInt + 1 ∧
    m'.read? m'.sp = some v.datum ∧ ∀ a : Nat, a ≤ m.sp.toInt → m'.mem[a]? = m.mem[a]?
  | .error f => FaultsWithin lo hi f m

/-- The value that is pushed is on top wherever the end of the code is reached. -/
theorem Delivers.read_top {m m' : Machine} {lo hi n : Nat} {v : Value} (h : m.Delivers lo hi (.ok v))
    (hpass : Passes lo hi n m m') (hpc : m'.pc.toInt = hi) : m'.read? m'.sp = some v.datum := by
  obtain ⟨k, m'', hpass', hpc', -, -, hread, -⟩ := h
  cases hpass.exit_unique hpc hpass' hpc'
  exact hread

/-- One word is pushed, and the stack below is as it was. -/
theorem At.pushed {S : Setting} {σ : Store} {h : S.Admits σ} {pc hi : Nat} {m m' : Machine} {d : Datum}
    (hat : At (S.activation h) pc [] m) (hat' : At (S.activation h) hi [d] m') :
    m'.pc.toInt = hi ∧ m'.fp = m.fp ∧ m'.sp.toInt = m.sp.toInt + 1 ∧ m'.read? m'.sp = some d ∧
      ∀ a : Nat, a ≤ m.sp.toInt → m'.mem[a]? = m.mem[a]? := by
  have hfp : m'.fp.toInt = m.fp.toInt := hat'.fp.trans hat.fp.symm
  have hsp : m.sp.toInt = S.top := hat.sp
  have hsp' : m'.sp.toInt = S.top + 1 := hat'.sp
  refine ⟨hat'.pc, Int64.toInt_inj.mp hfp, by omega, hat'.read_top, fun a ha => ?_⟩
  have hle : a ≤ S.top := by omega
  exact (Setting.In.getElem? ⟨h, hat'⟩ hle).trans (Setting.In.getElem? ⟨h, hat⟩ hle).symm

theorem Computes.delivers {S : Setting} {σ : Store} {h : S.Admits σ} {code : List Instr} {words : Nat}
    {r : Except Fault Value} (hcode : Computes (S.activation h) code words r) {pc : Nat} {m : Machine}
    (hat : At (S.activation h) pc [] m) (hstands : Stands S.code pc code) (hroom : S.top + words < S.size) :
    m.Delivers pc (pc + code.length) r := by
  have hresults := hcode pc [] m hat hstands hroom
  cases r with
  | error f => exact hresults
  | ok v =>
    obtain ⟨n, m', hpass, hat'⟩ := hresults
    exact ⟨n, m', hpass, hat.pushed hat'⟩

end Machine

namespace Parser

open State Machine

/-- A name that stands for a value is one of a constant or a variable. -/
theorem State.Denotes.names {s : State} {frames : List Nat} {σ : Store} {x : Text} {v : Value}
    (h : s.Denotes frames σ x v) : s.Names x := by
  cases h with
  | constant hfound hvalue => exact ⟨_, hfound, .inl ⟨_, _, hvalue⟩⟩
  | stored hfound hvalue => exact ⟨_, hfound, .inr ⟨_, _, hvalue⟩⟩

/-- An expression that is analysed without a report is read up to its end, and its code computes the value of its
parse tree in every machine whose names have values. -/
theorem expression_computes {s : State} (hs : s.Viable) (hfresh : s.exhausted = false) {φ : Phrase .expression}
    {ls : List Lexeme} (hφ : Spells φ ls) {next : Lexeme} {rest : List Lexeme}
    (hlexemes : s.lexemes = ls ++ next :: rest) (hends : Rank.expression.ends next.token = true)
    (haccepted : (expression s).2.diagnostics = []) {m : Machine} {frames : List Nat} (hm : m.Poised frames φ.words)
    (entries : Entries) {pc : Nat} (hpc : m.pc.toInt = pc)
    (hcode : Stands m.code pc (instrs ((expression s).1.expr.code entries))) {values : Text → Value}
    (hvalues : ∀ x ∈ φ.names, s.Denotes frames m.stack x (values x)) (hnear : ∀ x ∈ φ.names, s.Near x) :
    (expression s).2.lexemes = next :: rest ∧ ResultOf (expression s).1.type (φ.eval values) ∧
      m.Delivers pc (pc + ((expression s).1.expr.code entries).length) (φ.eval values) := by
  have hbounded := (expression_reads (n := s.lexemes.length) s).1.bounded hs.ended (Nat.le_refl _)
  have hensures := expression_yields hs hφ (fun x hx => (hvalues x hx).names) hends rest
  obtain ⟨-, himplements, hleft⟩ :=
    hensures.holds s hs ⟨.refl s, hlexemes⟩ ⟨haccepted, hbounded.trans hfresh⟩
  obtain ⟨S, hScode, rfl, hroom, hstack, hat⟩ := hm.exists_setting hpc
  have hknown (x : Text) (hx : x ∈ φ.names) :
      s.Near x ∧ s.Denotes (S.activation hstack).frames (S.activation hstack).word? x (values x) := by
    refine ⟨hnear x hx, ?_⟩
    rw [Setting.word?_activation hstack]
    exact hvalues x hx
  obtain ⟨htype, hcomputes⟩ := himplements _ values (Setting.still_activation hstack) hknown
  refine ⟨hleft.lexemes, htype, ?_⟩
  rw [← length_instrs]
  exact (hcomputes entries).delivers hat (hScode ▸ hcode) hroom

/-! ## Nested blocks -/

/-- A place in a block at a level, where `x` is a number that the program declares, with some lexemes up to the end of
the file. -/
def placeAt (level : Int) (ls : List Lexeme) : State :=
  let last : Lexeme := { token := .endOfFile, pos := 0, line := 0 }
  { current := ls.headD last, rest := (ls ++ [last]).tail, level,
    scope := ⟨Declaration.builtins.entries ++ [⟨Text.ofChars ['x'], 1, .variable 0 .integer⟩]⟩ }

theorem lexemes_placeAt (level : Int) (ls : List Lexeme) :
    (placeAt level ls).lexemes = ls ++ [{ token := .endOfFile, pos := 0, line := 0 }] := by
  cases ls <;> rfl

theorem viable_placeAt (level : Int) (ls : List Lexeme) : (placeAt level ls).Viable := by
  refine viable_builtins rfl ⟨{ token := .endOfFile, pos := 0, line := 0 }, ?_, rfl⟩ rfl rfl
  rw [lexemes_placeAt, List.getLast?_append]
  rfl

theorem near_placeAt {level : Int} (h : level ≤ 128) (ls : List Lexeme) :
    (placeAt level ls).Near (Text.ofChars ['x']) := by
  intro e offset type hfound _
  have hlookup : (placeAt level ls).scope.lookup (Text.ofChars ['x']) = .ok ⟨_, 1, _⟩ := rfl
  cases hlookup.symm.trans hfound
  show level - 1 ≤ 127
  omega

/-- The frames of nested blocks with one local variable each, innermost first. -/
def nestedFrames (depth : Nat) : List Nat := (List.range depth).reverse.map fun k => 5 * k + 1

/-- A machine in the innermost of some nested blocks. The variable of the program holds a number, those of the other
blocks hold seven. -/
def nestedMachine (depth : Nat) (x : Int32) (code : List Instr) : Machine :=
  { stackSize := Int64.ofNat (5 * depth + 8), heapSize := 0, code := code.toArray
    mem := ((List.range (5 * depth + 8)).map fun a =>
      if a = 5 then .integer x.toInt64
      else if a % 5 = 1 then .address (Int64.ofNat (max 1 (a - 5)))
      else .integer 7).toArray
    heap := .ofRange 0 0, fp := Int64.ofNat (5 * depth - 4), sp := Int64.ofNat (5 * depth) }

theorem nestedFrames_succ (depth : Nat) : nestedFrames (depth + 1) = (5 * depth + 1) :: nestedFrames depth := by
  simp [nestedFrames, List.range_succ]

section

variable {depth : Nat} (x : Int32) (code : List Instr)

theorem getElem?_nestedMachine {a : Nat} (ha : a < 5 * depth + 8) : (nestedMachine depth x code).mem[a]? =
    some (if a = 5 then .integer x.toInt64 else if a % 5 = 1 then .address (Int64.ofNat (max 1 (a - 5)))
      else .integer 7) := by
  show (((List.range (5 * depth + 8)).map _).toArray)[a]? = _
  rw [List.getElem?_toArray, List.getElem?_map, List.getElem?_range ha]
  rfl

theorem stack_nestedMachine (hdepth : depth < 2 ^ 31) {a : Nat} (ha : a ≤ 5 * depth) :
    (nestedMachine depth x code).stack a = (nestedMachine depth x code).mem[a]? := by
  have hsp : (nestedMachine depth x code).sp.toInt = (5 * depth : Nat) := Word.toInt_ofNat (by omega)
  unfold stack
  rw [if_pos (by omega)]

theorem links_nestedMachine (hdepth : depth < 2 ^ 31) {k : Nat} (hk : k ≤ depth) :
    (nestedMachine depth x code).stack.Links (5 * depth) (nestedFrames k) := by
  induction k with
  | zero => trivial
  | succ k ih =>
    rw [nestedFrames_succ]
    refine ⟨by omega, by omega, id, ?_, ih (by omega)⟩
    dsimp only
    rw [stack_nestedMachine x code hdepth (by omega), getElem?_nestedMachine x code (by omega), if_neg (by omega),
      if_pos (by omega)]
    cases k with
    | zero => rfl
    | succ k =>
      rw [nestedFrames_succ, show max 1 (5 * (k + 1) + 1 - 5) = 5 * k + 1 by omega]
      rfl

theorem poised_nestedMachine (hpos : 1 ≤ depth) (hdepth : depth < 2 ^ 31) {n : Nat} (hcode : code.length = n)
    (hn : n ≤ 2 ^ 48) {words : Nat} (hwords : words < 8) :
    (nestedMachine depth x code).Poised (nestedFrames depth) words := by
  have hsp : (nestedMachine depth x code).sp.toInt = (5 * depth : Nat) := Word.toInt_ofNat (by omega)
  have hsize : (nestedMachine depth x code).stackSize.toInt = (5 * depth + 8 : Nat) := Word.toInt_ofNat (by omega)
  have hfp : (nestedMachine depth x code).fp.toInt = (5 * depth - 4 : Nat) := Word.toInt_ofNat (by omega)
  have hmem : (nestedMachine depth x code).mem.size = 5 * depth + 8 := by simp [nestedMachine]
  refine ⟨?_, ?_, by omega, by omega, by omega, Nat.le_trans (Nat.le_of_eq hcode) hn⟩
  · obtain ⟨k, rfl⟩ : ∃ k, depth = k + 1 := ⟨depth - 1, by omega⟩
    rw [nestedFrames_succ, hfp]
    show some (5 * k + 1) = some _
    congr 1
  · rw [hsp, Int.toNat_natCast]
    exact links_nestedMachine x code hdepth (Nat.le_refl depth)

end

theorem getElem?_nestedFrames (level : Nat) : (nestedFrames (level + 1))[level]? = some 1 := by
  induction level with
  | zero => rfl
  | succ level ih => rw [nestedFrames_succ, List.getElem?_cons_succ, ih]

theorem lies_nestedFrames (level : Nat) :
    Variable.LiesAt ⟨(level : Int) + 1 - 1, 0, .integer⟩ (nestedFrames (level + 1)) 5 :=
  ⟨by decide, level, 1, Int.add_sub_cancel _ _, getElem?_nestedFrames level, rfl⟩

theorem stack_nestedMachine_variable {level : Nat} (hlevel : level + 1 < 2 ^ 31) (x : Int32) (code : List Instr) :
    (nestedMachine (level + 1) x code).stack 5 = some (.integer x.toInt64) := by
  rw [stack_nestedMachine x code hlevel (by omega), getElem?_nestedMachine x code (by omega)]
  rfl

theorem denotes_placeAt {level : Nat} (hlevel : level + 1 < 2 ^ 31) (ls : List Lexeme) (x : Int32) (code : List Instr) :
    (placeAt (level + 1) ls).Denotes (nestedFrames (level + 1)) (nestedMachine (level + 1) x code).stack
      (Text.ofChars ['x']) (.integer x) :=
  .stored (e := ⟨Text.ofChars ['x'], 1, .variable 0 .integer⟩) rfl rfl (lies_nestedFrames level)
    (stack_nestedMachine_variable hlevel x code)

/-- A machine in the innermost of some nested blocks, with the code of an expression there. -/
def expressionMachine (depth : Nat) (x : Int32) (ls : List Lexeme) : Machine :=
  nestedMachine depth x (instrs ((expression (placeAt depth ls)).1.expr.code fun _ => 0))

def nameAt (pos : Nat) : Lexeme := ⟨.identifier, Text.ofChars ['x'], pos, 1, none⟩

theorem spells_nameAt (pos : Nat) : Spells (.name (Text.ofChars ['x'])) [nameAt pos] := .name rfl rfl

/-- The parse tree of `x + 1 < -x`. -/
def wrappingPhrase : Phrase .expression :=
  .compare (.add (.term (.factor (.name (Text.ofChars ['x'])))) .add (.factor (.integer 1))) .less
    (.sign true (.factor (.name (Text.ofChars ['x']))))

def wrappingLexemes : List Lexeme :=
  [nameAt 0, ⟨.plus, [], 2, 1, none⟩, ⟨.integerLiteral, Text.ofChars ['1'], 4, 1, some (.integer 1)⟩,
    ⟨.less, [], 6, 1, none⟩, ⟨.minus, [], 8, 1, none⟩, nameAt 9]

theorem spells_wrapping : Spells wrappingPhrase wrappingLexemes := by
  have hone : Spells (.integer 1) [⟨.integerLiteral, Text.ofChars ['1'], 4, 1, some (.integer 1)⟩] := .integer rfl rfl
  have hsum := Spells.add (l := ⟨.plus, [], 2, 1, none⟩) (.term (.factor (spells_nameAt 0))) rfl (.factor hone)
  have hopposite : Spells (.sign true _) [⟨.minus, [], 8, 1, none⟩, nameAt 9] :=
    .sign rfl (.factor (spells_nameAt 9))
  exact hsum.compare rfl hopposite

/-- One more than the greatest number is less than the opposite of that number. -/
theorem expression_computes_wrapping : (expression (placeAt 2 wrappingLexemes)).2.diagnostics = [] ∧
    (expressionMachine 2 2147483647 wrappingLexemes).Delivers 0 8 (.ok (.boolean true)) := by
  have haccepted : (expression (placeAt 2 wrappingLexemes)).2.diagnostics = [] := by decide +kernel
  have hlength : ((expression (placeAt 2 wrappingLexemes)).1.expr.code fun _ => 0).length = 8 := by decide +kernel
  have hm : (expressionMachine 2 2147483647 wrappingLexemes).Poised (nestedFrames 2) wrappingPhrase.words :=
    poised_nestedMachine _ _ (by decide) (by decide) ((length_instrs _).trans hlength) (by decide)
      (by decide)
  have hpc : (expressionMachine 2 2147483647 wrappingLexemes).pc.toInt = (0 : Nat) := rfl
  have hx (x : Text) (hx : x ∈ wrappingPhrase.names) : x = Text.ofChars ['x'] := by
    simpa [wrappingPhrase, Phrase.names] using hx
  have hvalues (x : Text) (hname : x ∈ wrappingPhrase.names) :
      (placeAt 2 wrappingLexemes).Denotes (nestedFrames 2) (expressionMachine 2 2147483647 wrappingLexemes).stack x
        (.integer 2147483647) :=
    hx x hname ▸ denotes_placeAt (by decide) _ _ _
  have hcomputes := expression_computes (viable_placeAt 2 wrappingLexemes) rfl spells_wrapping
    (lexemes_placeAt 2 wrappingLexemes) rfl haccepted hm (fun _ => 0) hpc (.whole _) hvalues
    fun x hname => hx x hname ▸ near_placeAt (by decide) _
  rw [hlength] at hcomputes
  exact ⟨haccepted, hcomputes.2.2⟩

/-- With 129 blocks, the number of links from the innermost one to the program is taken for a negative number, no link
is followed, and the name is taken for the variable of the innermost block. -/
theorem expression_misses_deep : (placeAt 129 [nameAt 0]).Viable ∧
    (expression (placeAt 129 [nameAt 0])).2.diagnostics = [] ∧
    (expressionMachine 129 5 [nameAt 0]).Poised (nestedFrames 129) 1 ∧
    (placeAt 129 [nameAt 0]).Denotes (nestedFrames 129) (expressionMachine 129 5 [nameAt 0]).stack
      (Text.ofChars ['x']) (.integer 5) ∧ ¬(expressionMachine 129 5 [nameAt 0]).Delivers 0 2 (.ok (.integer 5)) := by
  have hlength : (instrs ((expression (placeAt 129 [nameAt 0])).1.expr.code fun _ => 0)).length = 2 := by decide +kernel
  refine ⟨viable_placeAt _ _, by decide +kernel, ?_, denotes_placeAt (by decide) _ _ _, ?_⟩
  · exact poised_nestedMachine _ _ (by decide) (by decide) hlength (by decide) (by decide)
  · intro hdelivers
    have hpass : Passes 0 2 2 (expressionMachine 129 5 [nameAt 0]) (expressionMachine 129 5 [nameAt 0]).step.2.step.2 :=
      ⟨⟨by decide +kernel, by decide +kernel⟩, by decide +kernel, ⟨by decide +kernel, by decide +kernel⟩,
        by decide +kernel, rfl⟩
    have hfive := hdelivers.read_top hpass (by decide +kernel)
    revert hfive
    decide +kernel

end Parser

end MiniPascal
