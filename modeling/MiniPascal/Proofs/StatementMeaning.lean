import MiniPascal.Proofs.ExpressionMeaning
import MiniPascal.Proofs.Meaning.Statement

/-!
# Statements keep their control flow

The code of assignments, sequences, conditions and loops does what the commands do: the machine comes to the end of the
code with some words on the stack exactly if the command takes the words on the stack to these, and stops at a fault in
the code exactly if the command comes to that fault.
-/

namespace MiniPascal

/-- A machine comes to the end of a piece of code with the frame and the height of the stack from before, and with some
words on the stack. -/
def Machine.Completes (m : Machine) (lo hi : Nat) (σ : Store) : Prop :=
  ∃ n m', Passes lo hi n m m' ∧ m'.pc.toInt = hi ∧ m'.fp = m.fp ∧ m'.sp = m.sp ∧ m'.stack = σ

/-- The words at the end are the same on every way there. -/
theorem Machine.Completes.stack_eq {m m' : Machine} {lo hi n : Nat} {σ : Store} (h : m.Completes lo hi σ)
    (hpass : Machine.Passes lo hi n m m') (hpc : m'.pc.toInt = hi) : m'.stack = σ := by
  obtain ⟨k, m'', hpass', hpc', -, -, hstack⟩ := h
  cases hpass.exit_unique hpc hpass' hpc'
  exact hstack

namespace Parser

open State Machine

/-- A name that is bound is one of a constant or a variable. -/
theorem State.Binds.names {s : State} {frames : List Nat} {σ : Store} {x : Text} {b : Binding}
    (h : s.Binds frames σ x b) : s.Names x := h.denotes.names

theorem Scene.Runs.completes_iff {s : State} {E : Scene s} {σ : Store} {lo hi : Nat} {m : Machine} {c : Command}
    (h : Meets lo hi (fun σ' => E.In σ' hi) (Exec E.bindings c σ) m) (hin : E.In σ lo m) (σ' : Store) :
    m.Completes lo hi σ' ↔ Exec E.bindings c σ (.ok σ') := by
  obtain ⟨-, hσ, hat⟩ := hin
  constructor
  · rintro ⟨n, m', hpass, hpc, -, -, rfl⟩
    obtain ⟨σ', hexec, -, hin'⟩ := h.ok_of_passes (fun σ' m' ⟨_, _, hat'⟩ => hat'.pc) hpass hpc
    rwa [hin'.stack_eq]
  · intro hexec
    obtain ⟨n, m', hpass, -, hσ', hat'⟩ := h.results _ hexec
    exact ⟨n, m', hpass, hat'.pc, Int64.toInt_inj.mp (hat'.fp.trans hat.fp.symm),
      Int64.toInt_inj.mp (hat'.sp.trans hat.sp.symm), Setting.In.stack_eq ⟨hσ', hat'⟩⟩

/-- A statement that is analysed without a report is read up to its end. From every machine whose names are bound, its
code completes and faults as the command does. -/
theorem statement_runs {s : State} (hs : s.Viable) (hfresh : s.exhausted = false) {c : Command} {isOpen : Bool}
    {ls : List Lexeme} (hc : c.Spelled (.statement isOpen) ls) {next : Lexeme} {rest : List Lexeme}
    (hlexemes : s.lexemes = ls ++ next :: rest) (hends : next.token.endsStatement isOpen = true) {n : Nat}
    (hn : s.fuel ≤ n) (haccepted : (statementWithin n s).2.diagnostics = []) {m : Machine} {frames : List Nat}
    (hm : m.Poised frames c.words) (entries : Entries) {pc : Nat} (hpc : m.pc.toInt = pc)
    (hcode : Stands m.code pc (instrs ((statementWithin n s).1.code entries pc))) {ρ : Text → Binding}
    (hbinds : ∀ x ∈ c.names, s.Binds frames m.stack x (ρ x)) (hnear : ∀ x ∈ c.names, s.Near x) :
    (statementWithin n s).2.lexemes = next :: rest ∧
      (∀ σ, m.Completes pc (pc + ((statementWithin n s).1.code entries pc).length) σ ↔ Exec ρ c m.stack (.ok σ)) ∧
      ∀ f, FaultsWithin pc (pc + ((statementWithin n s).1.code entries pc).length) f m ↔ Exec ρ c m.stack (.error f) := by
  have hbounded := ((statementWithin_reads n).1 s).1.bounded hs.ended hn
  have hanalyses : Analyses s (.statement isOpen) c ls := analyses hs hc fun x hx => (hbinds x hx).names
  obtain ⟨-, hrealizes, hleft⟩ :=
    (hanalyses n next rest hends).holds s hs ⟨.refl s, hlexemes⟩ ⟨haccepted, hbounded.trans hfresh⟩
  obtain ⟨S, hScode, rfl, hroom, hstack, hat⟩ := hm.exists_setting hpc
  let E : Scene s := ⟨S, c.names, ρ, hnear⟩
  have hin : E.In m.stack pc m := ⟨hbinds, hstack, hat⟩
  have hmeets := hrealizes E entries pc (fun _ hx => hx) hroom (hScode ▸ hcode) m.stack m hin
  rw [length_instrs] at hmeets
  refine ⟨hleft.lexemes, Scene.Runs.completes_iff hmeets hin, fun f => ⟨fun hfault => ?_, hmeets.results (.error f)⟩⟩
  exact hmeets.error_of_faults (fun σ' m' ⟨_, _, hat'⟩ => hat'.pc) hfault

/-! ## Nested blocks -/

theorem binds_placeAt {level : Nat} (hlevel : level + 1 < 2 ^ 31) (ls : List Lexeme) (x : Int32) (code : List Instr) :
    (placeAt (level + 1) ls).Binds (nestedFrames (level + 1)) (nestedMachine (level + 1) x code).stack
      (Text.ofChars ['x']) (.location 5) :=
  .stored (e := ⟨Text.ofChars ['x'], 1, .variable 0 .integer⟩) (v := .integer x) rfl rfl (lies_nestedFrames level)
    (stack_nestedMachine_variable hlevel x code)

/-- A lexeme without a text. -/
def symbolAt (token : Token) (pos : Nat) : Lexeme := ⟨token, [], pos, 1, none⟩

def numberAt (n : Int32) (pos : Nat) : Lexeme := ⟨.integerLiteral, [], pos, 1, some (.integer n.toInt64)⟩

theorem spells_numberAt (n : Int32) (pos : Nat) : Spells (.integer n) [numberAt n pos] := .integer rfl rfl

def statementAt (depth : Nat) (ls : List Lexeme) : Stmt × State :=
  statementWithin (ls.length + 2) (placeAt depth (ls ++ [symbolAt .semicolon 0]))

/-- A machine in the innermost of some nested blocks, with the code of a statement there. -/
def statementMachine (depth : Nat) (x : Int32) (ls : List Lexeme) : Machine :=
  nestedMachine depth x (instrs ((statementAt depth ls).1.code (fun _ => 0) 0))

/-- The parse tree of `while x < 10 do if odd(x) then x := x * 2 else x := x + 6`. -/
def climbCommand : Command :=
  .whileDo (.compare (.term (.factor (.name (Text.ofChars ['x'])))) .less (.term (.factor (.integer 10))))
    (.ifElse (.simple (.term (.factor (.apply .odd (.simple (.term (.factor (.name (Text.ofChars ['x'])))))))))
      (.assign (Text.ofChars ['x'])
        (.simple (.term (.multiply (.factor (.name (Text.ofChars ['x']))) .mul (.integer 2)))))
      (.assign (Text.ofChars ['x'])
        (.simple (.add (.term (.factor (.name (Text.ofChars ['x'])))) .add (.factor (.integer 6))))))

/-- The lexemes of `while x < 10 do if odd(x) then x := x * 2 else x := x + 6`. -/
def climbLexemes : List Lexeme :=
  [symbolAt .kwWhile 0, nameAt 6, symbolAt .less 8, numberAt 10 10, symbolAt .kwDo 13, symbolAt .kwIf 16,
    symbolAt (.builtin .odd) 19, symbolAt .leftParen 22, nameAt 23, symbolAt .rightParen 24, symbolAt .kwThen 26,
    nameAt 31, symbolAt .becomes 33, nameAt 36, symbolAt .star 38, numberAt 2 40, symbolAt .kwElse 42,
    nameAt 47, symbolAt .becomes 49, nameAt 52, symbolAt .plus 54, numberAt 6 56]

theorem spelled_climb : climbCommand.Spelled (.statement false) climbLexemes := by
  have htest := Spells.compare (l := symbolAt .less 8) (.term (.factor (spells_nameAt 6))) rfl
    (.term (.factor (spells_numberAt 10 10)))
  have hodd : Spells (.apply .odd _) [symbolAt (.builtin .odd) 19, symbolAt .leftParen 22, nameAt 23,
      symbolAt .rightParen 24] := .apply rfl rfl rfl (.simple (.term (.factor (spells_nameAt 23)))) rfl
  have hproduct := Spells.multiply (l := symbolAt .star 38) (.factor (spells_nameAt 36)) rfl (by decide)
    (spells_numberAt 2 40)
  have hdouble : Command.Spelled _ (.assign (Text.ofChars ['x']) _) (nameAt 31 :: symbolAt .becomes 33 :: _) :=
    .assign rfl rfl rfl (.simple (.term hproduct))
  have hsum := Spells.add (l := symbolAt .plus 54) (.term (.factor (spells_nameAt 52))) rfl
    (.factor (spells_numberAt 6 56))
  have hraise : Command.Spelled _ (.assign (Text.ofChars ['x']) _) (nameAt 47 :: symbolAt .becomes 49 :: _) :=
    .assign rfl rfl rfl (.simple hsum)
  have hbranch : Command.Spelled _ _ (symbolAt .kwIf 16 :: _ ++ symbolAt .kwThen 26 :: _ ++ symbolAt .kwElse 42 :: _) :=
    .ifElse rfl (.simple (.term (.factor hodd))) rfl hdouble rfl hraise
  exact .whileDo rfl htest rfl hbranch

theorem exec_climb {σ : Store} (hσ : σ 5 = some (Value.integer 3).datum) :
    Exec (fun _ => .location 5) climbCommand σ (.ok (Function.update σ 5 (some (Value.integer 12).datum))) := by
  have heval {σ : Store} {v : Value} (h : σ 5 = some v.datum) (e : Phrase .expression) :
      e.evalIn (fun _ => .location 5) σ = e.eval fun _ => v := by
    rw [Phrase.evalIn, Binding.value_location h]
  have hset {σ : Store} (v : Value) : Function.update σ 5 (some v.datum) 5 = some v.datum := Function.update_self ..
  have hraised : Exec (fun _ => .location 5) climbCommand (Function.update σ 5 (some (Value.integer 6).datum)) _ :=
    .whileDo (heval (hset _) _) (.ifElseOther (heval (hset _) _) (.assign rfl (heval (hset _) _)))
      (.whileDoEnd (heval (hset (.integer 12)) _))
  rw [Function.update_idem] at hraised
  exact .whileDo (heval hσ _) (.ifElse (heval hσ _) (.assign rfl (heval hσ _))) hraised

/-- A loop with a condition in it takes three to twelve. -/
theorem statement_runs_climb : (statementAt 2 climbLexemes).2.diagnostics = [] ∧
    (statementMachine 2 3 climbLexemes).Completes 0 23
      (Function.update (statementMachine 2 3 climbLexemes).stack 5 (some (.integer 12))) := by
  have haccepted : (statementAt 2 climbLexemes).2.diagnostics = [] := by decide +kernel
  have hlength : ((statementAt 2 climbLexemes).1.code (fun _ => 0) 0).length = 23 := by decide +kernel
  have hm : (statementMachine 2 3 climbLexemes).Poised (nestedFrames 2) climbCommand.words :=
    poised_nestedMachine _ _ (by decide) (by decide) ((length_instrs _).trans hlength) (by decide)
      (by decide)
  have hpc : (statementMachine 2 3 climbLexemes).pc.toInt = (0 : Nat) := rfl
  have hx (x : Text) (hx : x ∈ climbCommand.names) : x = Text.ofChars ['x'] := by
    simpa [climbCommand, Command.names, Phrase.names] using hx
  have hbinds (x : Text) (hname : x ∈ climbCommand.names) :
      (placeAt 2 (climbLexemes ++ [symbolAt .semicolon 0])).Binds (nestedFrames 2)
        (statementMachine 2 3 climbLexemes).stack x (.location 5) :=
    hx x hname ▸ binds_placeAt (by decide) _ _ _
  have hruns := statement_runs (viable_placeAt 2 (climbLexemes ++ [symbolAt .semicolon 0])) rfl spelled_climb
    (lexemes_placeAt 2 _) rfl (Nat.le_refl _) haccepted hm (fun _ => 0) hpc (.whole _) hbinds
    fun x hname => hx x hname ▸ near_placeAt (by decide) _
  refine ⟨haccepted, ?_⟩
  rw [← hlength]
  exact (hruns.2.1 _).mpr (exec_climb (stack_nestedMachine_variable (by decide) 3 _))

def nineCommand : Command := .assign (Text.ofChars ['x']) (.simple (.term (.factor (.integer 9))))

def nineLexemes : List Lexeme := [nameAt 0, symbolAt .becomes 2, numberAt 9 5]

/-- With 129 blocks, an assignment to the variable of the program in the innermost one sets the variable of the
innermost block. -/
theorem statement_misses_deep : nineCommand.Spelled (.statement false) nineLexemes ∧
    (statementAt 129 nineLexemes).2.diagnostics = [] ∧
    (statementMachine 129 5 nineLexemes).Poised (nestedFrames 129) nineCommand.words ∧
    (placeAt 129 (nineLexemes ++ [symbolAt .semicolon 0])).Binds (nestedFrames 129)
      (statementMachine 129 5 nineLexemes).stack (Text.ofChars ['x']) (.location 5) ∧
    Exec (fun _ => .location 5) nineCommand (statementMachine 129 5 nineLexemes).stack
      (.ok (Function.update (statementMachine 129 5 nineLexemes).stack 5 (some (.integer 9)))) ∧
    ¬(statementMachine 129 5 nineLexemes).Completes 0 3
      (Function.update (statementMachine 129 5 nineLexemes).stack 5 (some (.integer 9))) := by
  have hlength : (instrs ((statementAt 129 nineLexemes).1.code (fun _ => 0) 0)).length = 3 := by decide +kernel
  refine ⟨.assign rfl rfl rfl (.simple (.term (.factor (spells_numberAt 9 5)))), by decide +kernel, ?_,
    binds_placeAt (by decide) _ _ _, .assign (v := .integer 9) rfl rfl, ?_⟩
  · exact poised_nestedMachine _ _ (by decide) (by decide) hlength (by decide) (by decide)
  · intro hcompletes
    have hpass : Passes 0 3 3 (statementMachine 129 5 nineLexemes)
        (statementMachine 129 5 nineLexemes).step.2.step.2.step.2 :=
      ⟨⟨by decide +kernel, by decide +kernel⟩, by decide +kernel, ⟨by decide +kernel, by decide +kernel⟩,
        by decide +kernel, ⟨by decide +kernel, by decide +kernel⟩, by decide +kernel, rfl⟩
    have hnine := congrFun (hcompletes.stack_eq hpass (by decide +kernel)) 5
    revert hnine
    decide +kernel

end Parser

end MiniPascal
