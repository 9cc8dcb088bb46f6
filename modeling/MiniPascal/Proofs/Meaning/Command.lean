import MiniPascal.Proofs.Machine.Setting
import MiniPascal.Proofs.Meaning.Phrase

/-!
# Commands and their results

The parse trees of assignments, sequences, conditions and loops. A command takes the words of the stack to other ones,
or comes to a fault. A loop that does not end has no result.
-/

namespace MiniPascal

open Machine

inductive Command where
  | skip
  | assign (x : Text) (e : Phrase .expression)
  | seq (first second : Command)
  | ifThen (test : Phrase .expression) (body : Command)
  | ifElse (test : Phrase .expression) (body alternative : Command)
  | whileDo (test : Phrase .expression) (body : Command)
  | repeatUntil (body : Command) (test : Phrase .expression)

namespace Command

def names : Command → List Text
  | skip => []
  | assign x e => x :: e.names
  | seq first second => first.names ++ second.names
  | ifThen test body => test.names ++ body.names
  | ifElse test body alternative => test.names ++ (body.names ++ alternative.names)
  | whileDo test body => test.names ++ body.names
  | repeatUntil body test => body.names ++ test.names

def words : Command → Nat
  | skip => 0
  | assign _ e => e.words + 1
  | seq first second => max first.words second.words
  | ifThen test body => max test.words body.words
  | ifElse test body alternative => max test.words (max body.words alternative.words)
  | whileDo test body => max test.words body.words
  | repeatUntil body test => max body.words test.words

end Command

/-! ## Spelling -/

/-- A statement, or some of them with semicolons between them. A statement is open if it could go on with an
alternative. -/
inductive Grade where
  | statement (isOpen : Bool)
  | series
deriving DecidableEq, Repr

def Token.endsStatement (isOpen : Bool) (t : Token) : Bool :=
  t = .semicolon || t = .kwEnd || t = .kwUntil || t = .kwElse && !isOpen

/-- Lexemes spell a command. An alternative belongs to the nearest condition that is without one, so what stands
before it is not open. -/
inductive Command.Spelled : Grade → Command → List Lexeme → Prop where
  | skip : Spelled (.statement false) .skip []
  | assign {l sign : Lexeme} {x : Text} {e : Phrase .expression} {ls : List Lexeme} (token : l.token = .identifier)
    (text : l.text = x) (becomes : sign.token = .becomes) (value : Spells e ls) :
    Spelled (.statement false) (.assign x e) (l :: sign :: ls)
  | compound {first last : Lexeme} {c : Command} {ls : List Lexeme} (begins : first.token = .kwBegin)
    (inside : Spelled .series c ls) (ends : last.token = .kwEnd) : Spelled (.statement false) c (first :: ls ++ [last])
  | ifThen {first middle : Lexeme} {e : Phrase .expression} {c : Command} {isOpen : Bool} {ls ks : List Lexeme}
    (begins : first.token = .kwIf) (test : Spells e ls) (follows : middle.token = .kwThen)
    (inside : Spelled (.statement isOpen) c ks) : Spelled (.statement true) (.ifThen e c) (first :: ls ++ middle :: ks)
  | ifElse {first middle last : Lexeme} {e : Phrase .expression} {c d : Command} {isOpen : Bool}
    {ls ks js : List Lexeme} (begins : first.token = .kwIf) (test : Spells e ls) (follows : middle.token = .kwThen)
    (inside : Spelled (.statement false) c ks) (otherwise : last.token = .kwElse)
    (outside : Spelled (.statement isOpen) d js) :
    Spelled (.statement isOpen) (.ifElse e c d) (first :: ls ++ middle :: ks ++ last :: js)
  | whileDo {first middle : Lexeme} {e : Phrase .expression} {c : Command} {isOpen : Bool} {ls ks : List Lexeme}
    (begins : first.token = .kwWhile) (test : Spells e ls) (follows : middle.token = .kwDo)
    (inside : Spelled (.statement isOpen) c ks) :
    Spelled (.statement isOpen) (.whileDo e c) (first :: ls ++ middle :: ks)
  | repeatUntil {first middle : Lexeme} {c : Command} {e : Phrase .expression} {ls ks : List Lexeme}
    (begins : first.token = .kwRepeat) (inside : Spelled .series c ls) (follows : middle.token = .kwUntil)
    (test : Spells e ks) : Spelled (.statement false) (.repeatUntil c e) (first :: ls ++ middle :: ks)
  | single {c : Command} {isOpen : Bool} {ls : List Lexeme} (only : Spelled (.statement isOpen) c ls) :
    Spelled .series c ls
  | seq {separator : Lexeme} {c d : Command} {isOpen : Bool} {ls ks : List Lexeme}
    (first : Spelled (.statement isOpen) c ls) (token : separator.token = .semicolon) (second : Spelled .series d ks) :
    Spelled .series (.seq c d) (ls ++ separator :: ks)

/-! ## Results -/

def Datum.value : Datum → Value
  | .integer n => .integer n.toInt32
  | .boolean b => .boolean b
  | .character c => .character c
  | _ => .integer 0

theorem Value.value_datum (v : Value) : v.datum.value = v := by
  cases v with
  | integer n =>
    show Value.integer n.toInt64.toInt32 = _
    rw [Int32.toInt32_toInt64]
  | boolean b => rfl
  | character c => rfl

/-- What a name stands for: a value, or the word at an address. -/
inductive Binding where
  | constant (v : Value)
  | location (slot : Nat)
deriving DecidableEq, Repr

/-- The value of a name, given the words of the stack. -/
def Binding.value (σ : Store) : Binding → Value
  | constant v => v
  | location slot => ((σ slot).getD (.integer 0)).value

theorem Binding.value_location {σ : Store} {slot : Nat} {v : Value} (h : σ slot = some v.datum) :
    (location slot).value σ = v := by
  show ((σ slot).getD _).value = v
  rw [h]
  exact v.value_datum

/-- The value of an expression, given the words of the stack. -/
def Phrase.evalIn (ρ : Text → Binding) (σ : Store) (e : Phrase .expression) : Except Fault Value :=
  e.eval fun x => (ρ x).value σ

/-- A command takes the words of the stack to a result. -/
inductive Exec (ρ : Text → Binding) : Command → Store → Except Fault Store → Prop where
  | skip {σ : Store} : Exec ρ .skip σ (.ok σ)
  | assign {x : Text} {e : Phrase .expression} {slot : Nat} {v : Value} {σ : Store} (target : ρ x = .location slot)
    (value : e.evalIn ρ σ = .ok v) : Exec ρ (.assign x e) σ (.ok (Function.update σ slot (some v.datum)))
  | assignFault {x : Text} {e : Phrase .expression} {f : Fault} {σ : Store} (value : e.evalIn ρ σ = .error f) :
    Exec ρ (.assign x e) σ (.error f)
  | seq {c d : Command} {σ σ' : Store} {r : Except Fault Store} (first : Exec ρ c σ (.ok σ')) (second : Exec ρ d σ' r) :
    Exec ρ (.seq c d) σ r
  | seqFault {c d : Command} {f : Fault} {σ : Store} (first : Exec ρ c σ (.error f)) : Exec ρ (.seq c d) σ (.error f)
  | ifThen {e : Phrase .expression} {c : Command} {σ : Store} {r : Except Fault Store}
    (test : e.evalIn ρ σ = .ok (.boolean true)) (inside : Exec ρ c σ r) : Exec ρ (.ifThen e c) σ r
  | ifThenSkip {e : Phrase .expression} {c : Command} {σ : Store} (test : e.evalIn ρ σ = .ok (.boolean false)) :
    Exec ρ (.ifThen e c) σ (.ok σ)
  | ifThenFault {e : Phrase .expression} {c : Command} {f : Fault} {σ : Store} (test : e.evalIn ρ σ = .error f) :
    Exec ρ (.ifThen e c) σ (.error f)
  | ifElse {e : Phrase .expression} {c d : Command} {σ : Store} {r : Except Fault Store}
    (test : e.evalIn ρ σ = .ok (.boolean true)) (inside : Exec ρ c σ r) : Exec ρ (.ifElse e c d) σ r
  | ifElseOther {e : Phrase .expression} {c d : Command} {σ : Store} {r : Except Fault Store}
    (test : e.evalIn ρ σ = .ok (.boolean false)) (outside : Exec ρ d σ r) : Exec ρ (.ifElse e c d) σ r
  | ifElseFault {e : Phrase .expression} {c d : Command} {f : Fault} {σ : Store} (test : e.evalIn ρ σ = .error f) :
    Exec ρ (.ifElse e c d) σ (.error f)
  | whileDo {e : Phrase .expression} {c : Command} {σ σ' : Store} {r : Except Fault Store}
    (test : e.evalIn ρ σ = .ok (.boolean true)) (inside : Exec ρ c σ (.ok σ')) (again : Exec ρ (.whileDo e c) σ' r) :
    Exec ρ (.whileDo e c) σ r
  | whileDoEnd {e : Phrase .expression} {c : Command} {σ : Store} (test : e.evalIn ρ σ = .ok (.boolean false)) :
    Exec ρ (.whileDo e c) σ (.ok σ)
  | whileDoFault {e : Phrase .expression} {c : Command} {f : Fault} {σ : Store} (test : e.evalIn ρ σ = .error f) :
    Exec ρ (.whileDo e c) σ (.error f)
  | whileDoInside {e : Phrase .expression} {c : Command} {f : Fault} {σ : Store}
    (test : e.evalIn ρ σ = .ok (.boolean true)) (inside : Exec ρ c σ (.error f)) : Exec ρ (.whileDo e c) σ (.error f)
  | repeatUntil {c : Command} {e : Phrase .expression} {σ σ' : Store} {r : Except Fault Store}
    (inside : Exec ρ c σ (.ok σ')) (test : e.evalIn ρ σ' = .ok (.boolean false))
    (again : Exec ρ (.repeatUntil c e) σ' r) : Exec ρ (.repeatUntil c e) σ r
  | repeatUntilEnd {c : Command} {e : Phrase .expression} {σ σ' : Store} (inside : Exec ρ c σ (.ok σ'))
    (test : e.evalIn ρ σ' = .ok (.boolean true)) : Exec ρ (.repeatUntil c e) σ (.ok σ')
  | repeatUntilFault {c : Command} {e : Phrase .expression} {f : Fault} {σ σ' : Store} (inside : Exec ρ c σ (.ok σ'))
    (test : e.evalIn ρ σ' = .error f) : Exec ρ (.repeatUntil c e) σ (.error f)
  | repeatUntilInside {c : Command} {e : Phrase .expression} {f : Fault} {σ : Store} (inside : Exec ρ c σ (.error f)) :
    Exec ρ (.repeatUntil c e) σ (.error f)

end MiniPascal
