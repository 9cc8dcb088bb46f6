import MiniPascal.Proofs.Grammar.Expression
import MiniPascal.Proofs.Meaning.Value

/-!
# Phrases and their values

The parse trees of expressions of numbers, truth values and characters. Every node stands for one production of the
grammar: operators of one rank group from the left, and a sign belongs to the whole first term. The value of a phrase
is made of the values of its parts, all of which are found from left to right.
-/

namespace MiniPascal

open Operator

/-- How tightly a phrase is bound together, the tightest first. -/
inductive Rank where
  | factor
  | term
  | simple
  | expression
deriving DecidableEq, Repr

/-- The phrases of a rank. -/
inductive Phrase : Rank → Type where
  | integer (n : Int32) : Phrase .factor
  | character (c : UInt8) : Phrase .factor
  | name (x : Text) : Phrase .factor
  | paren (e : Phrase .expression) : Phrase .factor
  | complement (f : Phrase .factor) : Phrase .factor
  | apply (function : Builtin) (e : Phrase .expression) : Phrase .factor
  | factor (f : Phrase .factor) : Phrase .term
  | multiply (t : Phrase .term) (op : Operator) (f : Phrase .factor) : Phrase .term
  | term (t : Phrase .term) : Phrase .simple
  | sign (negative : Bool) (t : Phrase .term) : Phrase .simple
  | add (s : Phrase .simple) (op : Operator) (t : Phrase .term) : Phrase .simple
  | simple (s : Phrase .simple) : Phrase .expression
  | compare (s : Phrase .simple) (relation : Relation) (t : Phrase .simple) : Phrase .expression

namespace Phrase

/-- The value of a phrase, or the fault of the first operation that has no result. -/
def eval (values : Text → Value) {r : Rank} : Phrase r → Except Fault Value
  | integer n => .ok (.integer n)
  | character c => .ok (.character c)
  | name x => .ok (values x)
  | paren e => e.eval values
  | complement f => f.eval values >>= Value.complement
  | apply function e => e.eval values >>= function.value
  | factor f => f.eval values
  | multiply t op f => do
    let a ← t.eval values
    let b ← f.eval values
    op.value a b
  | term t => t.eval values
  | sign negative t => t.eval values >>= Value.signed negative
  | add s op t => do
    let a ← s.eval values
    let b ← t.eval values
    op.value a b
  | simple s => s.eval values
  | compare s relation t => do
    let a ← s.eval values
    let b ← t.eval values
    relation.value a b

def names {r : Rank} : Phrase r → List Text
  | integer _ | character _ => []
  | name x => [x]
  | paren e | apply _ e => e.names
  | complement f | factor f => f.names
  | term t | sign _ t => t.names
  | simple s => s.names
  | multiply t _ f => t.names ++ f.names
  | add s _ t => s.names ++ t.names
  | compare s _ t => s.names ++ t.names

/-- The words on the stack that are needed to find the value of a phrase. -/
def words {r : Rank} : Phrase r → Nat
  | integer _ | character _ | name _ => 1
  | paren e | apply _ e => e.words
  | complement f | factor f => f.words
  | term t | sign _ t => t.words
  | simple s => s.words
  | multiply t _ f => max t.words (f.words + 1)
  | add s _ t => max s.words (t.words + 1)
  | compare s _ t => max s.words (t.words + 1)

end Phrase

/-- Lexemes spell a phrase. Truth values are spelled by their names. -/
inductive Spells : {r : Rank} → Phrase r → List Lexeme → Prop where
  | integer {l : Lexeme} {n : Int32} (token : l.token = .integerLiteral)
    (value : l.value = some (.integer n.toInt64)) : Spells (.integer n) [l]
  | character {l : Lexeme} {c : UInt8} (token : l.token = .stringLiteral) (text : l.text = [c]) :
    Spells (.character c) [l]
  | name {l : Lexeme} {x : Text} (token : l.token = .identifier) (text : l.text = x) : Spells (.name x) [l]
  | paren {left right : Lexeme} {e : Phrase .expression} {ls : List Lexeme} (opened : left.token = .leftParen)
    (inside : Spells e ls) (closed : right.token = .rightParen) : Spells (.paren e) (left :: ls ++ [right])
  | complement {l : Lexeme} {f : Phrase .factor} {ls : List Lexeme} (token : l.token = .kwNot)
    (operand : Spells f ls) : Spells (.complement f) (l :: ls)
  | apply {l left right : Lexeme} {function : Builtin} {e : Phrase .expression} {ls : List Lexeme}
    (token : l.token = .builtin function) (ordinal : function.isOrdinal = true) (opened : left.token = .leftParen)
    (argument : Spells e ls) (closed : right.token = .rightParen) :
    Spells (.apply function e) (l :: left :: ls ++ [right])
  | factor {f : Phrase .factor} {ls : List Lexeme} (only : Spells f ls) : Spells (.factor f) ls
  | multiply {l : Lexeme} {t : Phrase .term} {op : Operator} {f : Phrase .factor} {ls ks : List Lexeme}
    (left : Spells t ls) (token : multiplicative? l.token = some op) (exact : op ≠ .divide)
    (right : Spells f ks) : Spells (.multiply t op f) (ls ++ l :: ks)
  | term {t : Phrase .term} {ls : List Lexeme} (only : Spells t ls) : Spells (.term t) ls
  | sign {l : Lexeme} {negative : Bool} {t : Phrase .term} {ls : List Lexeme}
    (token : l.token = if negative then .minus else .plus) (operand : Spells t ls) : Spells (.sign negative t) (l :: ls)
  | add {l : Lexeme} {s : Phrase .simple} {op : Operator} {t : Phrase .term} {ls ks : List Lexeme}
    (left : Spells s ls) (token : additive? l.token = some op) (right : Spells t ks) :
    Spells (.add s op t) (ls ++ l :: ks)
  | simple {s : Phrase .simple} {ls : List Lexeme} (only : Spells s ls) : Spells (.simple s) ls
  | compare {l : Lexeme} {s t : Phrase .simple} {relation : Relation} {ls ks : List Lexeme}
    (left : Spells s ls) (token : Relation.ofToken? l.token = some relation) (right : Spells t ks) :
    Spells (.compare s relation t) (ls ++ l :: ks)

namespace Rank

def ends (r : Rank) (t : Token) : Bool :=
  !decide (t ∈ [Token.leftBracket, .period, .caret]) &&
    match r with
    | factor => true
    | term => (multiplicative? t).isNone
    | simple => (multiplicative? t).isNone && (additive? t).isNone
    | expression =>
      (multiplicative? t).isNone && (additive? t).isNone && (Relation.ofToken? t).isNone

variable {t : Token}

theorem ends_term (h : term.ends t = true) : factor.ends t = true ∧ multiplicative? t = none := by
  simp_all [ends]

theorem ends_simple (h : simple.ends t = true) : term.ends t = true ∧ additive? t = none := by
  simp_all [ends]

theorem ends_expression (h : expression.ends t = true) : simple.ends t = true ∧ Relation.ofToken? t = none := by
  simp_all [ends]

end Rank

/-- A factor and a term do not start with a sign. -/
theorem Spells.unsigned {r : Rank} {φ : Phrase r} {ls : List Lexeme} (h : Spells φ ls) (hr : r = .factor ∨ r = .term) :
    ∃ l ks, ls = l :: ks ∧ Parser.sign? l.token = none := by
  induction h with
  | integer token _ => exact ⟨_, _, rfl, by rw [token]; rfl⟩
  | character token _ => exact ⟨_, _, rfl, by rw [token]; rfl⟩
  | name token _ => exact ⟨_, _, rfl, by rw [token]; rfl⟩
  | paren opened => exact ⟨_, _, rfl, by rw [opened]; rfl⟩
  | complement token => exact ⟨_, _, rfl, by rw [token]; rfl⟩
  | apply token => exact ⟨_, _, rfl, by rw [token]; rfl⟩
  | factor _ ih => exact ih (.inl rfl)
  | multiply _ _ _ _ ih =>
    obtain ⟨l, ks, rfl, hsign⟩ := ih (.inr rfl)
    exact ⟨l, _, rfl, hsign⟩
  | _ => simp at hr

end MiniPascal
