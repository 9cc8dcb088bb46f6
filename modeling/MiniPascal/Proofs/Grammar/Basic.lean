import MiniPascal.Token

/-!
# The grammar of the language

The productions of the language in extended Backus-Naur form, and the words that can be derived from them. The
sections of constants, types and variables may have no entries, and a plus sign may stand before a string
constant.
-/

namespace MiniPascal

open List

/-- The phrases that have a name. -/
inductive Nonterminal where
  | program
  | block
  | constDecl
  | typeDecl
  | varDecl
  | subDecl
  | params
  | identList
  | type
  | simpleType
  | fieldList
  | constant
  | compound
  | statement
  | wArg
  | args
  | variable
  | expression
  | simpleExpr
  | term
  | factor
deriving DecidableEq, Repr

/-- The right-hand side of a production: one of some tokens, a phrase with a name, a sequence, a choice, an
option or a repetition. -/
inductive Ebnf where
  | oneOf (tokens : List Token)
  | rule (name : Nonterminal)
  | seq (first second : Ebnf)
  | choice (alternatives : List Ebnf)
  | opt (body : Ebnf)
  | rep (body : Ebnf)

namespace Ebnf

instance : Append Ebnf := ⟨seq⟩

def tok (t : Token) : Ebnf := oneOf [t]

def ident : Ebnf := tok .identifier

def number : Ebnf := oneOf [.integerLiteral, .realLiteral]

def string : Ebnf := tok .stringLiteral

/-- Phrases with a token between each two of them. -/
def sepBy (item : Ebnf) (separator : Token) : Ebnf := item ++ rep (tok separator ++ item)

def group : Ebnf := rule .identList ++ tok .colon ++ rule .type

def paramGroup : Ebnf := rule .identList ++ tok .colon ++ ident

def selection : Ebnf :=
  choice
    [tok .leftBracket ++ sepBy (rule .expression) .comma ++ tok .rightBracket,
      tok .period ++ ident,
      tok .caret]

def listed (item : Ebnf) : Ebnf := tok .leftParen ++ sepBy item .comma ++ tok .rightParen

end Ebnf

open Ebnf

def production : Nonterminal → Ebnf
  | .program =>
    tok .kwProgram ++ ident ++ opt (listed ident) ++ tok .semicolon ++ rule .block ++ tok .period
  | .block =>
    rep (choice [rule .constDecl, rule .typeDecl, rule .varDecl, rule .subDecl]) ++ rule .compound
  | .constDecl => tok .kwConst ++ rep (ident ++ tok .equal ++ rule .constant ++ tok .semicolon)
  | .typeDecl => tok .kwType ++ rep (ident ++ tok .equal ++ rule .type ++ tok .semicolon)
  | .varDecl => tok .kwVar ++ rep (group ++ tok .semicolon)
  | .subDecl =>
    choice
      [tok .kwProcedure ++ ident ++ opt (rule .params) ++ tok .semicolon,
        tok .kwFunction ++ ident ++ opt (rule .params) ++ tok .colon ++ ident ++ tok .semicolon] ++
      rule .block ++ tok .semicolon
  | .params => tok .leftParen ++ sepBy paramGroup .semicolon ++ tok .rightParen
  | .identList => sepBy ident .comma
  | .type =>
    choice
      [ident,
        rule .simpleType,
        tok .kwArray ++ tok .leftBracket ++ sepBy (rule .simpleType) .comma ++ tok .rightBracket ++ tok .kwOf ++
          rule .type,
        tok .kwRecord ++ rule .fieldList ++ tok .kwEnd,
        tok .caret ++ ident]
  | .simpleType =>
    choice
      [ident,
        tok .leftParen ++ rule .identList ++ tok .rightParen,
        rule .constant ++ tok .range ++ rule .constant]
  | .fieldList => sepBy group .semicolon ++ opt (tok .semicolon)
  | .constant =>
    choice [opt (oneOf [.plus, .minus]) ++ choice [number, ident], opt (tok .plus) ++ string]
  | .compound => tok .kwBegin ++ sepBy (rule .statement) .semicolon ++ tok .kwEnd
  | .statement =>
    opt (choice
      [rule .variable ++ tok .becomes ++ rule .expression,
        ident ++ opt (rule .args),
        rule .compound,
        tok .kwIf ++ rule .expression ++ tok .kwThen ++ rule .statement ++ opt (tok .kwElse ++ rule .statement),
        tok .kwWhile ++ rule .expression ++ tok .kwDo ++ rule .statement,
        tok .kwRepeat ++ sepBy (rule .statement) .semicolon ++ tok .kwUntil ++ rule .expression,
        tok .kwFor ++ ident ++ tok .becomes ++ rule .expression ++ oneOf [.kwTo, .kwDownto] ++ rule .expression ++
          tok .kwDo ++ rule .statement,
        oneOf [.kwWrite, .kwWriteln] ++ opt (listed (rule .wArg)),
        tok .kwNew ++ tok .leftParen ++ rule .variable ++ tok .rightParen,
        tok .kwDispose ++ tok .leftParen ++ rule .variable ++ tok .rightParen])
  | .wArg =>
    choice
      [string, rule .expression ++ opt (tok .colon ++ rule .expression ++ opt (tok .colon ++ rule .expression))]
  | .args => listed (rule .expression)
  | .variable => ident ++ rep selection
  | .expression =>
    rule .simpleExpr ++ opt (oneOf [.equal, .notEqual, .less, .lessEqual, .greater, .greaterEqual] ++ rule .simpleExpr)
  | .simpleExpr =>
    opt (oneOf [.plus, .minus]) ++ rule .term ++ rep (oneOf [.plus, .minus, .kwOr, .kwXor] ++ rule .term)
  | .term =>
    rule .factor ++ rep (oneOf [.star, .slash, .kwDiv, .kwMod, .kwAnd, .kwShl, .kwShr] ++ rule .factor)
  | .factor =>
    choice
      [number,
        string,
        tok .kwNil,
        rule .variable,
        ident ++ opt (rule .args),
        oneOf (Builtin.all.map .builtin) ++ tok .leftParen ++ rule .expression ++ tok .rightParen,
        tok .leftParen ++ rule .expression ++ tok .rightParen,
        tok .kwNot ++ rule .factor]

/-- The words that can be derived. -/
inductive Derives : Ebnf → List Token → Prop where
  | oneOf {t : Token} {ts : List Token} : t ∈ ts → Derives (.oneOf ts) [t]
  | rule {n : Nonterminal} {w : List Token} : Derives (production n) w → Derives (.rule n) w
  | seq {a b : Ebnf} {u v : List Token} : Derives a u → Derives b v → Derives (a ++ b) (u ++ v)
  | choice {a : Ebnf} {as : List Ebnf} {w : List Token} : a ∈ as → Derives a w → Derives (.choice as) w
  | absent {a : Ebnf} : Derives (opt a) []
  | present {a : Ebnf} {w : List Token} : Derives a w → Derives (opt a) w
  | finished {a : Ebnf} : Derives (rep a) []
  | further {a : Ebnf} {u v : List Token} : Derives a u → Derives (rep a) v → Derives (rep a) (u ++ v)

/-- A repetition may also be extended at its end. -/
theorem Derives.rep_append {a : Ebnf} {u v : List Token} (hu : Derives (rep a) u) (hv : Derives a v) :
    Derives (rep a) (u ++ v) := by
  generalize hrep : rep a = e at hu
  induction hu with
  | finished =>
    cases hrep
    have hlast := Derives.further hv .finished
    rwa [append_nil] at hlast
  | further hfirst _ _ ih =>
    cases hrep
    rw [append_assoc]
    exact .further hfirst (ih rfl)
  | _ => cases hrep

namespace Ebnf

variable {a b : Ebnf} {K L : List Token → Prop} {r : List Token}

/-- What may be left after a phrase, given what may be left before it. -/
def After (e : Ebnf) (K : List Token → Prop) (r : List Token) : Prop := ∃ w, K (w ++ r) ∧ Derives e w

theorem After.mono (hKL : ∀ l, K l → L l) (h : a.After K r) : a.After L r := by
  obtain ⟨w, hw, hd⟩ := h
  exact ⟨w, hKL _ hw, hd⟩

theorem After.token {t : Token} {ts : List Token} (ht : t ∈ ts) (h : K (t :: r)) : (oneOf ts).After K r :=
  ⟨[t], h, .oneOf ht⟩

theorem After.rule {n : Nonterminal} (h : (production n).After K r) : (rule n).After K r := by
  obtain ⟨w, hw, hd⟩ := h
  exact ⟨w, hw, .rule hd⟩

theorem After.of_rule {n : Nonterminal} (h : (Ebnf.rule n).After K r) : (production n).After K r := by
  obtain ⟨w, hw, hd⟩ := h
  cases hd with
  | rule hd => exact ⟨w, hw, hd⟩

theorem after_seq : (a ++ b).After K = b.After (a.After K) := by
  ext r
  constructor
  · rintro ⟨w, hw, hd⟩
    cases hd with
    | @seq _ _ u v ha hb =>
      rw [append_assoc] at hw
      exact ⟨v, ⟨u, hw, ha⟩, hb⟩
  · rintro ⟨v, ⟨u, hu, ha⟩, hb⟩
    refine ⟨u ++ v, ?_, .seq ha hb⟩
    rwa [append_assoc]

theorem After.or (h : a.After (fun l => K l ∨ L l) r) : a.After K r ∨ a.After L r := by
  obtain ⟨w, hK | hL, hd⟩ := h
  · exact .inl ⟨w, hK, hd⟩
  · exact .inr ⟨w, hL, hd⟩

/-- The alternative with a given index. -/
theorem After.nth {as : List Ebnf} (i : Nat) (ha : as[i]? = some a) (h : a.After K r) : (choice as).After K r := by
  obtain ⟨w, hw, hd⟩ := h
  exact ⟨w, hw, .choice (mem_of_getElem? ha) hd⟩

theorem After.absent (h : K r) : (opt a).After K r := ⟨[], h, .absent⟩

theorem After.present (h : a.After K r) : (opt a).After K r := by
  obtain ⟨w, hw, hd⟩ := h
  exact ⟨w, hw, .present hd⟩

theorem After.finished (h : K r) : (rep a).After K r := ⟨[], h, .finished⟩

theorem After.further (h : a.After ((rep a).After K) r) : (rep a).After K r := by
  obtain ⟨v, ⟨u, hu, ha⟩, hb⟩ := h
  refine ⟨u ++ v, ?_, ha.rep_append hb⟩
  rwa [append_assoc]

theorem After.first {t : Token} (h : a.After K r) : (sepBy a t).After K r := after_seq ▸ .finished h

/-- A separator and a further phrase. -/
theorem After.next {t : Token} (h : a.After ((tok t).After ((sepBy a t).After K)) r) : (sepBy a t).After K r := by
  unfold sepBy at *
  rw [after_seq] at *
  apply After.further
  rw [after_seq]
  exact h

/-- What may be left before one of some phrases with a token between each two of them. -/
def Before (e : Ebnf) (t : Token) (K : List Token → Prop) (l : List Token) : Prop :=
  K l ∨ (tok t).After ((sepBy e t).After K) l

theorem After.separated {t : Token} (h : a.After (a.Before t K) r) : (sepBy a t).After K r := h.or.elim .first .next

end Ebnf

end MiniPascal
