import MiniPascal.Text

/-!
# Tokens

The classes of lexemes: literals, operators, reserved words, and the names of the built-in functions.
-/

namespace MiniPascal

/-- The built-in functions of one argument. -/
inductive Builtin where
  | abs
  | arctan
  | chr
  | cos
  | exp
  | ln
  | odd
  | ord
  | pred
  | round
  | sin
  | sqr
  | sqrt
  | succ
  | trunc
deriving DecidableEq, Repr

/-- The class of a lexeme. -/
inductive Token where
  | endOfFile
  | unknown
  | unclosedComment
  | identifier
  | integerLiteral
  | realLiteral
  | stringLiteral
  | plus
  | minus
  | star
  | slash
  | equal
  | notEqual
  | less
  | lessEqual
  | greater
  | greaterEqual
  | leftParen
  | rightParen
  | leftBracket
  | rightBracket
  | comma
  | colon
  | semicolon
  | period
  | range
  | becomes
  | caret
  | kwAnd
  | kwArray
  | kwBegin
  | kwConst
  | kwDiv
  | kwDo
  | kwDownto
  | kwElse
  | kwEnd
  | kwFor
  | kwFunction
  | kwIf
  | kwMod
  | kwNil
  | kwNot
  | kwOf
  | kwOr
  | kwProcedure
  | kwProgram
  | kwRecord
  | kwRepeat
  | kwShl
  | kwShr
  | kwThen
  | kwTo
  | kwType
  | kwUntil
  | kwVar
  | kwWhile
  | kwXor
  | kwWrite
  | kwWriteln
  | kwNew
  | kwDispose
  | builtin (function : Builtin)
deriving DecidableEq, Repr

namespace Builtin

/-- The built-in functions in alphabetical order. -/
def all : List Builtin :=
  [.abs, .arctan, .chr, .cos, .exp, .ln, .odd, .ord, .pred, .round, .sin, .sqr, .sqrt, .succ, .trunc]

/-- The word that names a built-in function. -/
def spelling : Builtin → List Char
  | .abs => ['a', 'b', 's']
  | .arctan => ['a', 'r', 'c', 't', 'a', 'n']
  | .chr => ['c', 'h', 'r']
  | .cos => ['c', 'o', 's']
  | .exp => ['e', 'x', 'p']
  | .ln => ['l', 'n']
  | .odd => ['o', 'd', 'd']
  | .ord => ['o', 'r', 'd']
  | .pred => ['p', 'r', 'e', 'd']
  | .round => ['r', 'o', 'u', 'n', 'd']
  | .sin => ['s', 'i', 'n']
  | .sqr => ['s', 'q', 'r']
  | .sqrt => ['s', 'q', 'r', 't']
  | .succ => ['s', 'u', 'c', 'c']
  | .trunc => ['t', 'r', 'u', 'n', 'c']

end Builtin

namespace Token

/-- The reserved words, the names of the built-in procedures among them. -/
def reserved : List Token :=
  [.kwAnd, .kwArray, .kwBegin, .kwConst, .kwDiv, .kwDo, .kwDownto, .kwElse, .kwEnd, .kwFor,
   .kwFunction, .kwIf, .kwMod, .kwNil, .kwNot, .kwOf, .kwOr, .kwProcedure, .kwProgram, .kwRecord,
   .kwRepeat, .kwShl, .kwShr, .kwThen, .kwTo, .kwType, .kwUntil, .kwVar, .kwWhile, .kwXor, .kwWrite,
   .kwWriteln, .kwNew, .kwDispose]

/-- The words of the language: reserved words and names of built-in functions. -/
def words : List Token := reserved ++ Builtin.all.map .builtin

/-- The characters of an operator, a reserved word or a built-in name. -/
def spelling : Token → List Char
  | .plus => ['+']
  | .minus => ['-']
  | .star => ['*']
  | .slash => ['/']
  | .equal => ['=']
  | .notEqual => ['<', '>']
  | .less => ['<']
  | .lessEqual => ['<', '=']
  | .greater => ['>']
  | .greaterEqual => ['>', '=']
  | .leftParen => ['(']
  | .rightParen => [')']
  | .leftBracket => ['[']
  | .rightBracket => [']']
  | .comma => [',']
  | .colon => [':']
  | .semicolon => [';']
  | .period => ['.']
  | .range => ['.', '.']
  | .becomes => [':', '=']
  | .caret => ['^']
  | .kwAnd => ['a', 'n', 'd']
  | .kwArray => ['a', 'r', 'r', 'a', 'y']
  | .kwBegin => ['b', 'e', 'g', 'i', 'n']
  | .kwConst => ['c', 'o', 'n', 's', 't']
  | .kwDiv => ['d', 'i', 'v']
  | .kwDo => ['d', 'o']
  | .kwDownto => ['d', 'o', 'w', 'n', 't', 'o']
  | .kwElse => ['e', 'l', 's', 'e']
  | .kwEnd => ['e', 'n', 'd']
  | .kwFor => ['f', 'o', 'r']
  | .kwFunction => ['f', 'u', 'n', 'c', 't', 'i', 'o', 'n']
  | .kwIf => ['i', 'f']
  | .kwMod => ['m', 'o', 'd']
  | .kwNil => ['n', 'i', 'l']
  | .kwNot => ['n', 'o', 't']
  | .kwOf => ['o', 'f']
  | .kwOr => ['o', 'r']
  | .kwProcedure => ['p', 'r', 'o', 'c', 'e', 'd', 'u', 'r', 'e']
  | .kwProgram => ['p', 'r', 'o', 'g', 'r', 'a', 'm']
  | .kwRecord => ['r', 'e', 'c', 'o', 'r', 'd']
  | .kwRepeat => ['r', 'e', 'p', 'e', 'a', 't']
  | .kwShl => ['s', 'h', 'l']
  | .kwShr => ['s', 'h', 'r']
  | .kwThen => ['t', 'h', 'e', 'n']
  | .kwTo => ['t', 'o']
  | .kwType => ['t', 'y', 'p', 'e']
  | .kwUntil => ['u', 'n', 't', 'i', 'l']
  | .kwVar => ['v', 'a', 'r']
  | .kwWhile => ['w', 'h', 'i', 'l', 'e']
  | .kwXor => ['x', 'o', 'r']
  | .kwWrite => ['w', 'r', 'i', 't', 'e']
  | .kwWriteln => ['w', 'r', 'i', 't', 'e', 'l', 'n']
  | .kwNew => ['n', 'e', 'w']
  | .kwDispose => ['d', 'i', 's', 'p', 'o', 's', 'e']
  | .builtin f => f.spelling
  | _ => []

/-- What a token is called in messages. -/
def name : Token → Text
  | .endOfFile => Text.ofString "end of file"
  | .unknown => Text.ofString "unknown character"
  | .unclosedComment => Text.ofString "unterminated comment"
  | .identifier => Text.ofString "identifier"
  | .integerLiteral => Text.ofString "integer"
  | .realLiteral => Text.ofString "real"
  | .stringLiteral => Text.ofString "string"
  | t => Text.ofChars t.spelling

/-- The tokens that stand for many spellings or for none. -/
def classes : List Token :=
  [.endOfFile, .unknown, .unclosedComment, .identifier, .integerLiteral, .realLiteral, .stringLiteral]

/-- Operators and punctuation. -/
def symbols : List Token :=
  [.plus, .minus, .star, .slash, .equal, .notEqual, .less, .lessEqual, .greater, .greaterEqual,
   .leftParen, .rightParen, .leftBracket, .rightBracket, .comma, .colon, .semicolon, .period,
   .range, .becomes, .caret]

/-- The tokens in the order of their numbers. One number, between symbols and words, is left free. -/
def numbered : List (Option Token) :=
  (classes ++ symbols).map some ++ [none] ++ words.map some

def ofNumber? (number : Int) : Option Token :=
  match number with
  | .ofNat n => (numbered[n]?).join
  | .negSucc _ => none

/-- The name of the token with a given number, also for numbers that no token has. -/
def nameOf (number : Int) : Text :=
  match ofNumber? number with
  | some t => t.name
  | none => Text.ofString "token?"

/-- Whether a token names a built-in function. -/
def isBuiltin : Token → Bool
  | .builtin _ => true
  | _ => false

/-- The token of a word in lower case: a word of the language, or else an identifier. -/
def ofWord (word : Text) : Token :=
  (words.find? fun t => Text.ofChars t.spelling == word).getD .identifier

end Token

end MiniPascal
