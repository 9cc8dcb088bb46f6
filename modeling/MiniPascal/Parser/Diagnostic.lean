import MiniPascal.Parser.Declaration

/-!
# Diagnostics

What can be wrong with a source, and how it is reported.
-/

namespace MiniPascal

/-- What is wrong at a place of a source. Types appear by their texts. -/
inductive Problem where
  | unexpected (text : Text)
  | unterminatedComment
  | expected (token : Token)
  | identifierExpected
  | naming (error : Scope.Error)
  | textAfterProgram
  | characterConstantExpected
  | notAConstant (name : Text)
  | constantExpected
  | signOnConstant
  | undefinedPointerBase (name : Text)
  | typeExpected
  | typeIdentifierExpected
  | notAType (name : Text)
  | subrangeBounds
  | typing (error : TypeError)
  | duplicateField (name : Text)
  | emptyRecord
  | aggregateResult
  | cannotCompare (left right : Text)
  | pointerOrder
  | signOnOperand
  | operandsNotNumbers (op : Operator)
  | operandsNotIntegers (op : Operator)
  | operandsNotLogical (op : Operator)
  | stringOutsideWrite
  | complementOperand
  | expressionExpected
  | notAValue (kind : DeclKind) (name : Text)
  | notAnArray (type : Text)
  | notARecord (type : Text)
  | noField (name type : Text)
  | notAPointer (type : Text)
  | indexMismatch (index declared : Text)
  | numberExpectedBy (function : Builtin)
  | integerExpectedBy (function : Builtin)
  | ordinalExpectedBy (function : Builtin)
  | semicolonOrEndExpected
  | functionAsStatement (name : Text)
  | cannotAssign (kind : DeclKind) (name : Text)
  | equalForBecomes
  | typeMismatch (target source : Text)
  | argumentCount (name : Text) (wanted given : Nat)
  | argumentMismatch (arg param : Text)
  | booleanExpected
  | controlVariableExpected
  | notAnOrdinalVariable (name : Text)
  | directionExpected
  | limitMismatch
  | cannotWrite (type : Text)
  | widthNotInteger
  | pointerVariableExpected
  | notAVariable (name : Text)
deriving DecidableEq, Repr

namespace Problem

open Text (ofString)

def message : Problem → Text
  | .unexpected text => ofString "unexpected " ++ text.quote
  | .unterminatedComment => ofString "unterminated comment"
  | .expected token => ofString "'" ++ token.name ++ ofString "' expected"
  | .identifierExpected => ofString "identifier expected"
  | .naming error => error.message
  | .textAfterProgram => ofString "text after end of program"
  | .characterConstantExpected => ofString "character constant expected"
  | .notAConstant name => name ++ ofString " is not a constant"
  | .constantExpected => ofString "constant expected"
  | .signOnConstant => ofString "sign on non-numeric constant"
  | .undefinedPointerBase name => ofString "undefined pointer base type " ++ name
  | .typeExpected => ofString "type expected"
  | .typeIdentifierExpected => ofString "type identifier expected"
  | .notAType name => name ++ ofString " is not a type"
  | .subrangeBounds => ofString "subrange bounds must be ordinals of one type"
  | .typing error => error.message
  | .duplicateField name => ofString "duplicate field " ++ name
  | .emptyRecord => ofString "empty record"
  | .aggregateResult => ofString "function result must be a scalar"
  | .cannotCompare left right => ofString "cannot compare " ++ left ++ ofString " and " ++ right
  | .pointerOrder => ofString "pointers can only be tested for equality"
  | .signOnOperand => ofString "sign on non-numeric operand"
  | .operandsNotNumbers op => ofString "operands of " ++ op.token.name ++ ofString " must be numbers"
  | .operandsNotIntegers op =>
    ofString "operands of " ++ op.token.name ++ ofString " must be integers"
  | .operandsNotLogical op =>
    ofString "operands of " ++ op.token.name ++ ofString " must be both boolean or both integer"
  | .stringOutsideWrite => ofString "strings are only allowed in write"
  | .complementOperand => ofString "operand of not must be boolean or integer"
  | .expressionExpected => ofString "expression expected"
  | .notAValue kind name => kind.name ++ ofString " " ++ name ++ ofString " is not a value"
  | .notAnArray type => type ++ ofString " is not an array"
  | .notARecord type => type ++ ofString " is not a record"
  | .noField name type => ofString "no field " ++ name ++ ofString " in " ++ type
  | .notAPointer type => type ++ ofString " is not a pointer"
  | .indexMismatch index declared =>
    ofString "index type mismatch: " ++ index ++ ofString " for " ++ declared
  | .numberExpectedBy function => Text.ofChars function.spelling ++ ofString " expects a number"
  | .integerExpectedBy function => Text.ofChars function.spelling ++ ofString " expects an integer"
  | .ordinalExpectedBy function => Text.ofChars function.spelling ++ ofString " expects an ordinal"
  | .semicolonOrEndExpected => ofString "';' or 'end' expected"
  | .functionAsStatement name => ofString "function " ++ name ++ ofString " called as a statement"
  | .cannotAssign kind name => ofString "cannot assign to " ++ kind.name ++ ofString " " ++ name
  | .equalForBecomes => ofString "':=' expected, found '='"
  | .typeMismatch target source => ofString "type mismatch: " ++ target ++ ofString " := " ++ source
  | .argumentCount name wanted given =>
    name ++ ofString " expects " ++ Text.ofNat wanted ++ ofString " arguments, got " ++
      Text.ofNat given
  | .argumentMismatch arg param =>
    ofString "argument type mismatch: " ++ arg ++ ofString " for " ++ param
  | .booleanExpected => ofString "boolean expression expected"
  | .controlVariableExpected => ofString "control variable expected"
  | .notAnOrdinalVariable name => name ++ ofString " is not an ordinal variable"
  | .directionExpected => ofString "'to' or 'downto' expected"
  | .limitMismatch => ofString "for limit does not match control variable"
  | .cannotWrite type => ofString "cannot write " ++ type
  | .widthNotInteger => ofString "field width must be an integer"
  | .pointerVariableExpected => ofString "pointer variable expected"
  | .notAVariable name => name ++ ofString " is not a variable"

end Problem

/-- A problem at a place of the source. -/
structure Diagnostic where
  pos : Nat
  line : Nat
  problem : Problem
deriving DecidableEq, Repr

/-- Something that is allowed but may not be meant. -/
inductive Concern where
  | realRounded
deriving DecidableEq, Repr

/-- A concern at a line of the source. -/
structure Warning where
  line : Nat
  concern : Concern
deriving DecidableEq, Repr

namespace Concern

def message : Concern → Text
  | .realRounded => Text.ofString "real value rounded to integer"

end Concern

namespace Diagnostic

/-- One line of a report. -/
def text (d : Diagnostic) : Text :=
  d.problem.message ++ Text.ofString " near line " ++ Text.ofNat d.line

def report (ds : List Diagnostic) : Text := Text.join Text.newline (ds.map text)

end Diagnostic

end MiniPascal
