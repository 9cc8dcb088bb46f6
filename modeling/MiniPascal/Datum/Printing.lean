import MiniPascal.Datum.Basic
import MiniPascal.Text.Quoted
import MiniPascal.Binary64.Printing

/-!
# Text of data

How a datum is shown in code and in diagnostics.
-/

namespace MiniPascal.Datum

def textOfBool (b : Bool) : Text := Text.ofString (if b then "true" else "false")

/-- Integers in decimal, characters quoted, reals in their shortest form, addresses behind `@`. -/
def text : Datum → Text
  | .integer v => Text.ofInt v.toInt
  | .boolean b => textOfBool b
  | .character c => Text.quoteChar c
  | .real x => Binary64.print (Binary64.ofFloat x)
  | .address a => Text.byte '@' :: Text.ofInt a.toInt

end MiniPascal.Datum
