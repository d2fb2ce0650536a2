import Dataflow.Decimal.Notation
import Dataflow.Text.Quoted
import Dataflow.Value.Basic

/-!
# Values as text

How values appear in messages and in rendered expressions: floats in decimal, strings in quotes,
arrays in brackets.
-/

namespace Dataflow

/-- Items in brackets, separated by commas. -/
def bracketed (items : List String) : String :=
  "[" ++ ", ".intercalate items ++ "]"

/-- Extents as they appear in messages. -/
def extentsText (dims : List Nat) : String :=
  bracketed (dims.map toString)

def Scalar.text : Scalar → String
  | .bool b => if b then "true" else "false"
  | .int i => toString i.toInt
  | .float x => Decimal.display x
  | .str s => Text.quoted s

namespace Value

mutual

/-- The text of a value. -/
def text : Value → String
  | .scalar s => s.text
  | .array items => bracketed (itemTexts items)

def itemTexts : List Value → List String
  | [] => []
  | v :: vs => v.text :: itemTexts vs

end

/-- The name of the value's kind. -/
def kindName : Value → String
  | .scalar s => s.kindName
  | .array _ => "array"

end Value

end Dataflow
