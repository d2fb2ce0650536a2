import Dataflow.Decimal.Reader
import Dataflow.Scalar.Single
import Dataflow.Text.Blank
import Dataflow.Value.Views

/-!
# Casting

Conversion of every scalar of a value to an element type. The nesting stays as it is. Casting is
where `float32` loses precision and the integer types wrap, so a value that has been cast to a type
once is not changed by casting it to that type again.
-/

namespace Dataflow

namespace Scalar

/-- A string counts as the number that it writes, with blanks around it allowed. -/
def castFloat : Scalar → Except Fault Float
  | .str s =>
    match Decimal.readFloat? (Text.trimBlanks s.toList) with
    | some x => .ok x
    | none => .error (.invalidCast (.str s) .float64)
  | s => s.asFloat

/-- Cuts a fraction off; a number beyond the range of a word becomes the nearest word. A string may
write a whole number or a float. -/
def castInt (dtype : DType) : Scalar → Except Fault Int64
  | .int i => .ok i
  | .float x => if x.isFinite then .ok (Word.ofFloat x) else .error (.invalidCast (.float x) dtype)
  | .bool b => .ok (if b then 1 else 0)
  | .str s =>
    let cs := Text.trimBlanks s.toList
    match Decimal.readInt? cs, Decimal.readFloat? cs with
    | some i, _ => .ok i
    | none, some x => .ok (Word.ofFloat x)
    | none, none => .error (.invalidCast (.str s) dtype)

/-- A string has to be one of the two words, or empty for false; a number is true unless it is zero
or NaN. -/
def castBool : Scalar → Except Fault Bool
  | .str s =>
    match String.ofList (Text.trimBlanks s.toList) with
    | "true" => .ok true
    | "false" | "" => .ok false
    | _ => .error (.invalidCast (.str s) .boolean)
  | s => .ok s.truthy

/-- A string stays as it is, without quotes. -/
def castString : Scalar → String
  | .str s => s
  | s => s.text

/-- The scalar in the representation of `dtype`. An unknown type changes nothing. -/
def cast (dtype : DType) (s : Scalar) : Except Fault Scalar :=
  match dtype with
  | .float32 => do return .float (Single.round (← s.castFloat))
  | .float64 => do return .float (← s.castFloat)
  | .int32 => do return .int (← s.castInt dtype).toInt32.toInt64
  | .int16 => do return .int (← s.castInt dtype).toInt16.toInt64
  | .boolean => do return .bool (← s.castBool)
  | .string => .ok (.str s.castString)
  | .unknown => .ok s

end Scalar

/-- Every scalar of `v` in the representation of `dtype`, or the fault of the first that has
none. -/
def Value.cast (dtype : DType) (v : Value) : Except Fault Value :=
  v.traverse fun s => do return .scalar (← s.cast dtype)

end Dataflow
