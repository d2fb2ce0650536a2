import Dataflow.Value.Basic

/-!
# Element types

The element type that a node declares, the representation of zero and one in each, and the element
type that a value has when none is declared.
-/

namespace Dataflow

/-- A declared element type. Several of them share one kind of scalar: a `float32` is a double that
has been rounded to single precision, and the integer types are 64-bit words in a smaller range. -/
inductive DType where
  | float32
  | float64
  | int32
  | int16
  | string
  | boolean
  /-- Not known yet, such as that of a placeholder declared without one. -/
  | unknown
deriving DecidableEq, Inhabited

namespace DType

def text : DType → String
  | .float32 => "float32"
  | .float64 => "float64"
  | .int32 => "int32"
  | .int16 => "int16"
  | .string => "string"
  | .boolean => "boolean"
  | .unknown => "unknown"

/-- The element type with the given name. Three of them have a short name besides the one that
`text` writes, and `float64` is also called `double`. -/
def ofName? : String → Option DType
  | "float32" | "float" => some .float32
  | "float64" | "double" => some .float64
  | "int32" | "int" => some .int32
  | "int16" => some .int16
  | "string" => some .string
  | "boolean" | "bool" => some .boolean
  | "unknown" => some .unknown
  | _ => none

def isFloat : DType → Bool
  | .float32 | .float64 => true
  | _ => false

def isInteger : DType → Bool
  | .int32 | .int16 => true
  | _ => false

def isNumeric (t : DType) : Bool :=
  t.isFloat || t.isInteger

/-- Zero in the representation of the type. An unknown type counts in integers. -/
def zero : DType → Scalar
  | .float32 | .float64 => .float 0.0
  | .boolean => .bool false
  | .string => .str ""
  | .int32 | .int16 | .unknown => .int 0

/-- One in the representation of the type. -/
def one : DType → Scalar
  | .float32 | .float64 => .float 1.0
  | .boolean => .bool true
  | .string => .str "1"
  | .int32 | .int16 | .unknown => .int 1

def ofScalar : Scalar → DType
  | .float _ => .float32
  | .int _ => .int32
  | .bool _ => .boolean
  | .str _ => .string

/-- The element type of a value: that of its first scalar, except that a float anywhere makes an
array that starts with a number a float array, so that no element is cut to an integer. -/
def ofValue (v : Value) : DType :=
  match v.scalars with
  | [] => .unknown
  | s :: ss =>
    let first := ofScalar s
    if first.isNumeric && (s :: ss).any (fun | .float _ => true | _ => false) then .float32
    else first

end DType

end Dataflow
