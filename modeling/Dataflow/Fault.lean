import Dataflow.DType
import Dataflow.Value.Text

/-!
# Faults of operations on values

Every reason for which an operation on values can refuse its arguments, and the message for each.
-/

namespace Dataflow

/-- What an operation wanted in the place of the value that it got. -/
inductive Wanted where
  | numericScalar
  | integerScalar
  | comparableScalars
  | array
deriving DecidableEq

/-- The cause of a refusal. -/
inductive Fault where
  | shapeMismatch (expected got : List Nat)
  | rankMismatch (expected got : Nat)
  | incompatibleShapes (a b : List Nat)
  /-- A product of an `m × k` and a `k' × n` matrix. -/
  | productMismatch (m k k' n : Nat)
  | invalidAxis (axis : Int) (rank : Nat)
  | unsupportedReduction (axis : Int)
  | indexOutOfBounds (index : Int) (length : Nat)
  | typeMismatch (wanted : Wanted) (got : String)
  | invalidCast (value : Scalar) (dtype : DType)
  | divisionByZero
  /-- An operator of the other kind came up where one was to be computed. -/
  | notArithmetic (operator : String)
  /-- An operator of the other kind came up where two operands were to be compared. -/
  | notComparison (operator : String)
  | unknownDType (name : String)
  | negativeExtent (extent : Int)
  | secondInferredExtent
  | invalidExtent (extent : Int)
  | invalidSize (size : Int)
  | untransposableRank (rank : Nat)
  | emptyArgmax
  | bufferLength (operand : String) (length rows cols : Nat)
  /-- A backend gave up on a product, for a reason of its own. -/
  | refusedProduct (reason : String)

namespace Wanted

def text : Wanted → String
  | .numericScalar => "numeric scalar"
  | .integerScalar => "integer scalar"
  | .comparableScalars => "comparable scalars"
  | .array => "array"

end Wanted

namespace Fault

def message : Fault → String
  | .shapeMismatch expected got =>
    s!"shape mismatch: expected {extentsText expected}, got {extentsText got}"
  | .rankMismatch expected got => s!"rank mismatch: expected {expected}, got {got}"
  | .incompatibleShapes a b =>
    s!"incompatible tensor shapes {extentsText a} and {extentsText b} used during op"
  | .productMismatch m k k' n =>
    "matmul dimension mismatch: [" ++ s!"{m}x{k}" ++ "] @ [" ++ toString k' ++ s!"x{n}]"
  | .invalidAxis axis rank => s!"invalid axis {axis} for value with {rank} dimensions"
  | .unsupportedReduction axis =>
    s!"reduction along axis {axis} is not supported (only axes 0 and 1)"
  | .indexOutOfBounds index length => s!"index {index} out of bounds for length {length}"
  | .typeMismatch wanted got => s!"type mismatch: expected {wanted.text}, got {got}"
  | .invalidCast value dtype => s!"cannot cast {value.text} to {dtype.text}"
  | .divisionByZero => "integer division by zero"
  | .notArithmetic operator => s!"{operator} is not arithmetic"
  | .notComparison operator => s!"{operator} is not a comparison"
  | .unknownDType name => s!"unknown dtype: {name}"
  | .negativeExtent extent => s!"expected a non-negative extent, got {extent}"
  | .secondInferredExtent => "reshape: only one dimension can be inferred"
  | .invalidExtent extent => s!"reshape: invalid extent {extent}"
  | .invalidSize size => s!"slice: invalid size {size}"
  | .untransposableRank rank => s!"transpose supports at most 2 dimensions, got {rank}"
  | .emptyArgmax => "argmax over an empty axis"
  | .bufferLength operand length rows cols =>
    s!"matmul: {operand} holds {length} elements, expected {rows}x{cols}"
  | .refusedProduct reason => reason

/-- Whether the fault stems from shapes or ranks that do not fit together. -/
def isShapeFault : Fault → Bool
  | .shapeMismatch .. | .rankMismatch .. | .incompatibleShapes .. | .productMismatch ..
  | .invalidAxis .. => true
  | _ => false

end Fault

/-- The element type with the given name, or the fault that there is none. -/
def DType.ofName (name : String) : Except Fault DType :=
  match DType.ofName? name with
  | some t => .ok t
  | none => .error (.unknownDType name)

end Dataflow
