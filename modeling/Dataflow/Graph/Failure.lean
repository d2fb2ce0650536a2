import Dataflow.Graph.Op

/-!
# Failures

The reasons for which a graph cannot be extended or a node cannot be evaluated. The failure of an
operation is put into the context of the node, once.
-/

namespace Dataflow

/-- How many operands were wanted. -/
inductive OperandCount where
  | between (least greatest : Nat)
  | atLeast (least : Nat)

/-- What is wrong with an option. -/
inductive Objection where
  | missing
  | notBinary
  | notUnary
  | notNodes
  /-- The value of the option is not of the kind that was wanted. -/
  | unreadable (fault : Fault)
  | negative
  | notPairs
  | notTwoExtents
  | severalAxes
  | negativeExtents
  | tooManyElements
  | noSamples
  | badDeviation
  | emptyRange
  /-- The library cannot build a sampler for the range. It does not report that but stops the
  program. -/
  | overwideRange
  /-- The complaint of the library about the parameters of a distribution. -/
  | refused (complaint : String)

inductive Failure where
  | unknownOperation (tag : String)
  | uninitializedVariable (name : String)
  | missingPlaceholder (name : String)
  | notAVariable (name : String)
  | arity (op : Op) (wanted : OperandCount) (got : Nat)
  | invalidOption (op : Op) (key : String) (objection : Objection)
  /-- Gradients are not evaluated but replaced, before any evaluation. -/
  | unbuiltGradients
  /-- A node of another kind was run as an operation. -/
  | notAnOperation (name : String)
  | noSuchNode (index : Nat)
  | fault (f : Fault)
  /-- The failure of the operation that has the given name and expression. -/
  | evaluation (name expression : String) (location : Option String) (cause : Failure)

namespace OperandCount

def text : OperandCount → String
  | .between least greatest =>
    if least = greatest then toString least else s!"{least}..={greatest}"
  | .atLeast least => s!"at least {least}"

end OperandCount

namespace Objection

def text : Objection → String
  | .missing => "missing"
  | .notBinary => "not a binary operation"
  | .notUnary => "not a unary operation"
  | .notNodes => "expected a sequence of nodes"
  | .unreadable fault => fault.message
  | .negative => "must be non-negative"
  | .notPairs => "expected a list of [before, after] pairs"
  | .notTwoExtents => "each entry needs exactly two extents"
  | .severalAxes => "argmax takes a single axis"
  | .negativeExtents => "extents must be non-negative"
  | .tooManyElements => "element count overflows"
  | .noSamples => "no samples drawn"
  | .badDeviation => "must be finite and non-negative"
  | .emptyRange => "must be greater than minval"
  | .overwideRange => "range overflow"
  | .refused complaint => complaint

end Objection

namespace Failure

/-- A fault of an operation on values as a failure. -/
def ofFault {α : Type} : Except Fault α → Except Failure α
  | .ok x => .ok x
  | .error f => .error (.fault f)

def message : Failure → String
  | .unknownOperation tag => s!"unknown operation: {tag}"
  | .uninitializedVariable name => s!"variable '{name}' read before it was initialized"
  | .missingPlaceholder name => s!"no value bound for placeholder '{name}'"
  | .notAVariable name => s!"'{name}' is not a variable"
  | .arity op wanted got => s!"{op.tag} takes {wanted.text} operands, got {got}"
  | .invalidOption op key objection =>
    s!"invalid option '{key}' for {op.tag}: {objection.text}"
  | .unbuiltGradients => "gradients must be built by a differentiation pass before evaluation"
  | .notAnOperation name => s!"'{name}' is not an operation"
  | .noSuchNode index => s!"no node with id {index}"
  | .fault f => f.message
  | .evaluation name expression location cause =>
    let place := match location with
      | some l => s!" (defined at {l})"
      | none => ""
    s!"failed to evaluate {name} = {expression}{place}: {cause.message}"

/-- Whether the failure has been put into the context of a node. -/
def isWrapped : Failure → Bool
  | .evaluation .. => true
  | _ => false

/-- The failure without the nodes around it. -/
def rootCause : Failure → Failure
  | .evaluation _ _ _ cause => cause.rootCause
  | f => f

/-- Whether the failure is not reported to the caller, because the program stops at it. -/
def stops : Failure → Bool
  | .invalidOption _ _ .overwideRange => true
  | .evaluation _ _ _ cause => cause.stops
  | _ => false

end Failure

end Dataflow
