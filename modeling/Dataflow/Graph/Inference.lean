import Dataflow.Graph.Building

/-!
# Adding operations

What is known of the result of an operation before it is evaluated, its element type and as much of
its shape as follows from the operands and the literal options.
-/

namespace Dataflow

namespace Graph

def dtypeOf (g : Graph) (id : Option NodeId) : DType :=
  match id.bind g.node? with
  | some n => n.dtype
  | none => .unknown

def shapeOf (g : Graph) (id : Option NodeId) : Option Shape :=
  (id.bind g.node?).bind (·.shape)

/-- The element type of the result. Comparisons yield truth values and the operations that count or
locate yield integers; the others follow an option or their first operand. -/
def resultDType (g : Graph) (o : Operation) : DType :=
  let first := g.dtypeOf o.operands.head?
  match o.op with
  | .kernel (.binary (.comparison _)) => .boolean
  | .kernel .shape | .kernel .rank | .kernel .argmax => .int32
  | .kernel .cast | .kernel (.fill _) | .kernel .eye | .kernel (.random _) =>
    (o.options.dtype? "dtype").getD .float32
  | .kernel (.fillLike _) => (o.options.dtype? "dtype").getD first
  | .kernel .concat =>
    match o.options.get? "values" with
    | some (.nodes ids) => g.dtypeOf ids.head?
    | _ => .unknown
  | .control .flowGroup | .control .gradients => .unknown
  | _ => first

/-- The extents that a literal option lists. -/
def listedShape (o : Options) : Option Shape :=
  match o.get? "shape" with
  | some (.value v) =>
    match v.asExtents with
    | .ok dims => some (.known dims)
    | .error _ => none
  | _ => none

/-- What is known of the shape of the result. -/
def resultShape (g : Graph) (o : Operation) : Option Shape :=
  let first := g.shapeOf o.operands.head?
  match o.op with
  | .kernel (.binary _) => do
    let a ← first
    let b ← g.shapeOf o.operands[1]?
    match a.broadcast b with
    | .ok s => some s
    | .error _ => none
  | .kernel (.unary _) | .kernel .cast | .kernel (.fillLike _) | .control .identity
  | .control .stopGradient | .control .print | .control (.assign _) => first
  | .kernel .rank => some .scalar
  | .kernel .shape => first.map fun s => .known [s.rank]
  | .kernel .transpose => first.map Shape.reverse
  | .kernel (.fill _) | .kernel (.random _) => listedShape o.options
  | _ => none

/-- The operation with the given tag, or the failure that there is none. -/
def opOfTag (tag : String) : Except Failure Op :=
  match Op.ofTag? tag with
  | some op => .ok op
  | none => .error (.unknownOperation tag)

end Graph

namespace Building

/-- Adds an operation on nodes that are there. -/
def addOperation (name : String) (o : Operation) : Building NodeId := do
  let (least, greatest) := o.op.arity
  let got := o.operands.length
  if got < least ∨ greatest < got then throw (.arity o.op (.between least greatest) got)
  o.references.forM fun id => discard (node id)
  let g ← get
  insert name (g.resultDType o) (g.resultShape o) false (.operation o)

/-- Adds an operation that is given by its tag, under the given name or else under the tag. -/
def addTagged (tag : String) (name : Option String) (operands : List NodeId) (options : Options) :
    Building NodeId := do
  let op ← Graph.opOfTag tag
  addOperation (name.getD op.tag) ⟨op, operands, options⟩

/-- Adds a copy of the operation of node `origin`, with the same element type and shape. -/
def addDeferred (origin : NodeId) (o : Operation) : Building NodeId := do
  let node ← node origin
  insert s!"{o.op.tag}_deferred" node.dtype node.shape false (.operation o)

end Building

namespace Graph

def addOperation (g : Graph) (name : String) (o : Operation) : Except Failure (Graph × NodeId) :=
  g.outcome (.addOperation name o)

def addTagged (g : Graph) (tag : String) (name : Option String) (operands : List NodeId)
    (options : Options) : Except Failure (Graph × NodeId) :=
  g.outcome (.addTagged tag name operands options)

def addDeferred (g : Graph) (origin : NodeId) (o : Operation) : Except Failure (Graph × NodeId) :=
  g.outcome (.addDeferred origin o)

end Graph

end Dataflow
