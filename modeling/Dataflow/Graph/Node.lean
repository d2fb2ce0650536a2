import Dataflow.Graph.Op
import Dataflow.Shape

/-!
# Nodes

A graph is a list of nodes that refer to each other by position. A node is a literal, a reference to
another node, a variable, a placeholder that a context fills in, or an operation on other nodes.
-/

namespace Dataflow

/-- The position of a node in its graph. -/
structure NodeId where
  index : Nat
deriving DecidableEq, Inhabited

def NodeId.text (id : NodeId) : String := s!"#{id.index}"

/-! ## Options -/

/-- A named parameter of an operation. -/
inductive OptionValue where
  | value (v : Value)
  /-- A node that is evaluated when the operation is. -/
  | node (id : NodeId)
  | nodes (ids : List NodeId)
  | dtype (t : DType)

/-- The nodes that an option refers to. -/
def OptionValue.references : OptionValue → List NodeId
  | .node id => [id]
  | .nodes ids => ids
  | _ => []

/-- The parameters of an operation, in increasing order of their names. -/
structure Options where
  entries : List (String × OptionValue)

namespace Options

def empty : Options := ⟨[]⟩

/-- Puts an entry in its place, or replaces the one of that name. -/
def insertInto (key : String) (v : OptionValue) :
    List (String × OptionValue) → List (String × OptionValue)
  | [] => [(key, v)]
  | (k, w) :: rest =>
    if key < k then (key, v) :: (k, w) :: rest
    else if key = k then (key, v) :: rest
    else (k, w) :: insertInto key v rest

def insert (o : Options) (key : String) (v : OptionValue) : Options :=
  ⟨insertInto key v o.entries⟩

def get? (o : Options) (key : String) : Option OptionValue :=
  o.entries.lookup key

/-- The element type that an option gives, as such or by its name. -/
def dtype? (o : Options) (key : String) : Option DType :=
  match o.get? key with
  | some (.dtype t) => some t
  | some (.value (.scalar (.str name))) => DType.ofName? name
  | _ => none

/-- The nodes that the options refer to, in the order of the option names. -/
def references (o : Options) : List NodeId :=
  o.entries.flatMap fun (_, v) => v.references

def keys (o : Options) : List String :=
  o.entries.map (·.1)

def isEmpty (o : Options) : Bool :=
  o.entries.isEmpty

end Options

/-! ## Nodes -/

/-- An operation together with what it is applied to. -/
structure Operation where
  op : Op
  operands : List NodeId
  options : Options

/-- All nodes that an operation refers to. -/
def Operation.references (o : Operation) : List NodeId :=
  o.operands ++ o.options.references

inductive NodeKind where
  | literal (v : Value)
  | reference (target : NodeId)
  | operation (o : Operation)
  /-- A variable, with the value that it was last given. -/
  | variable (stored : Option Value)
  /-- A value that the context supplies. -/
  | placeholder

namespace NodeKind

def label : NodeKind → String
  | .literal _ | .reference _ => "tensor"
  | .operation _ => "operation"
  | .variable _ => "variable"
  | .placeholder => "placeholder"

/-- The value that the node holds. -/
def stored? : NodeKind → Option Value
  | .literal v => some v
  | .variable stored => stored
  | _ => none

end NodeKind

/-- A vertex of a graph. Only the stored value of a variable changes after the node was added, and
whether it is watched and where it is said to be defined. -/
structure Node where
  id : NodeId
  name : String
  dtype : DType
  /-- What is known of the shape; `none` if not even the rank is. -/
  shape : Option Shape
  isConst : Bool
  /-- Where the node was defined. -/
  source : Option String
  /-- Whether a breakpoint is set on the node. -/
  watched : Bool
  kind : NodeKind

def Node.rank? (n : Node) : Option Nat := n.shape.map Shape.rank

end Dataflow
