import Dataflow.Cast
import Dataflow.Graph.Failure
import Dataflow.Graph.Node

/-!
# Graphs

A graph is an array of nodes and an index of their names. It grows at its end: a new node refers to
nodes that are there already, and gets a name that the index does not have.
-/

namespace Dataflow

structure Graph where
  nodes : Array Node
  /-- Where the node of a name is, the latest entry first. -/
  index : List (String × NodeId)

namespace Graph

def empty : Graph := ⟨#[], []⟩

def size (g : Graph) : Nat := g.nodes.size

def node? (g : Graph) (id : NodeId) : Option Node := g.nodes[id.index]?

/-- The node at a position, or the failure that there is none. -/
def node (g : Graph) (id : NodeId) : Except Failure Node :=
  match g.node? id with
  | some n => .ok n
  | none => .error (.noSuchNode id.index)

/-- The node with the given name, as the index has it. -/
def find? (g : Graph) (name : String) : Option NodeId :=
  g.index.lookup name

/-! ## Growing -/

def numbered (name : String) (k : Nat) : String := s!"{name}_{k}"

/-- The requested name if the index does not have it, else the first numbered variant that the index
does not have. It has as many entries as there are variants to try, and one of them is for the
requested name, so one of the variants is free. -/
def freeName (g : Graph) (requested : String) : String :=
  if (g.find? requested).isNone then requested
  else
    match (List.range' 1 g.index.length).find? fun k => (g.find? (numbered requested k)).isNone with
    | some k => numbered requested k
    | none => requested

/-- Adds a node at the end, and its name to the index. -/
def insert (g : Graph) (name : String) (dtype : DType) (shape : Option Shape) (isConst : Bool)
    (kind : NodeKind) : Graph × NodeId :=
  let id : NodeId := ⟨g.size⟩
  let name := g.freeName name
  let node : Node := { id, name, dtype, shape, isConst, source := none, watched := false, kind }
  (⟨g.nodes.push node, (name, id) :: g.index⟩, id)

end Graph

end Dataflow
