import Dataflow.Graph.Node

/-!
# Contexts

What a caller supplies for an evaluation: values for placeholders, and nodes that are to stay
unevaluated. In return the context notes the variables that were read, each once, in the order in
which they were first read.
-/

namespace Dataflow

structure Context where
  bindings : List (String × Value)
  retained : List NodeId
  reads : List NodeId

namespace Context

def empty : Context := ⟨[], [], []⟩

/-- Binds a placeholder; an earlier binding of the same name is hidden. -/
def bind (c : Context) (name : String) (v : Value) : Context :=
  { c with bindings := (name, v) :: c.bindings }

/-- Keeps a node unevaluated. -/
def retain (c : Context) (id : NodeId) : Context :=
  { c with retained := id :: c.retained }

def binding? (c : Context) (name : String) : Option Value :=
  c.bindings.lookup name

def isRetained (c : Context) (id : NodeId) : Bool :=
  c.retained.contains id

/-- Notes that a variable was read. -/
def recordRead (c : Context) (id : NodeId) : Context :=
  if c.reads.contains id then c else { c with reads := c.reads ++ [id] }

end Context

end Dataflow
