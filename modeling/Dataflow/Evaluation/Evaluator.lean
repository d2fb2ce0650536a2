import Dataflow.Evaluation.Standard
import Dataflow.Evaluation.Step

/-!
# Evaluating a graph

A node refers only to nodes before it, so the evaluation of the nodes below one position is defined
from that of the nodes below the position before.
-/

namespace Dataflow

/-- The evaluation of the nodes at positions below `bound`. A bound is only taken apart when a node
is run, so that a position far beyond the end of the graph costs nothing. -/
def Earlier.below : (bound : Nat) → Earlier
  | 0 => ⟨fun id => .fail (.noSuchNode id.index), fun id => .fail (.noSuchNode id.index)⟩
  | bound + 1 => ⟨fun id => (below bound).runNode id, fun id => (below bound).completeNode id⟩

namespace Eval

/-- Runs a node, one step of its evaluation. -/
def run (id : NodeId) : Eval Output :=
  (Earlier.below (id.index + 1)).run id

/-- Evaluates a node until nothing in the result can be run any more. -/
def complete (id : NodeId) : Eval Output :=
  (Earlier.below (id.index + 1)).complete id

/-- Evaluates what is left in an output. -/
def completeOutput (o : Output) : Eval Output :=
  o.completeWith complete

/-- Runs several nodes. -/
def runAll (ids : List NodeId) : Eval Output := do
  return .list (← each run ids)

/-- Evaluates several nodes completely. -/
def completeAll (ids : List NodeId) : Eval Output := do
  return .list (← each complete ids)

end Eval

/-- Evaluates a node of a graph from scratch, with standard settings. -/
def Graph.evaluate (g : Graph) (context : Context) (spare : UInt64) (id : NodeId) :
    Except Failure Output × State :=
  let config := Config.standard
  Eval.complete id ⟨config.maxIterations, .cpu⟩ (.initial g context config spare)

end Dataflow
