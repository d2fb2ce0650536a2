import Dataflow.Graph.Node

/-!
# Outputs

What evaluating a node gives: a value, a node that stays unevaluated, or a list of outputs.
-/

namespace Dataflow

inductive Output where
  | value (v : Value)
  /-- A node that is retained, deferred or passed on. -/
  | node (id : NodeId)
  | list (items : List Output)
deriving Inhabited

namespace Output

def node? : Output → Option NodeId
  | .node id => some id
  | _ => none

mutual

/-- The output as a value, in which a list becomes an array, unless a node is left in it. -/
def toValue? : Output → Option Value
  | .value v => some v
  | .node _ => none
  | .list items => do return .array (← itemsToValues? items)

def itemsToValues? : List Output → Option (List Value)
  | [] => some []
  | o :: os => do
    let v ← o.toValue?
    let vs ← itemsToValues? os
    return v :: vs

end

mutual

/-- The nodes that are left in an output. -/
def nodes : Output → List NodeId
  | .value _ => []
  | .node id => [id]
  | .list items => nodesOfItems items

def nodesOfItems : List Output → List NodeId
  | [] => []
  | o :: os => o.nodes ++ nodesOfItems os

end

mutual

def text : Output → String
  | .value v => v.text
  | .node id => id.text
  | .list items => bracketed (itemTexts items)

def itemTexts : List Output → List String
  | [] => []
  | o :: os => o.text :: itemTexts os

end

end Output

end Dataflow
