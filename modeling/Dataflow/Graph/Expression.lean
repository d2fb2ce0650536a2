import Dataflow.Graph.Basic

/-!
# Expressions

A node as an expression over other nodes. Short literals are written out, and nesting beyond a fixed
depth is cut off at the names of the nodes there.
-/

namespace Dataflow.Graph

/-- How deep references and operations are written out. -/
def expressionDepth : Nat := 4

/-- How many scalars a literal may have to be written out. -/
def inlineLiteral : Nat := 4

/-- The expression of a node, with `depth` levels written out. -/
def render (g : Graph) : (depth : Nat) → NodeId → String
  | depth, id =>
    match g.node? id with
    | none => id.text
    | some node =>
      match node.kind, depth with
      | .literal v, _ => if v.scalars.length ≤ inlineLiteral then v.text else node.name
      | .reference target, depth + 1 => g.render depth target
      | .operation o, depth + 1 =>
        let operands := o.operands.map (g.render depth)
        let sequence :=
          match o.options.get? "values" with
          | some (.nodes ids) => [bracketed (ids.map (g.render depth))]
          | _ => []
        s!"{o.op.tag}(" ++ ", ".intercalate (operands ++ sequence) ++ ")"
      | _, _ => node.name

/-- The expression of a node, such as `add(x, mul(y, 2))`. -/
def expression (g : Graph) (id : NodeId) : String :=
  g.render expressionDepth id

end Dataflow.Graph
