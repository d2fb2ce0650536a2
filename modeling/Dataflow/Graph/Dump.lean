import Dataflow.Graph.Node

/-!
# Dumps

The complete structure of a node as text, for inspection: every constructor and every field is
named.
-/

namespace Dataflow

def dumpOption {α : Type} (dump : α → String) : Option α → String
  | none => "None"
  | some x => s!"Some({dump x})"

def Scalar.dump : Scalar → String
  | .bool b => s!"Bool({b})"
  | .int i => s!"Int({i.toInt})"
  | .float x => s!"Float({Decimal.literal x})"
  | .str s => s!"Str({Text.quoted s})"

mutual

def Value.dump : Value → String
  | .scalar s => s.dump
  | .array items => s!"Array({bracketed (Value.dumpItems items)})"

def Value.dumpItems : List Value → List String
  | [] => []
  | v :: vs => v.dump :: Value.dumpItems vs

end

def NodeId.dump (id : NodeId) : String := s!"NodeId({id.index})"

def DType.dump (t : DType) : String := Text.camel t.text

/-- The fields of a structure, by name. -/
def dumpFields (name : String) (fields : List (String × String)) : String :=
  name ++ " \x7b " ++ ", ".intercalate (fields.map fun (field, dump) => s!"{field}: {dump}") ++
    " \x7d"

def Shape.dump (s : Shape) : String :=
  dumpFields "Shape" [("dims", bracketed (s.dims.map (dumpOption toString)))]

def OptionValue.dump : OptionValue → String
  | .value v => s!"Value({v.dump})"
  | .node id => s!"Node({id.dump})"
  | .nodes ids => s!"Nodes({bracketed (ids.map NodeId.dump)})"
  | .dtype t => s!"DType({t.dump})"

def Options.dump (o : Options) : String :=
  let entries := o.entries.map fun (key, v) => s!"{Text.quoted key}: {v.dump}"
  "Options(\x7b" ++ ", ".intercalate entries ++ "\x7d)"

def Operation.dump (o : Operation) : String :=
  dumpFields "Operation" [
    ("op", o.op.label), ("inputs", bracketed (o.operands.map NodeId.dump)),
    ("options", o.options.dump)]

def NodeKind.dump : NodeKind → String
  | .literal v => s!"Tensor(Concrete({v.dump}))"
  | .reference target => s!"Tensor(Node({target.dump}))"
  | .operation o => s!"Operation({o.dump})"
  | .variable stored => s!"Variable({dumpOption Value.dump stored})"
  | .placeholder => "Placeholder"

def Node.dump (n : Node) : String :=
  dumpFields "Node" [
    ("id", n.id.dump), ("name", Text.quoted n.name), ("dtype", n.dtype.dump),
    ("shape", dumpOption Shape.dump n.shape), ("is_const", toString n.isConst),
    ("source", dumpOption Text.quoted n.source), ("breakpoint", toString n.watched),
    ("kind", n.kind.dump)]

end Dataflow
