import Dataflow.Graph.Basic

/-!
# Building

Graphs are changed in place, in steps that look at the graph, may fail, and add or replace a node.
What a step has changed when it fails stays changed.
-/

namespace Dataflow

/-- A computation on a graph that is changed in place. -/
abbrev Building : Type → Type := ExceptT Failure (StateM Graph)

namespace Building

/-- How the computation ends on a graph, and the graph that it leaves there. -/
def on {α : Type} (x : Building α) (g : Graph) : Except Failure α × Graph := (x.run.run g).run

def node (id : NodeId) : Building Node := do
  (← get).node id

/-! ## Adding a node -/

def insert (name : String) (dtype : DType) (shape : Option Shape) (isConst : Bool)
    (kind : NodeKind) : Building NodeId :=
  modifyGet fun g => (g.insert name dtype shape isConst kind).swap

/-- Adds a literal, cast to the given element type. -/
def addLiteral (name : String) (v : Value) (dtype : DType) : Building NodeId := do
  let v ← Failure.ofFault (v.cast dtype)
  insert name dtype (some (.known v.dims)) true (.literal v)

/-- Adds a literal of the element type that its value suggests. -/
def addConstant (name : String) (v : Value) : Building NodeId :=
  addLiteral name v (.ofValue v)

/-- Adds a node that stands for another one. -/
def addReference (name : String) (target : NodeId) : Building NodeId := do
  let node ← node target
  insert name node.dtype node.shape false (.reference target)

/-- Adds a variable. Without an initial value nothing is known of its shape. -/
def addVariable (name : String) (dtype : DType) (initial : Option Value) : Building NodeId := do
  match initial with
  | none => insert name dtype none false (.variable none)
  | some v =>
    let v ← Failure.ofFault (v.cast dtype)
    insert name dtype (some (.known v.dims)) false (.variable (some v))

/-- Adds a placeholder, which is bound by its name. -/
def addPlaceholder (name : String) (dtype : DType) (shape : Option Shape) : Building NodeId :=
  insert name dtype shape false .placeholder

/-! ## Changing a node -/

/-- Replaces a node that is there. -/
def update (id : NodeId) (change : Node → Node) : Building Unit := do
  let node ← node id
  modify fun g => { g with nodes := g.nodes.setIfInBounds id.index (change node) }

/-- Sets a breakpoint on a node. -/
def watch (id : NodeId) : Building Unit :=
  update id fun n => { n with watched := true }

/-- Notes where a node was defined. -/
def setSource (id : NodeId) (source : String) : Building Unit :=
  update id fun n => { n with source := some source }

/-- Stores a value in a variable, cast to the element type of the variable, and returns what is
stored. -/
def store (id : NodeId) (v : Value) : Building Value := do
  let node ← node id
  match node.kind with
  | .variable _ =>
    let v ← Failure.ofFault (v.cast node.dtype)
    update id fun n => { n with kind := .variable (some v) }
    return v
  | _ => throw (.notAVariable node.name)

end Building

/-! ## Graphs as values

A caller that keeps the graph it had wants the graph after a step only if the step succeeds.
-/

namespace Graph

/-- The graph after a step and what the step gives, or its failure. -/
def outcome {α : Type} (g : Graph) (x : Building α) : Except Failure (Graph × α) :=
  match x.on g with
  | (.ok a, g) => .ok (g, a)
  | (.error e, _) => .error e

def addLiteral (g : Graph) (name : String) (v : Value) (dtype : DType) :
    Except Failure (Graph × NodeId) :=
  g.outcome (.addLiteral name v dtype)

def addConstant (g : Graph) (name : String) (v : Value) : Except Failure (Graph × NodeId) :=
  g.outcome (.addConstant name v)

def addReference (g : Graph) (name : String) (target : NodeId) : Except Failure (Graph × NodeId) :=
  g.outcome (.addReference name target)

def addVariable (g : Graph) (name : String) (dtype : DType) (initial : Option Value) :
    Except Failure (Graph × NodeId) :=
  g.outcome (.addVariable name dtype initial)

/-- Adding a placeholder never fails. -/
def addPlaceholder (g : Graph) (name : String) (dtype : DType) (shape : Option Shape) :
    Graph × NodeId :=
  g.insert name dtype shape false .placeholder

def update (g : Graph) (id : NodeId) (change : Node → Node) : Except Failure Graph :=
  Prod.fst <$> g.outcome (.update id change)

def watch (g : Graph) (id : NodeId) : Except Failure Graph :=
  Prod.fst <$> g.outcome (.watch id)

def setSource (g : Graph) (id : NodeId) (source : String) : Except Failure Graph :=
  Prod.fst <$> g.outcome (.setSource id source)

def store (g : Graph) (id : NodeId) (v : Value) : Except Failure (Graph × Value) :=
  g.outcome (.store id v)

end Graph

end Dataflow
