import Dataflow.Evaluation.State

/-!
# One node

How a node is run and how it is evaluated completely, given how the nodes before it are. Running an
operation evaluates what it needs of its operands completely, remembers the result and lets a
breakpoint observe it. Evaluating a node completely runs it, and goes on as long as the result is
another node that can be run.
-/

namespace Dataflow

/-! ## Completing an output -/

namespace Output

mutual

/-- Evaluates the nodes that are left in an output, except those that stay as they are. -/
def completeWith (complete : NodeId → Eval Output) : Output → Eval Output
  | .value v => pure (.value v)
  | .node id => do
    if ← Eval.stays id then return .node id
    complete id
  | .list items => do return .list (← completeItemsWith complete items)

def completeItemsWith (complete : NodeId → Eval Output) : List Output → Eval (List Output)
  | [] => pure []
  | o :: os => do
    let r ← o.completeWith complete
    let rs ← completeItemsWith complete os
    return r :: rs

end

end Output

/-- How the nodes are evaluated that a node refers to. -/
structure Earlier where
  run : NodeId → Eval Output
  complete : NodeId → Eval Output

namespace Earlier

variable (earlier : Earlier)

/-! ## Operands -/

/-- The value of a node, unless the node or a part of its result stays unevaluated. -/
def resolve (id : NodeId) : Eval (Option Value) := do
  return (← earlier.complete id).toValue?

/-- The values of nodes. The first one that has none ends the search. -/
def resolveAll : List NodeId → Eval (Option (List Value))
  | [] => pure (some [])
  | id :: ids => do
    match ← earlier.resolve id with
    | none => return none
    | some v =>
      match ← resolveAll ids with
      | none => return none
      | some vs => return some (v :: vs)

/-- An option with its nodes evaluated. An element type counts as its name. -/
def resolveOption : OptionValue → Eval (Option Resolved)
  | .value v => pure (some (.value v))
  | .dtype t => pure (some (.value (.scalar (.str t.text))))
  | .node id => do return (← earlier.resolve id).map .value
  | .nodes ids => do return (← earlier.resolveAll ids).map .values

def resolveOptions : List (String × OptionValue) → Eval (Option (List (String × Resolved)))
  | [] => pure (some [])
  | (key, option) :: rest => do
    match ← earlier.resolveOption option with
    | none => return none
    | some r =>
      match ← resolveOptions rest with
      | none => return none
      | some rs => return some ((key, r) :: rs)

/-- The arguments of a kernel, unless one of them stays unevaluated. -/
def gather (id : NodeId) (kernel : Kernel) (o : Operation) : Eval (Option Arguments) := do
  match ← earlier.resolveAll o.operands with
  | none => return none
  | some operands =>
    match ← earlier.resolveOptions o.options.entries with
    | none => return none
    | some options => return some ⟨kernel, (← Eval.node id).dtype, operands, options⟩

/-- The operand at position `i`. -/
def operand (o : Operation) (i : Nat) : Eval NodeId :=
  match o.operands[i]? with
  | some id => pure id
  | none => .fail (.arity o.op (.atLeast (i + 1)) o.operands.length)

/-! ## Control operations -/

/-- What an update does to the old value of the variable, if it looks at it. -/
def operator? : Update → Option BinaryOp
  | .set => none
  | .add => some (.arithmetic .add)
  | .sub => some (.arithmetic .sub)

/-- Writes the variable in the first operand. The value is evaluated before the variable is read,
and nothing is written unless both are known. -/
def assign (id : NodeId) (o : Operation) (update : Update) : Eval Output := do
  let target ← operand o 0
  let source ← operand o 1
  match ← earlier.resolve source with
  | none => .defer id o
  | some v =>
    match operator? update with
    | none => .write update target v
    | some op =>
      match ← earlier.resolve target with
      | none => .defer id o
      | some old =>
        match Value.binary op old v with
        | .ok new => .write update target new
        | .error f => .fail (.fault f)

/-- Evaluates the nodes of the `values` option one after another. -/
def flowGroup (o : Operation) : Eval Output := do
  let ids :=
    match o.options.get? "values" with
    | some (.nodes ids) => ids
    | some (.node id) => [id]
    | _ => o.operands
  return .list (← Eval.each earlier.complete ids)

/-- Reports the operand, evaluated, and passes the operand itself on. -/
def print (o : Operation) : Eval Output := do
  let input ← operand o 0
  let shown ← earlier.complete input
  let message :=
    match o.options.get? "message" with
    | some (.value (.scalar (.str m))) => m
    | _ => ""
  Eval.report (.printed message shown)
  return .node input

/-- Evaluates the first operand if every scalar of the condition is true, and else the second. -/
def cond (id : NodeId) (o : Operation) : Eval Output := do
  let branch (pred : Value) : Eval Output := do
    earlier.complete (← operand o (if pred.allTruthy then 0 else 1))
  match o.options.get? "pred" with
  | some (.node pred) =>
    match ← earlier.resolve pred with
    | some v => branch v
    | none => .defer id o
  | some (.value v) => branch v
  | _ => .fail (.invalidOption o.op "pred" .missing)

/-! ## Operations -/

/-- Performs an operation. A kernel of which an argument stays unevaluated is left for later. -/
def perform (id : NodeId) (o : Operation) : Eval Output :=
  match o.op with
  | .control (.assign update) => earlier.assign id o update
  | .control .flowGroup => earlier.flowGroup o
  | .control .identity | .control .stopGradient => do earlier.complete (← operand o 0)
  | .control .print => earlier.print o
  | .control .cond => earlier.cond id o
  | .control .gradients => .fail .unbuiltGradients
  | .kernel kernel => do
    match ← earlier.gather id kernel o with
    | some args => .compute args
    | none => .defer id o

/-- Performs an operation. Every time that it has a result is noted. -/
def execute (id : NodeId) (o : Operation) : Eval Output := do
  let result ← earlier.perform id o
  Eval.notePerformed id result
  return result

/-- An operand as a breakpoint sees it. The operands of a control operation are only looked up, so
that a branch that was not taken is not taken for a breakpoint either. -/
def observe (o : Operation) (i : Nat) : Eval (Option Output) :=
  match o.operands[i]? with
  | none => pure none
  | some input =>
    if o.op.isControl then do
      let s ← Eval.state
      match s.memo.lookup input with
      | some known => return some known
      | none => return ((s.graph.node? input).bind (·.kind.stored?)).map .value
    else do
      match ← (earlier.complete input).attempt with
      | .ok r => return some r
      | .error _ => return none

/-- Lets the breakpoint of a node observe the result of its operation, if it has one. -/
def fire (id : NodeId) (o : Operation) (result : Output) : Eval Unit := do
  match (← Eval.state).graph.node? id with
  | none => return
  | some node =>
    if node.watched then
      let a ← earlier.observe o 0
      let b ← earlier.observe o 1
      let shown ← (result.completeWith earlier.complete).attempt
      Eval.emit (.observed node.name a b (shown.toOption.getD result))

/-- Runs a node as an operation, unless its result is known already. -/
def runOperation (id : NodeId) (name : String) (kind : NodeKind) : Eval Output := do
  match (← Eval.state).memo.lookup id with
  | some known =>
    Eval.report (.remembered name)
    return known
  | none =>
    match kind with
    | .operation o =>
      match ← (earlier.execute id o).attempt with
      | .error e => Eval.fail (← Eval.inContext id e)
      | .ok result =>
        Eval.remember id result
        earlier.fire id o result
        return result
    | _ => Eval.fail (.notAnOperation name)

/-! ## Nodes -/

/-- Runs a node, one step of its evaluation. A retained node stands for itself. -/
def runNode (id : NodeId) : Eval Output := do
  if (← Eval.state).context.isRetained id then return .node id
  let node ← Eval.node id
  Eval.report (.entered node.kind.label node.name)
  match node.kind with
  | .literal v => return .value v
  | .reference target => earlier.run target
  | .variable none => Eval.fail (.uninitializedVariable node.name)
  | .variable (some v) =>
    Eval.recordRead id
    return .value v
  | .placeholder =>
    match (← Eval.state).context.binding? node.name with
    | some v => return .value v
    | none => Eval.fail (.missingPlaceholder node.name)
  | .operation o => earlier.runOperation id node.name (.operation o)

/-- Goes on from the result `current` of running the node `last`: another node is run in turn, at
most `remaining` times, and the items of a list are completed. The evaluation began with `origin`,
which is run whatever the limit is. -/
def force (origin : NodeId) :
    (remaining : Nat) → (last : NodeId) → (current : Output) → Eval Output
  | remaining, last, .node next => do
    if next = last ∨ (← Eval.stays next) then return .node next
    match remaining with
    | 0 =>
      let steps := max (← Eval.settings).maxIterations 1
      Eval.report (.stoppedForcing (← Eval.node origin).name steps)
      return .node next
    | remaining + 1 => force origin remaining next (← earlier.runNode next)
  | _, _, .list items => do return .list (← Output.completeItemsWith earlier.complete items)
  | _, _, .value v => pure (.value v)

/-- Evaluates a node until nothing in the result can be run any more. -/
def completeNode (id : NodeId) : Eval Output := do
  let first ← earlier.runNode id
  earlier.force id ((← Eval.settings).maxIterations - 1) id first

end Earlier

end Dataflow
