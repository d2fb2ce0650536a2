import Dataflow.Evaluation.Context
import Dataflow.Evaluation.Kernels
import Dataflow.Graph.Expression
import Dataflow.Graph.Inference

/-!
# Evaluations

An evaluation reads settings and changes a state: the graph, the results so far, the context of the
caller. It ends with a result or with a failure, and a failure leaves the state as far as it got.
-/

namespace Dataflow

/-- What a caller can choose about evaluations. -/
structure Config where
  /-- How many nodes one complete evaluation may run one after another. -/
  maxIterations : Nat
  /-- The seed of the shared generator; without one, some seed is used. -/
  seed : Option UInt64

namespace Config

def standard : Config := ⟨32, none⟩

/-- At least one node has to be run. -/
def withMaxIterations (c : Config) (n : Nat) : Config :=
  { c with maxIterations := max n 1 }

def withSeed (c : Config) (seed : UInt64) : Config :=
  { c with seed := some seed }

end Config

/-- What stays the same during an evaluation. -/
structure Settings where
  maxIterations : Nat
  backend : Backend

structure State where
  graph : Graph
  /-- The results of the operations that have been evaluated, the latest first. -/
  memo : List (NodeId × Output)
  /-- The operations that were performed with a result, the latest first. No evaluation looks at
  them: they only tell what has happened. -/
  performed : List (NodeId × Output)
  /-- The nodes that were added in the place of operations on unevaluated nodes. -/
  symbolic : List NodeId
  rng : Source Rng
  context : Context
  events : Array Event

namespace State

/-- A state without results that draws from a library. The spare seed is used if the configuration
has none. -/
def start (library : Library Rng) (graph : Graph) (context : Context) (config : Config)
    (spare : UInt64) : State where
  graph
  memo := []
  performed := []
  symbolic := []
  rng := ⟨library, library.ofSeed (config.seed.getD spare)⟩
  context
  events := #[]

def isSymbolic (s : State) (id : NodeId) : Bool :=
  s.symbolic.contains id

/-- Whether a node is left as it is when it comes up in a result. -/
def stays (s : State) (id : NodeId) : Bool :=
  s.isSymbolic id || s.context.isRetained id

end State

/-! ## The monad of evaluations -/

/-- A computation on the state of an evaluation. -/
def Eval (α : Type) : Type := Settings → State → Except Failure α × State

namespace Eval

protected def pure {α : Type} (x : α) : Eval α := fun _ s => (.ok x, s)

protected def bind {α β : Type} (x : Eval α) (f : α → Eval β) : Eval β := fun settings s =>
  match x settings s with
  | (.ok a, s) => f a settings s
  | (.error e, s) => (.error e, s)

instance : Monad Eval where
  pure := Eval.pure
  bind := Eval.bind

protected theorem id_map {α : Type} (x : Eval α) : id <$> x = x := by
  funext settings s
  show Eval.bind x (fun a => Eval.pure a) settings s = x settings s
  unfold Eval.bind
  cases x settings s with
  | mk outcome s' => cases outcome <;> rfl

protected theorem bind_assoc {α β γ : Type} (x : Eval α) (f : α → Eval β) (g : β → Eval γ) :
    x >>= f >>= g = x >>= fun a => f a >>= g := by
  funext settings s
  show Eval.bind (Eval.bind x f) g settings s = Eval.bind x (fun a => Eval.bind (f a) g) settings s
  unfold Eval.bind
  cases x settings s with
  | mk outcome s' => cases outcome <;> rfl

instance : LawfulMonad Eval :=
  LawfulMonad.mk' Eval Eval.id_map (fun _ _ => rfl) Eval.bind_assoc

/-- Ends the evaluation with a failure. -/
def fail {α : Type} (e : Failure) : Eval α := fun _ s => (.error e, s)

/-- Performs `x` and gives its outcome, so that a failure does not end the evaluation. -/
def attempt {α : Type} (x : Eval α) : Eval (Except Failure α) := fun settings s =>
  let (outcome, s) := x settings s
  (.ok outcome, s)

def ofExcept {α : Type} : Except Failure α → Eval α
  | .ok x => pure x
  | .error e => fail e

def settings : Eval Settings := fun c s => (.ok c, s)

def state : Eval State := fun _ s => (.ok s, s)

def modify (f : State → State) : Eval Unit := fun _ s => (.ok (), f s)

/-- Performs `f` on each item in turn; the first failure ends the evaluation. -/
def each {α β : Type} (f : α → Eval β) : List α → Eval (List β)
  | [] => pure []
  | x :: xs => do
    let r ← f x
    let rs ← each f xs
    return r :: rs

/-! ## Steps on the state -/

def emit (e : Event) : Eval Unit :=
  modify fun s => { s with events := s.events.push e }

def report (r : Report) : Eval Unit := emit (.report r)

def node (id : NodeId) : Eval Node := do
  ofExcept ((← state).graph.node id)

def stays (id : NodeId) : Eval Bool := do
  return (← state).stays id

/-- Changes the graph. -/
def onGraph {α : Type} (x : Building α) : Eval α := fun _ s =>
  let (outcome, graph) := x.on s.graph
  (outcome, { s with graph })

def recordRead (id : NodeId) : Eval Unit :=
  modify fun s => { s with context := s.context.recordRead id }

def remember (id : NodeId) (result : Output) : Eval Unit :=
  modify fun s => { s with memo := (id, result) :: s.memo }

def notePerformed (id : NodeId) (result : Output) : Eval Unit :=
  modify fun s => { s with performed := (id, result) :: s.performed }

/-- The failure `e` of the operation `id`, with the name and the expression of that node around it.
A failure that comes from a node further in has been put into context there. -/
def inContext (id : NodeId) (e : Failure) : Eval Failure := do
  if e.isWrapped then return e
  let graph := (← state).graph
  match graph.node? id with
  | some node => return .evaluation node.name (graph.expression id) node.source e
  | none => return e

/-- Leaves an operation unevaluated: a copy of it is added to the graph and stands for its result.
A node that is such a copy stands for itself. -/
def defer (id : NodeId) (o : Operation) : Eval Output := do
  if (← state).isSymbolic id then return .node id
  let copy ← onGraph (.addDeferred id o)
  modify fun s => { s with symbolic := copy :: s.symbolic }
  report (.deferred (← node id).name (← node copy).name)
  return .node copy

/-- Stores a value in the variable `target`. -/
def write (update : Update) (target : NodeId) (v : Value) : Eval Output := do
  let stored ← onGraph (.store target v)
  report (.wrote update (← node target).name stored)
  return .value stored

/-- Computes a kernel, with the backend of the settings and the shared generator. -/
def compute (args : Arguments) : Eval Output := do
  let computation := args.compute (← settings).backend (← state).rng
  modify fun s =>
    { s with
      rng := computation.rng
      events := s.events ++ (computation.reports.map Event.report).toArray }
  return .value (← ofExcept computation.outcome)

end Eval

end Dataflow
