import Dataflow.Evaluation.Kernels
import Dataflow.Graph.Expression
import Dataflow.Proofs.Evolution
import Dataflow.Proofs.Outcome

/-!
# What nodes mean

The outcome of a node as a function of the graph, the values of the placeholders and the backend.
Every operand is evaluated again wherever it is used; there is no memo and no other state. So
nothing is said here of assignments and of random arrays.
-/

namespace Dataflow

/-- The output as a value; a node that is left in it counts as an empty array. -/
def Output.flat (o : Output) : Value := o.toValue?.getD (.array [])

/-! ## Operations -/

section Operations

variable (f : NodeId → Except Failure Output)

/-- The value that the node `id` means, where `f` says what the nodes mean. -/
def NodeId.valueIn (id : NodeId) : Except Failure Value := Output.flat <$> f id

def OptionValue.denote : OptionValue → Except Failure Resolved
  | .value v => .ok (.value v)
  | .dtype t => .ok (.value (.scalar (.str t.text)))
  | .node id => .value <$> id.valueIn f
  | .nodes ids => .values <$> ids.mapM (NodeId.valueIn f)

def Operation.arguments (o : Operation) (kernel : Kernel) (dtype : DType) :
    Except Failure Arguments := do
  let operands ← o.operands.mapM (NodeId.valueIn f)
  let options ← o.options.entries.mapM fun entry => (entry.1, ·) <$> entry.2.denote f
  return ⟨kernel, dtype, operands, options⟩

/-- What the operand at position `i` means. -/
def Operation.operandIn (o : Operation) (i : Nat) : Except Failure Output :=
  match o.operands[i]? with
  | some id => f id
  | none => .error (.arity o.op (.atLeast (i + 1)) o.operands.length)

/-- What the operation means, at a node with the given element type. Random arrays have no meaning,
and assignments are passed over. -/
def Operation.denote (o : Operation) (backend : Backend) (dtype : DType) : Except Failure Output :=
  match o.op with
  | .control (.assign _) => .ok (.list [])
  | .control .flowGroup => .list <$> o.members.mapM f
  | .control .identity | .control .stopGradient | .control .print => o.operandIn f 0
  | .control .cond =>
    let branch (pred : Value) := o.operandIn f (if pred.allTruthy then 0 else 1)
    match o.options.get? "pred" with
    | some (.node pred) => pred.valueIn f >>= branch
    | some (.value v) => branch v
    | _ => .error (.invalidOption o.op "pred" .missing)
  | .control .gradients => .error .unbuiltGradients
  | .kernel kernel => do
    let args ← o.arguments f kernel dtype
    return .value (← (args.compute backend .dry).outcome)

end Operations

/-! ## Outputs -/

namespace Output

mutual

/-- What an output means: the nodes that are left in it are evaluated. -/
def denote (f : NodeId → Except Failure Output) : Output → Except Failure Output
  | .value v => .ok (.value v)
  | .node id => f id
  | .list items => .list <$> denoteItems f items

def denoteItems (f : NodeId → Except Failure Output) : List Output → Except Failure (List Output)
  | [] => .ok []
  | o :: os => do
    let r ← o.denote f
    let rs ← denoteItems f os
    return r :: rs

end

variable {f f' : NodeId → Except Failure Output}

mutual

theorem denote_congr : ∀ {o : Output}, (∀ n ∈ o.nodes, f n = f' n) → o.denote f = o.denote f'
  | .value _, _ => rfl
  | .node id, h => h id List.mem_cons_self
  | .list _, h => congrArg (Output.list <$> ·) (denoteItems_congr h)

theorem denoteItems_congr : ∀ {os : List Output}, (∀ n ∈ nodesOfItems os, f n = f' n) →
    denoteItems f os = denoteItems f' os
  | [], _ => rfl
  | o :: os, h => by
    unfold denoteItems
    rw [denote_congr fun n hn => h n (List.mem_append_left _ hn),
      denoteItems_congr fun n hn => h n (List.mem_append_right _ hn)]

end

mutual

/-- Nothing is left to be evaluated in an output without nodes. -/
theorem denote_of_nodes_nil : ∀ {o : Output}, o.nodes = [] → o.denote f = .ok o
  | .value _, _ => rfl
  | .node _, h => by cases h
  | .list _, h => by
    unfold denote
    rw [denoteItems_of_nodes_nil h]
    rfl

theorem denoteItems_of_nodes_nil : ∀ {os : List Output}, nodesOfItems os = [] →
    denoteItems f os = .ok os
  | [], _ => rfl
  | o :: os, h => by
    obtain ⟨ho, hos⟩ := List.append_eq_nil_iff.mp h
    unfold denoteItems
    rw [denote_of_nodes_nil ho, denoteItems_of_nodes_nil hos]
    rfl

end

mutual

theorem toValue?_isSome : ∀ {o : Output}, o.toValue?.isSome = true ↔ o.nodes = []
  | .value _ => by simp [toValue?, nodes]
  | .node _ => by simp [toValue?, nodes]
  | .list items => by
    have h : (itemsToValues? items).isSome = true ↔ nodesOfItems items = [] :=
      itemsToValues?_isSome
    unfold toValue? nodes
    rw [← h]
    cases itemsToValues? items <;> rfl

theorem itemsToValues?_isSome : ∀ {os : List Output},
    (itemsToValues? os).isSome = true ↔ nodesOfItems os = []
  | [] => by simp [itemsToValues?, nodesOfItems]
  | o :: os => by
    have ho : o.toValue?.isSome = true ↔ o.nodes = [] := toValue?_isSome
    have hos : (itemsToValues? os).isSome = true ↔ nodesOfItems os = [] := itemsToValues?_isSome
    unfold itemsToValues? nodesOfItems
    rw [List.append_eq_nil_iff, ← ho, ← hos]
    cases o.toValue? <;> cases itemsToValues? os <;> simp

end

theorem nodes_of_toValue? {o : Output} {v : Value} (h : o.toValue? = some v) : o.nodes = [] :=
  toValue?_isSome.mp (by simp [h])

theorem flat_of_toValue? {o : Output} {v : Value} (h : o.toValue? = some v) : o.flat = v := by
  simp [flat, h]

end Output

/-! ## Nodes -/

namespace Graph

variable (g : Graph) (bindings : List (String × Value)) (backend : Backend)

/-- What the node `id` means if `f` says what the nodes before it mean. -/
def denoteNode (f : NodeId → Except Failure Output) (id : NodeId) : Except Failure Output :=
  match g.node? id with
  | none => .error (.noSuchNode id.index)
  | some node =>
    match node.kind with
    | .literal v => .ok (.value v)
    | .reference target => f target
    | .variable none => .error (.uninitializedVariable node.name)
    | .variable (some v) => .ok (.value v)
    | .placeholder =>
      match bindings.lookup node.name with
      | some v => .ok (.value v)
      | none => .error (.missingPlaceholder node.name)
    | .operation o => (o.denote f backend node.dtype).mapError (g.wrap id)

/-- What the nodes at positions below `bound` mean. -/
def denoteBelow : (bound : Nat) → NodeId → Except Failure Output
  | 0, id => .error (.noSuchNode id.index)
  | bound + 1, id => g.denoteNode bindings backend (denoteBelow bound) id

/-- What a node means. -/
def denote (id : NodeId) : Except Failure Output :=
  g.denoteBelow bindings backend (id.index + 1) id

end Graph

/-! ## Dependence on earlier nodes -/

section Congruence

variable {f f' : NodeId → Except Failure Output}

theorem NodeId.valueIn_congr {id : NodeId} (h : f id = f' id) : id.valueIn f = id.valueIn f' := by
  unfold valueIn
  rw [h]

theorem OptionValue.denote_congr {option : OptionValue}
    (h : ∀ id ∈ option.references, f id = f' id) : option.denote f = option.denote f' := by
  cases option with
  | value v => rfl
  | dtype t => rfl
  | node id =>
    exact congrArg (Resolved.value <$> ·) (NodeId.valueIn_congr (h id List.mem_cons_self))
  | nodes ids =>
    exact congrArg (Resolved.values <$> ·)
      (Except.mapM_congr fun id hid => NodeId.valueIn_congr (h id hid))

namespace Operation

variable {o : Operation}

theorem arguments_congr (h : ∀ id ∈ o.references, f id = f' id) (kernel : Kernel) (dtype : DType) :
    o.arguments f kernel dtype = o.arguments f' kernel dtype := by
  have hoperands : o.operands.mapM (NodeId.valueIn f) = o.operands.mapM (NodeId.valueIn f') :=
    Except.mapM_congr fun id hid => NodeId.valueIn_congr (h id (List.mem_append_left _ hid))
  have hoptions : (o.options.entries.mapM fun entry => (entry.1, ·) <$> entry.2.denote f) =
      o.options.entries.mapM fun entry => (entry.1, ·) <$> entry.2.denote f' := by
    refine Except.mapM_congr fun entry hentry => ?_
    have hentries := OptionValue.denote_congr fun id hid =>
      h id (Operation.mem_references_of_entry hentry hid)
    rw [hentries]
  unfold arguments
  rw [hoperands, hoptions]

theorem kernel_of_arguments {kernel : Kernel} {dtype : DType} {args : Arguments}
    (h : o.arguments f kernel dtype = .ok args) : args.kernel = kernel := by
  obtain ⟨_, -, h⟩ := Except.bind_eq_ok.mp h
  obtain ⟨_, -, h⟩ := Except.bind_eq_ok.mp h
  cases h
  rfl

theorem operandIn_congr (h : ∀ id ∈ o.references, f id = f' id) (i : Nat) :
    o.operandIn f i = o.operandIn f' i := by
  unfold operandIn
  split
  · rename_i id hid
    exact h id (Operation.mem_references_of_operand hid)
  · rfl

theorem denote_congr (h : ∀ id ∈ o.references, f id = f' id) (backend : Backend) (dtype : DType) :
    o.denote f backend dtype = o.denote f' backend dtype := by
  have hoperand := operandIn_congr h
  unfold denote
  split
  · rfl
  · rw [Except.mapM_congr fun id hid => h id (references_of_mem_members hid)]
  · exact hoperand 0
  · exact hoperand 0
  · exact hoperand 0
  · simp only [hoperand]
    split
    · rename_i pred hpred
      have hmem := mem_references_of_option hpred List.mem_cons_self
      rw [NodeId.valueIn_congr (h pred hmem)]
    · rfl
    · rfl
  · rfl
  · rw [arguments_congr h]

end Operation

end Congruence

namespace Graph

variable {g g' : Graph} {bindings : List (String × Value)} {backend : Backend}

/-- A node means the same in two graphs if the nodes that it refers to do. -/
theorem denoteNode_congr {f f' : NodeId → Except Failure Output} {id : NodeId}
    (hsame : g'.node? id = g.node? id) (hwrap : ∀ e, g'.wrap id e = g.wrap id e)
    (hrefs : ∀ node, g.node? id = some node → ∀ r ∈ node.kind.references, f' r = f r) :
    g'.denoteNode bindings backend f' id = g.denoteNode bindings backend f id := by
  cases hnode : g.node? id with
  | none => simp [denoteNode, hsame, hnode]
  | some node =>
    have hrefs := hrefs node hnode
    have hwrap : g'.wrap id = g.wrap id := funext hwrap
    simp only [denoteNode, hsame, hnode, hwrap]
    split
    · rfl
    · rename_i target hkind
      exact hrefs target (by simp [hkind, NodeKind.references])
    · rfl
    · rfl
    · rfl
    · rename_i o hkind
      rw [Operation.denote_congr fun r hr => hrefs r (by simpa [hkind, NodeKind.references])]

/-- The bound makes no difference as long as it is large enough. -/
theorem denoteBelow_eq (hg : g.WellFormed) {bound bound' : Nat} {id : NodeId}
    (h : id.index < bound) (h' : id.index < bound') :
    g.denoteBelow bindings backend bound id = g.denoteBelow bindings backend bound' id := by
  induction bound generalizing bound' id with
  | zero => exact absurd h (Nat.not_lt_zero _)
  | succ bound ih =>
    cases bound' with
    | zero => exact absurd h' (Nat.not_lt_zero _)
    | succ bound' =>
      refine denoteNode_congr rfl (fun _ => rfl) fun node hnode r hr => ?_
      have hlt := hg.references id node hnode r hr
      exact ih (by omega) (by omega)

theorem denote_eq (hg : g.WellFormed) (id : NodeId) : g.denote bindings backend id =
    g.denoteNode bindings backend (g.denote bindings backend) id :=
  denoteNode_congr rfl (fun _ => rfl) fun node hnode r hr =>
    denoteBelow_eq hg (hg.references id node hnode r hr) (Nat.lt_succ_self _)

/-! ## Other graphs with the same nodes -/

/-- The nodes with `D` are the same in both graphs, and refer only to nodes with `D`. -/
structure Shares (D : NodeId → Prop) (g g' : Graph) : Prop where
  node? : ∀ id, D id → g'.node? id = g.node? id
  references : ∀ id node, D id → g.node? id = some node → ∀ r ∈ node.kind.references, D r

theorem Shares.of_extends (hg : g.WellFormed) (h : g'.Extends g) :
    Shares (fun id => id.index < g.size) g g' where
  node? id hid := by
    obtain ⟨node, hnode⟩ := exists_node?_of_lt hid
    rw [hnode, h.node? hnode]
  references id node hid hnode r hr := Nat.lt_trans (hg.references id node hnode r hr) hid

variable {D : NodeId → Prop}

theorem render_shares (h : Shares D g g') {depth : Nat} {id : NodeId} (hid : D id) :
    g'.render depth id = g.render depth id := by
  induction depth generalizing id with
  | zero =>
    unfold render
    rw [h.node? id hid]
    cases g.node? id with
    | none => rfl
    | some node => cases hkind : node.kind <;> simp only [hkind]
  | succ depth ih =>
    unfold render
    rw [h.node? id hid]
    cases hnode : g.node? id with
    | none => rfl
    | some node =>
      have hrefs : ∀ r ∈ node.kind.references, g'.render depth r = g.render depth r :=
        fun r hr => ih (h.references id node hid hnode r hr)
      -- Leaves are rendered on their own, all other nodes by what they refer to.
      cases hkind : node.kind with
      | literal v => simp only [hkind]
      | «variable» stored => simp only [hkind]
      | placeholder => simp only [hkind]
      | reference target =>
        simp only [hkind]
        exact hrefs target (by simp [hkind, NodeKind.references])
      | operation o =>
        simp only [hkind]
        have hoperands : o.operands.map (g'.render depth) = o.operands.map (g.render depth) := by
          refine List.map_congr_left fun r hr => hrefs r ?_
          rw [hkind]
          exact List.mem_append_left _ hr
        rw [hoperands]
        split
        · rename_i ids hvalues
          have hvalues : ids.map (g'.render depth) = ids.map (g.render depth) := by
            refine List.map_congr_left fun r hr => hrefs r ?_
            rw [hkind]
            exact Operation.mem_references_of_option hvalues hr
          rw [hvalues]
        · rfl

theorem wrap_shares (h : Shares D g g') {id : NodeId} (hid : D id) (e : Failure) :
    g'.wrap id e = g.wrap id e := by
  simp [wrap, h.node? id hid, expression, render_shares h hid]

/-- What a node means does not depend on other nodes than those that it depends on. -/
theorem denote_shares (hg : g.WellFormed) (hg' : g'.WellFormed) (h : Shares D g g') {id : NodeId}
    (hid : D id) : g'.denote bindings backend id = g.denote bindings backend id := by
  induction hn : id.index using Nat.strongRecOn generalizing id with
  | _ n ih =>
    -- The induction is on positions, since nodes refer to earlier ones in both graphs.
    rw [denote_eq hg', denote_eq hg]
    refine denoteNode_congr (h.node? id hid) (wrap_shares h hid) fun node hnode r hr => ?_
    have hlt := hg.references id node hnode r hr
    exact ih r.index (hn ▸ hlt) (h.references id node hid hnode r hr) rfl

/-- What a node means does not depend on nodes that are added later. -/
theorem denote_extends (hg : g.WellFormed) (hg' : g'.WellFormed) (h : g'.Extends g) {id : NodeId}
    (hid : id.index < g.size) : g'.denote bindings backend id = g.denote bindings backend id :=
  denote_shares hg hg' (.of_extends hg h) hid

end Graph

end Dataflow
