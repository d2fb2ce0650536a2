import Dataflow.Proofs.Faithfulness
import Dataflow.Proofs.Stillness

/-!
# Steady nodes

A node is steady if nothing that happens in a run makes a difference to it: it depends on nothing
that is retained, written, random or printed, so no operation on the way is left for later. It does
not matter when a steady node is evaluated: the outcome is always what the node means, and nothing
is left behind but results of steady nodes.
-/

namespace Dataflow

open State

/-! ## Outputs without nodes -/

namespace Output

theorem nodes_list_eq_nil {items : List Output} :
    (Output.list items).nodes = [] ↔ ∀ r ∈ items, r.nodes = [] := by
  simp only [List.eq_nil_iff_forall_not_mem, mem_nodes_list, not_exists, not_and]
  exact ⟨fun h r hr n hn => h n r hr hn, fun h n r hr hn => h r hr n hn⟩

end Output

/-! ## Steady nodes -/

/-- Whether an operation depends on nothing but its arguments, and leaves nothing to be evaluated. A
printed operand is passed on as it is. -/
def Op.isSteady : Op → Bool
  | .control .print => false
  | op => op.isPure

/-- What a run begins with, and which variables are written in it. -/
structure Scene where
  idle : NodeId → Prop
  graph : Graph
  bindings : List (String × Value)
  written : String → Prop

namespace Scene

variable {scene : Scene} {backend : Backend} {id : NodeId} {node : Node}

/-- A node that nothing in the run makes a difference to. -/
inductive Steady (scene : Scene) : NodeId → Prop
  | leaf {id : NodeId} {node : Node} (hidle : ¬ scene.idle id)
      (hnode : scene.graph.node? id = some node) (hleaf : node.kind.isLeaf = true)
      (hwritten : ¬ scene.written node.name) : Steady scene id
  | reference {id target : NodeId} {node : Node} (hidle : ¬ scene.idle id)
      (hnode : scene.graph.node? id = some node) (hkind : node.kind = .reference target)
      (htarget : Steady scene target) : Steady scene id
  | operation {id : NodeId} {node : Node} {o : Operation} (hidle : ¬ scene.idle id)
      (hnode : scene.graph.node? id = some node) (hkind : node.kind = .operation o)
      (hop : o.op.isSteady = true) (hrefs : ∀ r ∈ o.references, Steady scene r) : Steady scene id

/-- What a node means in the graph that the run begins with. -/
def denote (scene : Scene) (backend : Backend) : NodeId → Except Failure Output :=
  scene.graph.denote scene.bindings backend

/-- The steady nodes have no other results than what they mean. -/
def Knows (scene : Scene) (backend : Backend) (memo : List (NodeId × Output)) : Prop :=
  ∀ id out, scene.Steady id → memo.lookup id = some out → scene.denote backend id = .ok out

theorem Steady.not_idle (h : scene.Steady id) : ¬ scene.idle id := by
  cases h <;> assumption

theorem Steady.node? (h : scene.Steady id) : ∃ node, scene.graph.node? id = some node := by
  cases h with
  | leaf _ hnode => exact ⟨_, hnode⟩
  | reference _ hnode => exact ⟨_, hnode⟩
  | operation _ hnode => exact ⟨_, hnode⟩

theorem Steady.isSteady (h : scene.Steady id) {o : Operation}
    (hnode : scene.graph.node? id = some node) (hkind : node.kind = .operation o) :
    o.op.isSteady = true := by
  cases h with
  | leaf _ hnode' hleaf =>
    cases hnode.symm.trans hnode'
    simp [hkind, NodeKind.isLeaf] at hleaf
  | reference _ hnode' hkind' =>
    cases hnode.symm.trans hnode'
    cases hkind.symm.trans hkind'
  | operation _ hnode' hkind' hop =>
    cases hnode.symm.trans hnode'
    cases hkind.symm.trans hkind'
    exact hop

theorem Steady.references (h : scene.Steady id) (hnode : scene.graph.node? id = some node) :
    ∀ r ∈ node.kind.references, scene.Steady r := by
  intro r hr
  cases h with
  | leaf _ hnode' hleaf =>
    cases hnode.symm.trans hnode'
    cases hkind : node.kind <;> simp [hkind, NodeKind.isLeaf, NodeKind.references] at hleaf hr
  | reference _ hnode' hkind htarget =>
    cases hnode.symm.trans hnode'
    rw [hkind] at hr
    cases List.mem_singleton.mp hr
    exact htarget
  | operation _ hnode' hkind _ hrefs =>
    cases hnode.symm.trans hnode'
    rw [hkind] at hr
    exact hrefs r hr

/-- Nothing is left in what an operation means if nothing is left in what it refers to. -/
theorem nodes_of_denote {f : NodeId → Except Failure Output} {o : Operation} {dtype : DType}
    (hrefs : ∀ r ∈ o.references, ∀ out, f r = .ok out → out.nodes = []) {out : Output}
    (h : o.denote f backend dtype = .ok out) : out.nodes = [] := by
  have hoperand : ∀ i, o.operandIn f i = .ok out → out.nodes = [] := by
    intro i hi
    unfold Operation.operandIn at hi
    split at hi
    · rename_i r hr
      exact hrefs r (Operation.mem_references_of_operand hr) out hi
    · cases hi
  -- A kernel gives a value, and everything else hands on what it refers to.
  unfold Operation.denote at h
  split at h
  · cases h
    rfl
  · obtain ⟨outs, houts, rfl⟩ := Except.map_eq_ok.mp h
    refine Output.nodes_list_eq_nil.mpr fun r hr => ?_
    obtain ⟨member, hmember, hdenote⟩ := Except.exists_of_mem_mapM houts hr
    exact hrefs member (Operation.references_of_mem_members hmember) r hdenote
  · exact hoperand 0 h
  · exact hoperand 0 h
  · exact hoperand 0 h
  · dsimp only at h
    split at h
    · obtain ⟨v, -, h⟩ := Except.bind_eq_ok.mp h
      exact hoperand _ h
    · exact hoperand _ h
    · cases h
  · cases h
  · obtain ⟨args, -, h⟩ := Except.bind_eq_ok.mp h
    obtain ⟨v, -, h⟩ := Except.bind_eq_ok.mp h
    cases h
    rfl

theorem Steady.nodes (hg : scene.graph.WellFormed) (h : scene.Steady id) {out : Output}
    (hout : scene.denote backend id = .ok out) : out.nodes = [] := by
  induction h generalizing out with
  | @leaf id node _ hnode hleaf _ =>
    rw [denote, Graph.denote_eq hg] at hout
    simp only [Graph.denoteNode, hnode] at hout
    split at hout
    · cases hout; rfl
    · rename_i hkind; simp [hkind, NodeKind.isLeaf] at hleaf
    · cases hout
    · cases hout; rfl
    · split at hout
      · cases hout; rfl
      · cases hout
    · rename_i hkind; simp [hkind, NodeKind.isLeaf] at hleaf
  | reference _ hnode hkind _ ih =>
    rw [denote, Graph.denote_eq hg] at hout
    simp only [Graph.denoteNode, hnode, hkind] at hout
    exact ih hout
  | @operation id node o _ hnode hkind _ _ ih =>
    rw [denote, Graph.denote_eq hg] at hout
    simp only [Graph.denoteNode, hnode, hkind] at hout
    cases hdenote : o.denote (scene.graph.denote scene.bindings backend) backend node.dtype with
    | error e => rw [hdenote] at hout; cases hout
    | ok r =>
      rw [hdenote] at hout
      cases hout
      exact nodes_of_denote (fun r hr out => ih r hr) hdenote

end Scene

/-! ## Settled states -/

namespace State

variable {scene : Scene} {backend : Backend} {s t u : State} {id : NodeId} {result : Output}

/-- The steady nodes are as they were when the run began, and have no other results than what they
mean. -/
structure Settled (scene : Scene) (backend : Backend) (s : State) : Prop where
  graph : Graph.Shares scene.Steady scene.graph s.graph
  bindings : s.context.bindings = scene.bindings
  retained : ∀ id, s.context.isRetained id = true → scene.idle id
  memo : scene.Knows backend s.memo

/-- At most results of steady nodes, reports and the reads of the context are new. -/
structure Gentle (scene : Scene) (s t : State) : Prop where
  graph : t.graph = s.graph
  memo : s.memo ⊆ t.memo
  results : ∀ id, ¬ scene.Steady id → t.memo.lookup id = s.memo.lookup id
  symbolic : t.symbolic = s.symbolic
  rng : t.rng = s.rng
  bindings : t.context.bindings = s.context.bindings
  retained : t.context.retained = s.context.retained

theorem Gentle.refl (s : State) : Gentle scene s s :=
  ⟨rfl, List.Subset.refl _, fun _ _ => rfl, rfl, rfl, rfl, rfl⟩

theorem Gentle.trans (h : Gentle scene s t) (h' : Gentle scene t u) : Gentle scene s u where
  graph := h'.graph.trans h.graph
  memo := List.Subset.trans h.memo h'.memo
  results id hid := (h'.results id hid).trans (h.results id hid)
  symbolic := h'.symbolic.trans h.symbolic
  rng := h'.rng.trans h.rng
  bindings := h'.bindings.trans h.bindings
  retained := h'.retained.trans h.retained

theorem Still.gentle (h : Still s t) : Gentle scene s t :=
  ⟨h.graph, by simp [h.memo], fun _ _ => by rw [h.memo], h.symbolic, h.rng, h.bindings, h.retained⟩

theorem Settled.still (hs : Settled scene backend s) (h : Still s t) : Settled scene backend t where
  graph := h.graph ▸ hs.graph
  bindings := h.bindings.trans hs.bindings
  retained id hid := hs.retained id (by simpa [Context.isRetained, h.retained] using hid)
  memo id out hid hout := hs.memo id out hid (h.memo ▸ hout)

/-- A steady node gets a result that it means. -/
theorem Settled.remember (hs : Settled scene backend s)
    (hresult : scene.denote backend id = .ok result) :
    Settled scene backend (s.recorded id result) where
  graph := hs.graph
  bindings := hs.bindings
  retained := hs.retained
  memo i out hi hout := by
    rw [lookup_recorded] at hout
    split at hout
    · rename_i heq
      cases hout
      exact heq ▸ hresult
    · exact hs.memo i out hi hout

theorem Gentle.remember (s : State) (hid : scene.Steady id) (result : Output) :
    Gentle scene s (s.recorded id result) where
  graph := rfl
  memo := List.subset_cons_self ..
  results i hi := by
    have hne : i ≠ id := fun heq => hi (heq ▸ hid)
    rw [lookup_recorded, if_neg hne]
  symbolic := rfl
  rng := rfl
  bindings := rfl
  retained := rfl

theorem Gentle.atRest {idle : NodeId → Prop} (h : Gentle scene s t)
    (hid : AtRest idle s.graph s.memo id) : AtRest idle t.graph t.memo id :=
  hid.mono (h.graph ▸ .refl s.graph) h.memo

theorem Gentle.left {idle : NodeId → Prop} {bound : Nat} (h : Gentle scene s t)
    (hid : s.Left idle bound id) : t.Left idle bound id :=
  hid.imp (fun hid => h.symbolic ▸ hid) fun ⟨hlt, hrest⟩ => ⟨hlt, h.atRest hrest⟩

/-- The regime of evaluating steady nodes. -/
def steadiness (scene : Scene) (backend : Backend) : Regime where
  inv := Settled scene backend
  step := Gentle scene
  refl := Gentle.refl
  trans := Gentle.trans

/-- The regime of evaluating steady nodes and looking up what is known. -/
def gentleness (scene : Scene) (backend : Backend) : Regime where
  inv s := Exact scene.idle s ∧ Settled scene backend s
  step := Gentle scene
  refl := Gentle.refl
  trans := Gentle.trans

end State

/-! ## States of a run -/

namespace Scene

variable {scene : Scene} {backend : Backend} {s t : State} {id : NodeId} {node : Node}

/-- A write to another variable does not change a steady node. -/
theorem Steady.foldl_written (h : scene.Steady id) (hnode : scene.graph.node? id = some node)
    {ws : List Write} (hws : ∀ w ∈ ws, scene.written w.2.1) :
    ws.foldl Node.written node = node := by
  -- Leaves that are steady have other names, and other nodes store nothing.
  have hwritten : ∀ w, scene.written w.2.1 → node.written w = node := by
    intro w hw
    cases h with
    | leaf _ hnode' _ hname =>
      cases hnode.symm.trans hnode'
      exact Node.written_of_name fun heq => hname (heq ▸ hw)
    | reference _ hnode' hkind =>
      cases hnode.symm.trans hnode'
      simp [Node.written, hkind]
    | operation _ hnode' hkind =>
      cases hnode.symm.trans hnode'
      simp [Node.written, hkind]
  induction ws with
  | nil => rfl
  | cons w ws ih =>
    rw [List.foldl_cons, hwritten w (hws w List.mem_cons_self)]
    exact ih fun w hw => hws w (List.mem_cons_of_mem _ hw)

/-- A state that the run comes to: the graph has grown, and differs by the writes so far. -/
structure Reached (scene : Scene) (s : State) : Prop extends Exact scene.idle s where
  grown : s.graph.Extends (scene.graph.replay s.writes)
  bindings : s.context.bindings = scene.bindings

theorem Reached.later (hs : scene.Reached s) (ht : Coherent scene.idle t) (hst : Later s t) :
    scene.Reached t where
  toExact := hs.toExact.of_retained ht hst.retained
  grown := by
    obtain ⟨ws, -, hwrites, hgraph⟩ := hst.writes
    rw [hwrites, Graph.replay_append]
    exact hgraph.trans (hs.grown.replay ws)
  bindings := hst.bindings.trans hs.bindings

theorem Reached.remembered (hs : scene.Reached s) {o : Operation} {result : Output}
    (hnode : s.graph.node? id = some node) (hkind : node.kind = .operation o)
    (hnew : id ∉ s.memo.map Prod.fst) (hleft : ∀ n ∈ result.nodes, s.Left scene.idle id.index n) :
    scene.Reached (s.remembered id result) where
  toExact := hs.toExact.of_retained (hs.toCoherent.remembered hnode hkind hnew hleft) (by simp)
  grown := by
    rw [hs.toCoherent.remembered_writes hnode hkind, remembered_graph, Graph.replay_append]
    exact hs.grown.replay _
  bindings := by simpa using hs.bindings

/-- As long as no other variables are written, the steady nodes are as they were. -/
theorem Reached.settled (hs : scene.Reached s) (hwrites : ∀ w ∈ s.writes, scene.written w.2.1)
    (hmemo : scene.Knows backend s.memo) : Settled scene backend s where
  graph :=
    { node? := by
        intro id hid
        obtain ⟨node, hnode⟩ := hid.node?
        rw [hnode]
        refine hs.grown.node? ?_
        rw [Graph.node?_replay, hnode, Option.map_some, hid.foldl_written hnode hwrites]
      references := fun _ _ hid hnode => hid.references hnode }
  bindings := hs.bindings
  retained := hs.retained
  memo := hmemo

end Scene

/-! ## Operations -/

namespace Earlier

variable {earlier : Earlier} {scene : Scene} {c : Settings} {bound bound' : Nat}
variable {s t : State} {id : NodeId} {node : Node} {o : Operation}

/-- The steady nodes below `bound` are evaluated to what they mean. -/
abbrev Steadfast (earlier : Earlier) (scene : Scene) (c : Settings) (bound : Nat) : Prop :=
  earlier.Satisfies bound
    (fun id s x => scene.Steady id → (steadiness scene c.backend).Ensures c s x
      fun r _ => r = scene.denote c.backend id)
    (fun id s x => scene.Steady id → (steadiness scene c.backend).Ensures c s x
      fun r _ => r = scene.denote c.backend id)

theorem steadiness_of_still {α : Type} {x : Eval α} {r : Except Failure α}
    (h : Still s (x c s).2) (hr : (x c s).1 = r) :
    (steadiness scene c.backend).Ensures c s x fun r' _ => r' = r :=
  fun hs => ⟨hs.still h, h.gentle, hr⟩

theorem report_steady {r : Report} :
    (steadiness scene c.backend).Ensures c s (Eval.report r) fun r _ => r = .ok () :=
  steadiness_of_still (.with_events s _) rfl

theorem resolve_steady (hg : scene.graph.WellFormed) (h : earlier.Steadfast scene c bound)
    (hid : id.index < bound) (hsteady : scene.Steady id) :
    earlier.Resolves (steadiness scene c.backend) True c (scene.denote c.backend) id := by
  intro s
  refine (h.complete id s hid hsteady).bind (fun out t _ _ hout => ?_) fun e t _ _ he _ => ?_
  · have hsome := Output.toValue?_isSome.mpr (hsteady.nodes hg hout.symm)
    obtain ⟨v, hv⟩ := Option.isSome_iff_exists.mp hsome
    refine .pure fun _ => ?_
    rw [hv]
    show id.valueIn (scene.denote c.backend) = .ok v
    rw [NodeId.valueIn, ← hout]
    exact congrArg Except.ok (Output.flat_of_toValue? hv)
  · rw [NodeId.valueIn, ← he]
    rfl

theorem identity_steady (h : earlier.Steadfast scene c bound)
    (hids : ∀ r ∈ o.references, r.index < bound) (hrefs : ∀ r ∈ o.references, scene.Steady r)
    {i : Nat} : (steadiness scene c.backend).Ensures c s (do earlier.complete (← operand o i))
      fun r _ => r = o.operandIn (scene.denote c.backend) i := by
  refine operand_bind (fun id hid => ?_) fun hnone => ?_
  · have hmem : id ∈ o.references := Operation.mem_references_of_operand hid
    simpa only [Operation.operandIn, hid] using h.complete id s (hids id hmem) (hrefs id hmem)
  · simp only [Operation.operandIn, hnone]

theorem each_steady (h : earlier.Steadfast scene c bound) {ids : List NodeId}
    (hids : ∀ id ∈ ids, id.index < bound) (hsteady : ∀ id ∈ ids, scene.Steady id) :
    (steadiness scene c.backend).Ensures c s (Eval.each earlier.complete ids)
      fun r _ => r = ids.mapM (scene.denote c.backend) := by
  induction ids generalizing s with
  | nil => exact .pure fun _ => rfl
  | cons id ids ih =>
    have hid := h.complete id s (hids id List.mem_cons_self) (hsteady id List.mem_cons_self)
    have hids := fun n hn => hids n (List.mem_cons_of_mem id hn)
    have hsteady := fun n hn => hsteady n (List.mem_cons_of_mem id hn)
    rw [List.mapM_cons]
    refine hid.bind (fun out t _ _ hout => ?_) fun e t _ _ he => ?_
    · rw [← hout]
      refine (ih hids hsteady).bind (fun outs u _ _ houts => ?_) fun e u _ _ he => ?_
      · rw [← houts]
        exact .pure fun _ => rfl
      · rw [← he]
        rfl
    · rw [← he]
      rfl

theorem flowGroup_steady (h : earlier.Steadfast scene c bound)
    (hids : ∀ r ∈ o.references, r.index < bound) (hrefs : ∀ r ∈ o.references, scene.Steady r) :
    (steadiness scene c.backend).Ensures c s (earlier.flowGroup o)
      fun r _ => r = .list <$> o.members.mapM (scene.denote c.backend) := by
  refine (each_steady h (fun r hr => hids r (Operation.references_of_mem_members hr))
    fun r hr => hrefs r (Operation.references_of_mem_members hr)).bind
    (fun outs t _ _ houts => ?_) fun e t _ _ he => ?_
  · rw [← houts]
    exact .pure fun _ => rfl
  · rw [← he]
    rfl

theorem compute_steady {args : Arguments} (h : (Op.kernel args.kernel).isPure = true) :
    (steadiness scene c.backend).Ensures c s (.compute args) fun r _ =>
      r = Output.value <$> (args.compute c.backend .dry).outcome := by
  have hrng : (args.compute c.backend s.rng).rng = s.rng := by
    unfold Arguments.compute
    cases hkernel : args.kernel with
    | random distribution => rw [hkernel] at h; cases h
    | _ => rfl
  refine steadiness_of_still ?_ ?_
  · rw [Eval.compute_run, hrng]
    exact .with_events s _
  · rw [Eval.compute_run, compute_outcome h c.backend s.rng .dry]

theorem cond_steady (hg : scene.graph.WellFormed) (h : earlier.Steadfast scene c bound)
    (hids : ∀ r ∈ o.references, r.index < bound) (hrefs : ∀ r ∈ o.references, scene.Steady r)
    (hop : o.op = .control .cond) {dtype : DType} :
    (steadiness scene c.backend).Ensures c s (earlier.cond id o)
      fun r _ => r = o.denote (scene.denote c.backend) c.backend dtype := by
  simp only [cond, Operation.denote, hop]
  cases hpred : o.options.get? "pred" with
  | none => exact .fail fun _ => rfl
  | some option =>
    cases option with
    | dtype t => exact .fail fun _ => rfl
    | nodes ids => exact .fail fun _ => rfl
    | value v => exact identity_steady h hids hrefs
    | node pred =>
      have hmem : pred ∈ o.references := Operation.mem_references_of_option hpred List.mem_cons_self
      refine (resolve_steady hg h (hids pred hmem) (hrefs pred hmem) s).bind
        (fun found t _ _ hfound => ?_) fun e t _ _ he => ?_
      · cases found with
        | none => exact absurd trivial hfound
        | some v =>
          dsimp only
          rw [show pred.valueIn (scene.denote c.backend) = .ok v from hfound]
          exact identity_steady h hids hrefs
      · dsimp only
        rw [he trivial]
        rfl

theorem kernel_steady (hg : scene.graph.WellFormed) (h : earlier.Steadfast scene c bound)
    (hids : ∀ r ∈ o.references, r.index < bound) (hrefs : ∀ r ∈ o.references, scene.Steady r)
    (hsteady : scene.Steady id) (hnode : scene.graph.node? id = some node) {kernel : Kernel}
    (hop : o.op = .kernel kernel) (hpure : o.op.isPure = true) :
    (steadiness scene c.backend).Ensures c s
      (do
        match ← earlier.gather id kernel o with
        | some args => .compute args
        | none => .defer id o)
      fun r _ => r = o.denote (scene.denote c.backend) c.backend node.dtype := by
  simp only [Operation.denote, hop]
  refine (gather_finds (fun r hr => resolve_steady hg h (hids r hr) (hrefs r hr))
    fun t ht => (ht.graph.node? id hsteady).trans hnode).bind
    (fun found t _ _ hfound => ?_) fun e t _ _ he => ?_
  · cases found with
    | none => exact absurd trivial hfound
    | some args =>
      have hargs : o.arguments (scene.denote c.backend) kernel node.dtype = .ok args := hfound
      rw [hargs]
      refine (compute_steady ?_).conseq fun r _ _ _ hr => ?_
      · rw [Operation.kernel_of_arguments hargs, ← hop]
        exact hpure
      · rw [hr]
        rfl
  · rw [he trivial]
    rfl

theorem perform_steady (hg : scene.graph.WellFormed) (h : earlier.Steadfast scene c bound)
    (hids : ∀ r ∈ o.references, r.index < bound) (hrefs : ∀ r ∈ o.references, scene.Steady r)
    (hsteady : scene.Steady id) (hnode : scene.graph.node? id = some node)
    (hop : o.op.isSteady = true) :
    (steadiness scene c.backend).Ensures c s (earlier.perform id o)
      fun r _ => r = o.denote (scene.denote c.backend) c.backend node.dtype := by
  -- Assignments and prints are not steady, so nothing is asked of them.
  unfold perform
  split
  · rename_i hassign
    rw [hassign] at hop
    cases hop
  · rename_i hgroup
    simp only [Operation.denote, hgroup]
    exact flowGroup_steady h hids hrefs
  · rename_i hidentity
    simp only [Operation.denote, hidentity]
    exact identity_steady h hids hrefs
  · rename_i hidentity
    simp only [Operation.denote, hidentity]
    exact identity_steady h hids hrefs
  · rename_i hprint
    rw [hprint] at hop
    cases hop
  · rename_i hcond
    exact cond_steady hg h hids hrefs hcond
  · rename_i hgradients
    simp only [Operation.denote, hgradients]
    exact .fail fun _ => rfl
  · rename_i kernel hkernel
    apply kernel_steady hg h hids hrefs hsteady hnode hkernel
    rw [hkernel] at hop ⊢
    exact hop

/-! ## Nodes -/

/-- A breakpoint of a steady operation evaluates steady nodes only. -/
theorem fire_steady (h : earlier.Steadfast scene c bound)
    (hids : ∀ r ∈ o.references, r.index < bound) (hrefs : ∀ r ∈ o.references, scene.Steady r)
    {out : Output} (hnodes : out.nodes = []) :
    (steadiness scene c.backend).Ensures c s (earlier.fire id o out) fun r _ => r = .ok () := by
  refine fire_keeps (fun t events ht => ?_) (fun _ i _ input hinput t _ _ => ?_) (by simp [hnodes])
  · have hstill := Still.with_events t events
    exact ⟨ht.still hstill, hstill.gentle⟩
  · have hmem : input ∈ o.references := Operation.mem_references_of_operand hinput
    exact (h.complete input t (hids input hmem) (hrefs input hmem)).conseq fun _ _ _ _ _ => trivial

theorem runOperation_steady (hg : scene.graph.WellFormed) (h : earlier.Steadfast scene c id.index)
    (hsteady : scene.Steady id) (hnode : scene.graph.node? id = some node)
    (hkind : node.kind = .operation o) {name : String} :
    (steadiness scene c.backend).Ensures c s (earlier.runOperation id name (.operation o))
      fun r _ => r = scene.denote c.backend id := by
  have hids := hg.lt_of_operation hnode hkind
  have hrefs : ∀ r ∈ o.references, scene.Steady r :=
    fun r hr => hsteady.references hnode r (by rw [hkind]; exact hr)
  have hop : o.op.isSteady = true := hsteady.isSteady hnode hkind
  have hdenote : scene.denote c.backend id =
      (o.denote (scene.denote c.backend) c.backend node.dtype).mapError (scene.graph.wrap id) := by
    rw [Scene.denote, Graph.denote_eq hg, Graph.denoteNode]
    simp only [hnode, hkind]
  cases hlookup : s.memo.lookup id with
  | some known =>
    intro hs
    rw [runOperation_hit hlookup]
    have hstill := Still.with_events s (s.events.push (.report (.remembered name)))
    exact ⟨hs.still hstill, hstill.gentle, (hs.memo id known hsteady hlookup).symm⟩
  | none =>
    rw [runOperation_eq]
    refine .state ?_
    rw [hlookup]
    refine (perform_steady hg h hids hrefs hsteady hnode hop).attempt.bind (fun r t _ _ hr => ?_)
      (by rintro _ _ _ _ ⟨_, habsurd, _⟩; cases habsurd)
    obtain ⟨_, ⟨⟩, hr⟩ := hr
    cases r with
    | error e =>
      -- The context of the failure shows steady nodes only, which are as they were.
      intro ht
      dsimp only
      rw [Eval.bind_run_ok (Eval.inContext_run id e), Graph.wrap_shares ht.graph hsteady, hdenote,
        ← hr]
      exact ⟨ht, .refl t, rfl⟩
    | ok out =>
      have hmeans : scene.denote c.backend id = .ok out := by
        rw [hdenote, ← hr]
        rfl
      have hnodes := hsteady.nodes hg hmeans
      refine Regime.Ensures.bind (P := fun r _ => r = .ok ()) ?_ (fun _ u _ _ _ => ?_) (by simp)
      · exact .modify fun ht => ⟨ht.remember hmeans, .remember t hsteady _, rfl⟩
      · refine (fire_steady h hids hrefs hnodes).bind (fun _ w _ _ _ => ?_) (by simp)
        exact .pure fun _ => hmeans.symm

theorem runNode_steady (hg : scene.graph.WellFormed) (h : earlier.Steadfast scene c bound)
    (hid : id.index ≤ bound) (hsteady : scene.Steady id) :
    (steadiness scene c.backend).Ensures c s (earlier.runNode id)
      fun r _ => r = scene.denote c.backend id := by
  obtain ⟨node, hnode⟩ := hsteady.node?
  refine .of_inv fun hs => ?_
  have hretained : s.context.isRetained id = false := by
    cases hretained : s.context.isRetained id with
    | false => rfl
    | true => exact absurd (hs.retained id hretained) hsteady.not_idle
  refine .state ?_
  rw [hretained, if_neg Bool.false_ne_true]
  -- The node is still the one that the run began with.
  refine .of_eq (Eval.bind_run_ok (Eval.node_run_some ((hs.graph.node? id hsteady).trans hnode))) ?_
  refine report_steady.bind (fun _ t _ hst _ => ?_) (by simp)
  have hdenote : scene.denote c.backend id = scene.graph.denoteNode scene.bindings c.backend
      (scene.denote c.backend) id := Graph.denote_eq hg id
  simp only [Graph.denoteNode, hnode] at hdenote
  cases hkind : node.kind with
  | literal v =>
    rw [hdenote, hkind]
    exact .pure fun _ => rfl
  | reference target =>
    have hmem : target ∈ node.kind.references := by simp [hkind, NodeKind.references]
    have hlt := hg.references id node hnode target hmem
    rw [hdenote, hkind]
    exact h.run target t (Nat.lt_of_lt_of_le hlt hid) (hsteady.references hnode target hmem)
  | «variable» stored =>
    rw [hdenote, hkind]
    cases stored with
    | none => exact .fail fun _ => rfl
    | some v =>
      refine (steadiness_of_still (r := .ok ()) (.recordRead t id) rfl).bind (fun _ _ _ _ _ => ?_)
        (by simp)
      exact .pure fun _ => rfl
  | placeholder =>
    rw [hdenote, hkind]
    refine .of_inv fun ht => .state ?_
    rw [Context.binding?, show t.context.bindings = scene.bindings from ht.bindings]
    cases scene.bindings.lookup node.name with
    | none => exact .fail fun _ => rfl
    | some v => exact .pure fun _ => rfl
  | operation o => exact runOperation_steady hg (h.mono hid) hsteady hnode hkind

theorem force_run_of_nodes_nil {origin last : NodeId} {remaining : Nat} {out : Output}
    (h : out.nodes = []) : earlier.force origin remaining last out c s = (.ok out, s) := by
  cases out with
  | value v => rw [force_value]; rfl
  | node id => cases h
  | list items => rw [force_list, Output.completeWith_of_finished _ (by simp [Finished, h])]

theorem completeNode_steady (hg : scene.graph.WellFormed) (h : earlier.Steadfast scene c bound)
    (hid : id.index ≤ bound) (hsteady : scene.Steady id) :
    (steadiness scene c.backend).Ensures c s (earlier.completeNode id)
      fun r _ => r = scene.denote c.backend id := by
  refine (runNode_steady hg h hid hsteady).bind (fun first t _ _ hfirst => ?_)
    fun _ _ _ _ he => he
  -- Nothing is left in the result, so there is nothing to be forced.
  have hnodes := hsteady.nodes hg hfirst.symm
  refine .settings ?_
  exact .of_eq (y := pure first) (force_run_of_nodes_nil hnodes) (.pure fun _ => hfirst)

theorem below_steadfast (hg : scene.graph.WellFormed) (c : Settings) (bound : Nat) :
    (below bound).Steadfast scene c bound :=
  below_satisfies (fun _ h _ _ hid => ⟨runNode_steady hg h hid, completeNode_steady hg h hid⟩) bound

/-! ## Breakpoints -/

theorem gentleness_of_still {α : Type} {x : Eval α} {backend : Backend}
    {P : Except Failure α → State → Prop} (hx : (stillness scene.idle).Ensures c s x P) :
    (gentleness scene backend).Ensures c s x P := by
  intro hs
  obtain ⟨ht, hst, hP⟩ := hx hs.1
  exact ⟨⟨ht, hs.2.still hst⟩, hst.gentle, hP⟩

theorem gentleness_of_steady {α : Type} {x : Eval α} {backend : Backend}
    {P Q : Except Failure α → State → Prop} (hx : (steadiness scene backend).Ensures c s x P)
    (hu : (coherence scene.idle bound).Ensures c s x Q) :
    (gentleness scene backend).Ensures c s x P := by
  intro hs
  obtain ⟨hsettled, hst, hP⟩ := hx hs.2
  obtain ⟨hcoherent, -, -⟩ := hu hs.1.toCoherent
  exact ⟨⟨hs.1.of_retained hcoherent hst.retained, hsettled⟩, hst, hP⟩

/-- A breakpoint leaves nothing behind but results of steady nodes if the operands that it evaluates
are steady or at rest. -/
theorem fire_gentle (h : earlier.Steadfast scene c id.index)
    (hsound : earlier.Sound scene.idle c id.index) (hr : earlier.Resting scene.idle c id.index)
    (hids : ∀ r ∈ o.references, r.index < id.index)
    (hinputs : o.op.isControl = false → ∀ i < 2, ∀ input, o.operands[i]? = some input →
      AtRest scene.idle s.graph s.memo input ∨ scene.Steady input)
    {result : Output} (hleft : ∀ n ∈ result.nodes, s.Left scene.idle id.index n) :
    (gentleness scene c.backend).Ensures c s (earlier.fire id o result) fun r _ => r = .ok () := by
  refine fire_keeps (fun t events ht => ?_) (fun hcontrol i hi input hinput t ht hst => ?_)
    fun n hn t ht hst => ?_
  · have hstill := Still.with_events t events
    exact ⟨⟨ht.1.of_retained (ht.1.toCoherent.with_events events) rfl, ht.2.still hstill⟩,
      hstill.gentle⟩
  · have hlt := hids input (Operation.mem_references_of_operand hinput)
    -- An operand at rest is looked up, and a steady one leaves steady results behind.
    rcases hinputs hcontrol i hi input hinput with hrest | hsteady
    · exact gentleness_of_still (hr.complete input t hlt (hst.atRest hrest))
    · exact (gentleness_of_steady (h.complete input t hlt hsteady)
        (complete_ensures hsound hlt)).conseq fun _ _ _ _ _ => trivial
  · have hcompletes := completesTo_of_left hr (hst.left (hleft n hn)) t ht.1 (.refl t)
    split at hcompletes
    · rename_i hstays
      rw [if_pos hstays]
      trivial
    · rename_i hstays
      rw [if_neg hstays]
      exact gentleness_of_still hcompletes

end Earlier

end Dataflow
