import Dataflow.Proofs.Agreement
import Dataflow.Proofs.Deferral
import Dataflow.Proofs.Faithfulness
import Dataflow.Proofs.Simulation

/-!
# Independent nodes commute

Two nodes are independent if neither reaches a variable that an assignment of the other may set.
What both of them reach is then neither set nor does it set anything, so that it has the same
results whichever of the two comes first. What only one of them reaches is left alone by the other.
-/

namespace Dataflow

variable (lib : Library Rng)

open State

namespace NodeKind

/-- Whether the node draws from the generator. -/
def isRandom : NodeKind → Bool
  | .operation ⟨.kernel (.random _), _, _⟩ => true
  | _ => false

/-- The node that an assignment stores its value in. -/
def target? : NodeKind → Option NodeId
  | .operation ⟨.control (.assign _), operands, _⟩ => operands[0]?
  | _ => none

theorem mem_references_of_target {kind : NodeKind} {v : NodeId} (h : kind.target? = some v) :
    v ∈ kind.references := by
  unfold target? at h
  split at h
  · exact Operation.mem_references_of_operand h
  · cases h

end NodeKind

namespace Graph

variable {g : Graph} {nodes nodes' : NodeId → Prop} {v : NodeId}

/-- The node is a variable, and the target of an assignment among the nodes. -/
def Assigns (g : Graph) (nodes : NodeId → Prop) (v : NodeId) : Prop :=
  (∃ node stored, g.node? v = some node ∧ node.kind = .variable stored) ∧
    ∃ id node, nodes id ∧ g.node? id = some node ∧ node.kind.target? = some v

theorem Assigns.within (h : g.Assigns nodes v)
    (hclosed : ∀ a b, nodes a → g.Refers a b → nodes b) : nodes v := by
  obtain ⟨-, id, node, hid, hnode, htarget⟩ := h
  exact hclosed id v hid ⟨node, hnode, NodeKind.mem_references_of_target htarget⟩

theorem Assigns.mono (h : g.Assigns nodes v) (hle : ∀ id, nodes id → nodes' id) :
    g.Assigns nodes' v := by
  obtain ⟨hvariable, id, node, hid, hrest⟩ := h
  exact ⟨hvariable, id, node, hle id hid, hrest⟩

end Graph

namespace State

variable {c : Settings} {start s s' t t' u : State} {shared nodes : NodeId → Prop}
variable {id : NodeId} {out : Output}

/-- The result is the one that the operation `id` has at the start. -/
def Recalls (c : Settings) (start : State) (id : NodeId) (out : Output) : Prop :=
  ∀ node o, start.graph.node? id = some node → node.kind = .operation o →
    ((Earlier.below id.index).perform id o c start).1 = .ok out

/-- The shared nodes are as they were at the start, and what is known of them is still right. -/
structure Fit (c : Settings) (start : State) (shared : NodeId → Prop) (s : State) : Prop where
  graph : start.graph.Agrees shared s.graph
  symbolic : s.symbolic = []
  retained : s.context.retained = []
  bindings : s.context.bindings = start.context.bindings
  memo : ∀ id out, shared id → s.memo.lookup id = some out → Recalls c start id out

/-- The state `t` comes from `s` by evaluations among the nodes. -/
structure Confined (g : Graph) (nodes : NodeId → Prop) (s t : State) : Prop where
  node? : ∀ id, ¬ g.Assigns nodes id → t.graph.node? id = s.graph.node? id
  lookup : ∀ id, ¬ nodes id → t.memo.lookup id = s.memo.lookup id

/-- Two runs among the nodes have come equally far, except that the shared nodes may have been
evaluated in one of them only. -/
structure Twins (c : Settings) (start : State) (shared nodes : NodeId → Prop) (s s' : State) :
    Prop where
  left : Fit c start shared s
  right : Fit c start shared s'
  node? : ∀ id, nodes id → s'.graph.node? id = s.graph.node? id
  lookup : ∀ id, nodes id → ¬ shared id → s'.memo.lookup id = s.memo.lookup id

/-- A run among the nodes has no influence on the shared nodes: no assignment among them has a
shared target. Both sets of nodes are closed, and nothing draws from the generator. -/
structure Independent (c : Settings) (start : State) (shared nodes : NodeId → Prop) : Prop where
  accounted : Accounted True start
  fit : Fit c start shared start
  steps : start.graph.size ≤ c.maxIterations
  unwatched : ∀ node ∈ start.graph.nodes, node.watched = false
  steady : ∀ node ∈ start.graph.nodes, node.kind.isRandom = false
  known : ∀ id, nodes id → id.index < start.graph.size
  closed : ∀ a b, nodes a → start.graph.Refers a b → nodes b
  le : ∀ id, shared id → nodes id
  sharedClosed : ∀ a b, shared a → start.graph.Refers a b → shared b
  apart : ∀ v, start.graph.Assigns nodes v → ¬ shared v

namespace Confined

variable {g : Graph}

theorem refl (s : State) : Confined g nodes s s := ⟨fun _ _ => rfl, fun _ _ => rfl⟩

theorem trans (h : Confined g nodes s t) (h' : Confined g nodes t u) : Confined g nodes s u :=
  ⟨fun i hi => (h'.node? i hi).trans (h.node? i hi),
    fun i hi => (h'.lookup i hi).trans (h.lookup i hi)⟩

theorem quiet (h : Quiet s t) : Confined g nodes s t :=
  ⟨fun _ _ => by rw [h.graph], fun _ _ => by rw [h.memo]⟩

theorem remember (hid : nodes id) : Confined g nodes s (s.recorded id out) := by
  refine ⟨fun _ _ => rfl, fun i hi => ?_⟩
  have hne : i ≠ id := fun heq => hi (heq ▸ hid)
  exact (lookup_recorded s id out i).trans (if_neg hne)

theorem wrote (hs : s.graph.WellFormed) {node : Node} (hnode : s.graph.node? id = some node)
    (hid : g.Assigns nodes id) {update : Update} {w : Value} :
    Confined g nodes s (s.wrote (some (update, node.name, w))) :=
  ⟨fun _ hi => hs.node?_replay_of_ne hnode rfl fun heq => hi (heq ▸ hid), fun _ _ => rfl⟩

end Confined

namespace Fit

theorem quiet (h : Fit c start shared s) (hst : Quiet s t) : Fit c start shared t where
  graph := hst.graph ▸ h.graph
  symbolic := hst.symbolic.trans h.symbolic
  retained := hst.retained.trans h.retained
  bindings := hst.bindings.trans h.bindings
  memo := hst.memo ▸ h.memo

theorem remember (h : Fit c start shared s) (hout : shared id → Recalls c start id out) :
    Fit c start shared (s.recorded id out) where
  graph := h.graph
  symbolic := h.symbolic
  retained := h.retained
  bindings := h.bindings
  memo i known hi hknown := by
    rw [lookup_recorded] at hknown
    split at hknown
    · rename_i heq
      cases hknown
      exact heq ▸ hout (heq ▸ hi)
    · exact h.memo i known hi hknown

theorem wrote (h : Fit c start shared s) (hs : s.graph.WellFormed) {node : Node}
    (hnode : s.graph.node? id = some node) (hid : ¬ shared id) {update : Update} {w : Value} :
    Fit c start shared (s.wrote (some (update, node.name, w))) where
  graph := by
    refine ⟨by simpa using h.graph.bare, by simpa using h.graph.index, fun i hi => ?_⟩
    have hne : i ≠ id := fun heq => hid (heq ▸ hi)
    exact (hs.node?_replay_of_ne hnode rfl hne).trans (h.graph.node? i hi)
  symbolic := h.symbolic
  retained := h.retained
  bindings := h.bindings
  memo := h.memo

end Fit

theorem Twins.of_fit (h : Fit c start shared s) (h' : Fit c start shared s') :
    Twins c start shared shared s s' where
  left := h
  right := h'
  node? id hid := (h'.graph.node? id hid).trans (h.graph.node? id hid).symm
  lookup _ hid hnot := absurd hid hnot

namespace Independent

variable {node : Node} {o : Operation}

theorem on_shared (h : Independent c start shared nodes) : Independent c start shared shared where
  accounted := h.accounted
  fit := h.fit
  steps := h.steps
  unwatched := h.unwatched
  steady := h.steady
  known id hid := h.known id (h.le id hid)
  closed := h.sharedClosed
  le _ hid := hid
  sharedClosed := h.sharedClosed
  apart v hv := h.apart v (hv.mono h.le)

/-- Breakpoints do not come while a graph evolves. -/
theorem watched?_eq_none (h : Independent c start shared nodes) (hs : Fit c start shared s)
    (id : NodeId) : s.graph.watched? id = none := by
  cases hn : s.graph.node? id with
  | none => simp [Graph.watched?, hn]
  | some n =>
    obtain ⟨m, hm, hbare⟩ := hs.graph.symm.exists_node? hn
    rw [← Graph.watched?_eq_of_bare hn hm hbare]
    exact Graph.watched?_eq_none h.unwatched id

end Independent

end State

namespace Simulation

variable {c : Settings} {start s s' t t' : State} {shared nodes : NodeId → Prop}
variable {id : NodeId} {node : Node} {o : Operation}

/-- Two runs among the nodes, of which the shared ones may have been evaluated before. -/
def twin (c : Settings) (start : State) (shared nodes : NodeId → Prop) : Simulation where
  origin := start.graph
  within := nodes
  readable _ := True
  rel := Twins c start shared nodes
  step := Confined start.graph nodes

theorem twin_quiet (h : Twins c start shared nodes s s') (hst : Quiet s t) (hst' : Quiet s' t') :
    (twin c start shared nodes).Leads s s' t t' where
  rel :=
    { left := h.left.quiet hst
      right := h.right.quiet hst'
      node? := by simpa [hst.graph, hst'.graph] using h.node?
      lookup := by simpa [hst.memo, hst'.memo] using h.lookup }
  left := .quiet hst
  right := .quiet hst'

/-- An operation among the nodes has been there from the start. -/
theorem twin_operation (h : Independent c start shared nodes)
    (hs : (twin c start shared nodes).Ready True s) (hid : nodes id)
    (hnode : s.graph.node? id = some node) (hkind : node.kind = .operation o) :
    start.graph.node? id = some node :=
  hs.origin.operation_before (h.known id hid) hnode hkind

theorem twin_compute (h : Independent c start shared nodes) {args : Arguments}
    (hs : (twin c start shared nodes).Ready True s) (hid : nodes id)
    (hnode : s.graph.node? id = some node) (hkind : node.kind = .operation o)
    (hop : o.op = .kernel args.kernel) :
    Simulates (twin c start shared nodes) c s (.compute args) (.compute args) where
  reads := by rw [Eval.compute_run]; exact List.Subset.refl _
  result a t s' hrun _ hs' := by
    have hpure : (Op.kernel args.kernel).isPure = true := by
      have hsteady := h.steady node
        (Array.mem_of_getElem? (twin_operation h hs hid hnode hkind))
      obtain ⟨op, operands, options⟩ := o
      obtain rfl : op = _ := hop
      cases hkernel : args.kernel with
      | random distribution => simp [hkind, hkernel, NodeKind.isRandom] at hsteady
      | _ => rfl
    rw [Eval.compute_run] at hrun
    obtain ⟨ha, rfl⟩ := Prod.mk.inj hrun
    rw [Eval.compute_run, Earlier.compute_outcome hpure c.backend s'.rng s.rng, ha]
    exact ⟨_, rfl, twin_quiet hs' (.reports s _ _ (args.compute_reports c.backend s.rng))
      (.reports s' _ _ (args.compute_reports c.backend s'.rng))⟩

/-- Nothing is retained, so there is no reason to leave an operation for later. -/
theorem twin_defer (hnode : s.graph.node? id = some node) (hheld : s.HeldUp o) :
    Simulates (twin c start shared nodes) c s (.defer id o) (.defer id o) where
  reads := by rw [Eval.defer_context hnode]; exact List.Subset.refl _
  result a t s' _ _ hs' := by
    obtain ⟨r, -, hr⟩ := hheld
    exact absurd hr (not_held (Twins.left hs').retained r)

theorem twin_write (h : Independent c start shared nodes)
    (hs : (twin c start shared nodes).Ready True s) (hid : nodes id)
    (hnode : s.graph.node? id = some node) (hkind : node.kind = .operation o) {update : Update}
    (hop : o.op = .control (.assign update)) {target : NodeId}
    (htarget : o.operands[0]? = some target) {v : Value} :
    Simulates (twin c start shared nodes) c s (.write update target v)
      (.write update target v) where
  reads := by rw [Eval.write_context hs.graph]; exact List.Subset.refl _
  result out t s' hrun _ hs' := by
    have hs' : Twins c start shared nodes s s' := hs'
    have hagrees : s.graph.Agrees nodes s'.graph :=
      ⟨hs'.right.graph.bare.trans hs'.left.graph.bare.symm,
        hs'.right.graph.index.trans hs'.left.graph.index.symm, hs'.node?⟩
    have hwell' := hagrees.wellFormed hs.graph
    obtain ⟨n, stored, w, hn, hvariable, rfl, hrun', hstored⟩ :=
      Eval.write_run_agrees hs.graph hagrees hrun
    obtain ⟨m, hm, hbare⟩ := hs'.left.graph.symm.exists_node? hn
    obtain ⟨stored', hvariable'⟩ := Node.exists_variable_of_bare hbare hvariable
    -- The target is a variable that one of these nodes assigns, so no other node may touch it.
    have hassigns : start.graph.Assigns nodes target := by
      refine ⟨⟨m, stored', hm, hvariable'⟩, id, node, hid, twin_operation h hs hid hnode hkind, ?_⟩
      obtain ⟨op, operands, options⟩ := o
      obtain rfl : op = _ := hop
      simpa [hkind, NodeKind.target?] using htarget
    have hn' := (hs'.node? target (hassigns.within h.closed)).trans hn
    exact ⟨_, hrun',
      ⟨hs'.left.wrote hs.graph hn (h.apart target hassigns),
        hs'.right.wrote hwell' hn' (h.apart target hassigns),
        fun i hi => hstored.node? i (.inl hi), hs'.lookup⟩,
      .wrote hs.graph hn hassigns, .wrote hwell' hn' hassigns⟩

theorem twin_lawful (h : Independent c start shared nodes) :
    (twin c start shared nodes).Lawful True c where
  refl := .refl
  trans := .trans
  known := h.known
  closed := h.closed
  steps id hid _ := Nat.lt_of_lt_of_le (h.known id hid) h.steps
  symbolic hs := (Twins.right hs).symbolic.trans (Twins.left hs).symbolic.symm
  retained hs := (Twins.right hs).retained.trans (Twins.left hs).retained.symm
  bindings hs := (Twins.right hs).bindings.trans (Twins.left hs).bindings.symm
  node {_ _} hs {id n} hid hn := ⟨n, (Twins.node? hs id hid).trans hn, rfl, fun _ => rfl⟩
  unwatched id _ := Graph.watched?_eq_none h.unwatched id
  report hs _ hr := twin_quiet hs (.report _ hr) (.report _ hr)
  recordRead hs id := twin_quiet hs (.recordRead _ id) (.recordRead _ id)
  compute hs hid hnode hkind hop := twin_compute h hs hid hnode hkind hop
  defer _ _ hnode _ hheld := twin_defer hnode (hheld trivial)
  write hs hid hnode hkind hop htarget := twin_write h hs hid hnode hkind hop htarget

/-! ## Shared nodes -/

section Shared

-- The operation of the shared node `id`, which is performed alike in any two runs.
variable (h : Independent c start shared shared) (hid : shared id)
variable (hperform : Earlier.Agrees (twin c start shared shared) True c id o
  fun e _ => e.perform id o)
variable (hnode : start.graph.node? id = some node) (hkind : node.kind = .operation o)
variable {b : Nat} (hb : id.index ≤ b) {out : Output}

include h hid hperform hnode hkind hb

/-- The operation may be evaluated at any time with the result that it has at the start. -/
theorem runOperation_of_recalls (hout : Recalls c start id out) (hs : Fit c start shared s) :
    ∃ t, (Earlier.below b).runOperation id node.name (.operation o) c s = (.ok out, t) ∧
      Fit c start shared t ∧ Confined start.graph shared s t := by
  have hstart := hout node o hnode hkind
  cases hknown : s.memo.lookup id with
  | some known =>
    have hsame := (hs.memo id known hid hknown node o hnode hkind).symm.trans hstart
    cases hsame
    have hquiet := Quiet.report s (r := .remembered node.name) rfl
    exact ⟨_, Earlier.runOperation_hit hknown, hs.quiet hquiet, .quiet hquiet⟩
  | none =>
    have hready : (twin c start shared shared).Ready True start :=
      { h.accounted with origin := .refl start.graph }
    have hretained : start.context.isRetained id = false := by
      simp [Context.isRetained, h.fit.retained]
    obtain ⟨t, hrun, hleads⟩ := (hperform id.index b start node (Nat.le_refl _) hb hready hnode
      hkind hretained).result out _ s (Prod.ext hstart rfl) (fun _ _ => trivial)
        (Twins.of_fit h.fit hs)
    have ht : Fit c start shared t := hleads.rel.right
    refine ⟨_, (Earlier.runOperation_eq_ok hknown fun a u hu => ?_).mpr ⟨t, hrun, rfl⟩,
      ht.remember fun _ => hout, Confined.trans hleads.right (.remember hid)⟩
    cases hrun.symm.trans hu
    exact h.watched?_eq_none ht id

/-- Whenever the operation is evaluated, it has the result that it has at the start. -/
theorem recalls_of_runOperation (hready : (twin c start shared shared).Ready True s)
    (hs : Fit c start shared s)
    (hrun : (Earlier.below b).runOperation id node.name (.operation o) c s = (.ok out, t)) :
    Recalls c start id out := by
  cases hknown : s.memo.lookup id with
  | some known =>
    cases (Earlier.runOperation_hit hknown).symm.trans hrun
    exact hs.memo id out hid hknown
  | none =>
    have hnode' := hready.origin.operation hnode hkind
    have hretained : s.context.isRetained id = false := by
      simp [Context.isRetained, hs.retained]
    obtain ⟨u, hu, -, -⟩ := Earlier.exists_perform_of_runOperation (twin_lawful h)
      ((Earlier.below_tracked True c b).mono hb) hid hready hnode' hkind hknown hrun
    obtain ⟨t', ht', -⟩ := (hperform b id.index s node hb (Nat.le_refl _) hready hnode' hkind
      hretained).result out u start hu (fun _ _ => trivial) (Twins.of_fit hs h.fit)
    intro node' o' hnode'' hkind'
    cases hnode.symm.trans hnode''
    cases hkind.symm.trans hkind'
    exact congrArg Prod.fst ht'

end Shared

theorem twin_memoizes_shared (h : Independent c start shared shared) :
    Earlier.Memoizes (twin c start shared shared) True c := by
  intro id o hid hperform b b' s node hb hb' hs hnode hkind hretained
  have horigin := twin_operation h hs hid hnode hkind
  refine ⟨Earlier.reads_runOperation (twin_lawful h) ((Earlier.below_tracked True c b).mono hb)
    hid hs hnode hkind hretained, fun out t s' hrun _ hs' => ?_⟩
  have hs' : Twins c start shared shared s s' := hs'
  have hout := recalls_of_runOperation h hid hperform horigin hkind hb hs hs'.left hrun
  obtain ⟨u, hu, hfit, hconfined⟩ :=
    runOperation_of_recalls h hid hperform horigin hkind hb hout hs'.left
  obtain ⟨t', ht', hfit', hconfined'⟩ :=
    runOperation_of_recalls h hid hperform horigin hkind hb' hout hs'.right
  cases hu.symm.trans hrun
  exact ⟨t', ht', .of_fit hfit hfit', hconfined, hconfined'⟩

/-- Nothing is set among the shared nodes, so evaluating them is an evaluation among the nodes. -/
theorem twin_of_shared {α : Type} {x x' : Eval α} (h : Independent c start shared nodes)
    (hx : Simulates (twin c start shared shared) c s x x') :
    Simulates (twin c start shared nodes) c s x x' where
  reads := hx.reads
  result a t s' hrun hreads hs' := by
    have hs' : Twins c start shared nodes s s' := hs'
    obtain ⟨t', hrun', hrel, hleft, hright⟩ :=
      hx.result a t s' hrun hreads (Twins.of_fit hs'.left hs'.right)
    have hnone : ∀ i, ¬ start.graph.Assigns shared i :=
      fun i hi => h.apart i (hi.mono h.le) (hi.within h.sharedClosed)
    have hconfined : ∀ {u v}, Confined start.graph shared u v → Confined start.graph nodes u v :=
      fun huv => ⟨fun i _ => huv.node? i (hnone i), fun i hi => huv.lookup i (hi ∘ h.le i)⟩
    refine ⟨t', hrun', ⟨hrel.left, hrel.right, fun i hi => ?_, fun i hi hnot => ?_⟩,
      hconfined hleft, hconfined hright⟩
    · exact (hright.node? i (hnone i)).trans ((hs'.node? i hi).trans (hleft.node? i (hnone i)).symm)
    · exact (hright.lookup i hnot).trans ((hs'.lookup i hi hnot).trans (hleft.lookup i hnot).symm)

theorem twin_memoizes (h : Independent c start shared nodes) :
    Earlier.Memoizes (twin c start shared nodes) True c := by
  intro id o hid hperform b b' s node hb hb' hs hnode hkind hretained
  by_cases hshared : shared id
  · have hready : (twin c start shared shared).Ready True s :=
      { hs.toAccounted with origin := hs.origin }
    exact twin_of_shared h (Earlier.runOperation_agrees (twin_lawful h.on_shared)
      (twin_memoizes_shared h.on_shared) hshared b b' s node hb hb' hready hnode hkind hretained)
  · have hlookup : ∀ s', (twin c start shared nodes).rel s s' →
        s'.memo.lookup id = s.memo.lookup id := fun s' hs' => Twins.lookup hs' id hid hshared
    cases hknown : s.memo.lookup id with
    | some known =>
      exact Earlier.runOperation_simulates_of_hit (twin_lawful h) hknown
        fun s' hs' => (hlookup s' hs').trans hknown
    | none =>
      refine Earlier.runOperation_simulates_of_miss (twin_lawful h)
        ((Earlier.below_tracked True c b).mono hb) hid hs hnode hkind hknown hretained
        (hperform b b' s node hb hb' hs hnode hkind hretained)
        (fun s' hs' => (hlookup s' hs').trans hknown) fun t t' out ht => ?_
      have ht : Twins c start shared nodes t t' := ht
      refine ⟨⟨ht.left.remember (absurd · hshared), ht.right.remember (absurd · hshared), ht.node?,
        fun i hi hnot => ?_⟩, .remember hid, .remember hid⟩
      rw [lookup_recorded, lookup_recorded, ht.lookup i hi hnot]

end Simulation

namespace State

/-! ## Both orders -/

theorem Fit.start {g : Graph} {context : Context} (hretained : context.retained = [])
    (config : Config) (spare spare' : UInt64) {c : Settings} {shared : NodeId → Prop} :
    Fit c (start lib g context config spare) shared (start lib g context config spare') where
  graph := .refl g
  symbolic := rfl
  retained := hretained
  bindings := rfl
  memo _ _ _ h := by cases h

section Orders

variable {c : Settings} {start s s' t t' : State} {shared nodes others : NodeId → Prop}
variable {r r' : NodeId} {out out' : Output}

theorem Twins.symm (h : Twins c start shared nodes s s') : Twins c start shared nodes s' s :=
  ⟨h.right, h.left, fun id hid => (h.node? id hid).symm,
    fun id hid hnot => (h.lookup id hid hnot).symm⟩

/-- One of the runs goes on among other nodes, which assign nothing to these. -/
theorem Twins.aside (h : Twins c start shared nodes s s') (ht : Fit c start shared t)
    (hst : Confined start.graph others s t)
    (hapart : ∀ v, start.graph.Assigns others v → ¬ nodes v)
    (hshared : ∀ id, nodes id → others id → shared id) : Twins c start shared nodes t s' where
  left := ht
  right := h.right
  node? id hid := (h.node? id hid).trans (hst.node? id fun hv => hapart id hv hid).symm
  lookup id hid hnot := (h.lookup id hid hnot).trans (hst.lookup id (hnot ∘ hshared id hid)).symm

/-- A node is evaluated alike in states of which only the shared nodes may tell a difference. -/
theorem Independent.complete (h : Independent c start shared nodes) (hr : nodes r)
    (hs : Accounted True s) (hstart : start.graph.Evolves s.graph)
    (hs' : Twins c start shared nodes s s') (hrun : Eval.complete r c s = (.ok out, t)) :
    ∃ t', Eval.complete r c s' = (.ok out, t') ∧ Twins c start shared nodes t t' ∧
      Confined start.graph nodes s t ∧ Confined start.graph nodes s' t' := by
  have hready : (Simulation.twin c start shared nodes).Ready True s := { hs with origin := hstart }
  obtain ⟨t', hrun', hrel, hleft, hright⟩ := (Eval.complete_simulates (Simulation.twin_lawful h)
    (Simulation.twin_memoizes h) hr hready).result out t s' hrun (fun _ _ => trivial) hs'
  exact ⟨t', hrun', hrel, hleft, hright⟩

/-- Two nodes are evaluated in one order, and then in the other from a state that only the generator
tells from the first. -/
theorem Independent.comm (h : Independent c start shared nodes)
    (h' : Independent c start shared others) (hshared : ∀ id, nodes id → others id → shared id)
    (hapart : ∀ v, start.graph.Assigns nodes v → ¬ others v)
    (hapart' : ∀ v, start.graph.Assigns others v → ¬ nodes v) {start' : State}
    (hstart : Fit c start shared start') (hgraph : start'.graph = start.graph)
    (hmemo : start'.memo = start.memo) (hr : nodes r) (hr' : others r')
    (hs : Eval.complete r c start = (.ok out, s)) (ht : Eval.complete r' c s = (.ok out', t)) :
    ∃ s' t', Eval.complete r' c start' = (.ok out', s') ∧ Eval.complete r c s' = (.ok out, t') ∧
      t'.graph = t.graph := by
  have hequal : ∀ nodes, Twins c start shared nodes start start' := fun _ =>
    ⟨h.fit, hstart, fun _ _ => by rw [hgraph], fun _ _ _ => by rw [hmemo]⟩
  have haccounted := Eval.complete_traced (c := c)
    (fun _ => Nat.lt_of_lt_of_le (h.known r hr) h.steps) h.accounted
  rw [hs] at haccounted
  obtain ⟨haccounted, honward, -⟩ := haccounted
  -- The first node on its own, to see what it leaves alone.
  obtain ⟨_, -, hfirst, hstep, -⟩ :=
    h.complete hr h.accounted (.refl _) ⟨h.fit, h.fit, fun _ _ => rfl, fun _ _ _ => rfl⟩ hs
  obtain ⟨s', hs', htwins', hstep', hstart'⟩ := h'.complete hr' haccounted
    (Traces.toOnward honward).graph ((hequal others).aside hfirst.left hstep hapart
      fun id hid hid' => hshared id hid' hid) ht
  obtain ⟨t', ht', htwins, -, hlast⟩ := h.complete hr h.accounted (.refl _)
    ((hequal nodes).symm.aside htwins'.right hstart' hapart' hshared).symm hs
  have hindex := htwins.right.graph.index.trans htwins'.left.graph.index.symm
  refine ⟨s', t', hs', ht', Graph.ext_node? hindex fun id => ?_⟩
  have hkeeps : ¬ others id → t.graph.node? id = s.graph.node? id :=
    fun hid => hstep'.node? id (hid ∘ (·.within h'.closed))
  have hkeeps' : ¬ nodes id → t'.graph.node? id = s'.graph.node? id :=
    fun hid => hlast.node? id (hid ∘ (·.within h.closed))
  by_cases hid : nodes id
  · exact (htwins.node? id hid).trans (hstep'.node? id fun hv => hapart' id hv hid).symm
  by_cases hid' : others id
  · exact (hkeeps' hid).trans (htwins'.node? id hid')
  · rw [hkeeps hid', hkeeps' hid, hstart'.node? id (hid' ∘ (·.within h'.closed)),
      hstep.node? id (hid ∘ (·.within h.closed)), hgraph]

end Orders

/-- What a node reaches is independent of the shared nodes if no assignment that it reaches has a
shared target. -/
theorem Independent.of_reaches {g : Graph} (hg : g.WellFormed)
    (hwatched : ∀ node ∈ g.nodes, node.watched = false)
    (hsteady : ∀ node ∈ g.nodes, node.kind.isRandom = false)
    {context : Context} (hretained : context.retained = []) (config : Config) (spare : UInt64)
    {c : Settings} (hsteps : g.size ≤ c.maxIterations) {r : NodeId} (hr : r.index < g.size)
    {shared : NodeId → Prop} (hle : ∀ id, shared id → g.Reaches r id)
    (hclosed : ∀ a b, shared a → g.Refers a b → shared b)
    (hapart : ∀ v, g.Assigns (g.Reaches r) v → ¬ shared v) :
    Independent c (start lib g context config spare) shared (g.Reaches r) where
  accounted := accounted_start lib hg context config spare
  fit := .start lib hretained config spare spare
  steps := hsteps
  unwatched := hwatched
  steady := hsteady
  known _ hid := Nat.lt_of_le_of_lt (hid.index_le hg) hr
  closed _ _ ha hb := ha.tail hb
  le := hle
  sharedClosed := hclosed
  apart := hapart

theorem completeAll_pair {c : Settings} {s u : State} {r₁ r₂ : NodeId} {o₁ o₂ : Output} :
    Eval.completeAll [r₁, r₂] c s = (.ok (.list [o₁, o₂]), u) ↔
      ∃ t, Eval.complete r₁ c s = (.ok o₁, t) ∧ Eval.complete r₂ c t = (.ok o₂, u) := by
  simp only [Eval.completeAll, Eval.each, Eval.bind_run_eq_ok, Eval.pure_run]
  constructor
  · rintro ⟨_, _, ⟨_, t, hfirst, _, _, ⟨_, _, hsecond, _, _, hnil, hcons⟩, hlist⟩, hout⟩
    cases hnil
    cases hcons
    cases hlist
    cases hout
    exact ⟨t, hfirst, hsecond⟩
  · rintro ⟨t, hfirst, hsecond⟩
    exact ⟨_, _, ⟨_, t, hfirst, _, _, ⟨_, _, hsecond, _, _, rfl, rfl⟩, rfl⟩, rfl⟩

/-- Two nodes of which neither reaches a variable that the other may assign to are evaluated with
the same results in either order, and the graph is the same afterwards. -/
theorem completeAll_comm {g : Graph} (hg : g.WellFormed)
    (hwatched : ∀ node ∈ g.nodes, node.watched = false)
    (hsteady : ∀ node ∈ g.nodes, node.kind.isRandom = false)
    {context : Context} (hretained : context.retained = []) (config : Config)
    (spare spare' : UInt64) {c : Settings} (hsteps : g.size ≤ c.maxIterations) {r₁ r₂ : NodeId}
    (h₁ : r₁.index < g.size) (h₂ : r₂.index < g.size)
    (hapart₁ : ∀ v, g.Assigns (g.Reaches r₁) v → ¬ g.Reaches r₂ v)
    (hapart₂ : ∀ v, g.Assigns (g.Reaches r₂) v → ¬ g.Reaches r₁ v) {o₁ o₂ : Output} {t : State}
    (hrun : Eval.completeAll [r₁, r₂] c (start lib g context config spare) =
      (.ok (.list [o₁, o₂]), t)) :
    ∃ t', Eval.completeAll [r₂, r₁] c (start lib g context config spare') =
      (.ok (.list [o₂, o₁]), t') ∧ t'.graph = t.graph := by
  have hindependent : ∀ {r}, r.index < g.size → (∀ id, g.Reaches r₁ id ∧ g.Reaches r₂ id →
      g.Reaches r id) → (∀ v, g.Assigns (g.Reaches r) v → ¬ (g.Reaches r₁ v ∧ g.Reaches r₂ v)) →
      Independent c (start lib g context config spare)
        (fun id => g.Reaches r₁ id ∧ g.Reaches r₂ id) (g.Reaches r) :=
    fun hr hle => .of_reaches lib hg hwatched hsteady hretained config spare hsteps hr hle
      fun _ _ ha hb => ⟨ha.1.tail hb, ha.2.tail hb⟩
  obtain ⟨s, hs, ht⟩ := completeAll_pair.mp hrun
  obtain ⟨s', t', hs', ht', hgraph⟩ :=
    (hindependent h₁ (fun _ => And.left) fun v hv => hapart₁ v hv ∘ And.right).comm
      (hindependent h₂ (fun _ => And.right) fun v hv => hapart₂ v hv ∘ And.left)
      (fun _ => And.intro) hapart₁ hapart₂ (.start lib hretained config spare spare') rfl rfl
      (.refl g r₁) (.refl g r₂) hs ht
  exact ⟨t', completeAll_pair.mpr ⟨s', hs', ht'⟩, hgraph⟩

/-- An assignment and a group with another one, which take their values from the same node. -/
theorem completeAll_comm_assign :
    let g := Graph.ofSteps [.variable "a" .int32 (some (.scalar (.int 1))),
      .variable "b" .int32 (some (.scalar (.int 2))),
      .variable "k" .int32 (some (.scalar (.int 3))),
      .operation "y" ⟨.control .identity, [⟨2⟩], .empty⟩,
      .operation "c" ⟨.control (.assign .set), [⟨0⟩, ⟨3⟩], .empty⟩,
      .operation "d" ⟨.control (.assign .set), [⟨1⟩, ⟨3⟩], .empty⟩,
      .operation "e" ⟨.control .flowGroup, [], ⟨[("values", .nodes [⟨5⟩])]⟩⟩]
    let start (spare : UInt64) : State := .start .standard g .empty .standard spare
    let three := Output.value (.scalar (.int 3))
    ∃ t t', Eval.completeAll [⟨4⟩, ⟨6⟩] ⟨32, .cpu⟩ (start 0) =
        (.ok (.list [three, .list [three]]), t) ∧
      Eval.completeAll [⟨6⟩, ⟨4⟩] ⟨32, .cpu⟩ (start 1) =
        (.ok (.list [.list [three], three]), t') ∧ t'.graph = t.graph := by
  intro g start three
  let s := (Eval.complete ⟨4⟩ ⟨32, .cpu⟩ (start 0)).2
  have hfirst : (Eval.complete ⟨4⟩ ⟨32, .cpu⟩ (start 0)).1 = .ok three := rfl
  have hsecond : (Eval.complete ⟨6⟩ ⟨32, .cpu⟩ s).1 = .ok (.list [three]) := by
    unfold s start g
    rfl
  have hok : ∀ {x : Except Failure Output × State} {out}, x.1 = .ok out → x = (.ok out, x.2) :=
    fun h => Prod.ext h rfl
  have hrun := completeAll_pair.mpr ⟨s, hok hfirst, hok hsecond⟩
  -- What the two nodes reach.
  have hleft : ∀ v, g.Reaches ⟨4⟩ v → v ∈ [⟨0⟩, ⟨2⟩, ⟨3⟩, (⟨4⟩ : NodeId)] :=
    fun v h => h.mem_of_closed (by decide) (by decide)
  have hright : ∀ v, g.Reaches ⟨6⟩ v → v ∈ [⟨1⟩, ⟨2⟩, ⟨3⟩, ⟨5⟩, (⟨6⟩ : NodeId)] :=
    fun v h => h.mem_of_closed (by decide) (by decide)
  have hapart : ∀ {r r'} {ids ids' : List NodeId}, (∀ v, g.Reaches r v → v ∈ ids) →
      (∀ v, g.Reaches r' v → v ∈ ids') →
      (∀ id ∈ ids, ∀ node ∈ g.node? id, ∀ v ∈ node.kind.target?, v ∉ ids') →
      ∀ v, g.Assigns (g.Reaches r) v → ¬ g.Reaches r' v := by
    rintro r r' ids ids' h h' hids v ⟨-, id, node, hid, hnode, htarget⟩ hv
    exact hids id (h id hid) node hnode v htarget (h' v hv)
  obtain ⟨t', hrun', hgraph⟩ := completeAll_comm .standard (Graph.built_ofSteps _).wellFormed
    (by decide) (by decide) rfl .standard 0 1 (by decide) (by decide) (by decide)
    (hapart hleft hright (by decide)) (hapart hright hleft (by decide)) hrun
  exact ⟨_, t', hrun, hrun', hgraph⟩

end State

end Dataflow
