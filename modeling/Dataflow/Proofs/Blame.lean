import Dataflow.Proofs.Conduct
import Dataflow.Proofs.Reachability
import Dataflow.Proofs.Refusal

/-!
# Where failures come from

A failure is raised by the last step of an operation or by a node that needs no other node, and is
put into the context of one operation on its way out. As long as all results are of the same call,
what is left in them can be evaluated without a failure, so that a failure comes from a node that
the evaluated one depends on.
-/

namespace Dataflow

variable (lib : Library Rng)

open State

namespace State

/-! ## Failures -/

/-- The node stands, through references, for a variable or a placeholder without a value, and cannot
be evaluated for that reason. -/
inductive Bare (s : State) : NodeId → Failure → Prop
  | uninitialized {id : NodeId} {node : Node} (hnode : s.graph.node? id = some node)
      (hkind : node.kind = .variable none) : Bare s id (.uninitializedVariable node.name)
  | unbound {id : NodeId} {node : Node} (hnode : s.graph.node? id = some node)
      (hkind : node.kind = .placeholder) (hbinding : s.context.binding? node.name = none) :
      Bare s id (.missingPlaceholder node.name)
  | reference {id target : NodeId} {node : Node} {e : Failure}
      (hnode : s.graph.node? id = some node) (hkind : node.kind = .reference target)
      (htarget : Bare s target e) : Bare s id e

/-- In the course of what led to the state, evaluating the node completely gave the value. -/
def Known (s : State) (c : Settings) (id : NodeId) (v : Value) : Prop :=
  ∃ t out, Advances t s ∧ t.Completed c id (.ok out) ∧ out.toValue? = some v

/-- The failure is one of performing the operation `o` of the node itself: it is refused, its kernel
cannot be computed on the values of its operands, or the new value cannot be stored. -/
inductive Raises (s : State) (c : Settings) (node : Node) (o : Operation) : Failure → Prop
  | refused {e : Failure} (h : o.Refuses (s.Known c) e) : Raises s c node o e
  | computed {kernel : Kernel} {args : Arguments} {rng : Source Rng} {e : Failure}
      (hop : o.op = .kernel kernel) (hargs : args.Gathered (s.Known c) kernel node o)
      (h : (args.compute c.backend rng).outcome = .error e) : Raises s c node o e
  | stored {update : Update} {target : NodeId} {v : Value} {e : Failure}
      (hop : o.op = .control (.assign update)) (htarget : o.operands[0]? = some target)
      (hv : o.Updates (s.Known c) update (.ok v)) (h : s.graph.store target v = .error e) :
      Raises s c node o e

/-- The failure was put into the context of the operation `id`, which raised it or met it in a node
without a value, one of those that it refers to if results are `fresh`. -/
def Blames (s : State) (c : Settings) (fresh : Prop) (id : NodeId) (e : Failure) : Prop :=
  ∃ node o cause, s.graph.node? id = some node ∧ node.kind = .operation o ∧
    cause.isWrapped = false ∧
    e = .evaluation node.name (s.graph.expression id) node.source cause ∧
    (s.Raises c node o cause ∨ ∃ r, s.Bare r cause ∧ (fresh → r ∈ o.references))

variable {s : State} {c : Settings} {fresh : Prop} {id r : NodeId} {node : Node} {o : Operation}
variable {e : Failure}

theorem Bare.isWrapped (h : s.Bare id e) : e.isWrapped = false := by
  induction h with
  | uninitialized => rfl
  | unbound => rfl
  | reference _ _ _ ih => exact ih

theorem Bare.not_operation (h : s.Bare id e) (hnode : s.graph.node? id = some node) :
    node.kind ≠ .operation o := by
  cases h with
  | uninitialized hnode' hkind => cases hnode.symm.trans hnode'; simp [hkind]
  | unbound hnode' hkind => cases hnode.symm.trans hnode'; simp [hkind]
  | reference hnode' hkind => cases hnode.symm.trans hnode'; simp [hkind]

theorem Raises.isWrapped (h : s.Raises c node o e) : e.isWrapped = false := by
  cases h with
  | refused h => cases h <;> rfl
  | computed _ _ h => exact ((Arguments.owns_compute c.backend _).error e h).isWrapped
  | stored _ _ _ h =>
    obtain ⟨-, rfl⟩ | ⟨_, -, rfl | ⟨_, -, rfl⟩⟩ := Graph.store_eq_error h <;> rfl

theorem Blames.isWrapped (h : s.Blames c fresh id e) : e.isWrapped = true := by
  obtain ⟨_, _, _, -, -, -, rfl, -⟩ := h
  rfl

/-- Names are distinct, so a failure is put into the context of one node. -/
theorem Blames.unique (hs : s.graph.WellFormed) (h : s.Blames c fresh id e)
    (h' : s.Blames c fresh r e) : r = id := by
  obtain ⟨n, _, _, hn, -, -, he, -⟩ := h
  obtain ⟨n', _, _, hn', -, -, he', -⟩ := h'
  have hname : n'.name = n.name := (Failure.evaluation.inj (he'.symm.trans he)).1
  exact hs.names _ _ n' n hn' hn hname

/-! ## Nodes that give a value -/

/-- Evaluating the node again does not fail: it is retained, it stands for a node that gives a
value, or it is an operation with a result. -/
inductive Secure (s : State) : NodeId → Prop
  | retained {id : NodeId} (h : s.context.isRetained id = true) : Secure s id
  | literal {id : NodeId} {node : Node} {v : Value} (hnode : s.graph.node? id = some node)
      (hkind : node.kind = .literal v) : Secure s id
  | initialized {id : NodeId} (h : s.graph.Initialized id) : Secure s id
  | bound {id : NodeId} {node : Node} {v : Value} (hnode : s.graph.node? id = some node)
      (hkind : node.kind = .placeholder) (hbinding : s.context.binding? node.name = some v) :
      Secure s id
  | reference {id target : NodeId} {node : Node} (hnode : s.graph.node? id = some node)
      (hkind : node.kind = .reference target) (htarget : Secure s target) : Secure s id
  | operation {id : NodeId} {out : Output} (h : (id, out) ∈ s.memo) : Secure s id

theorem Secure.mono {t : State} (h : s.Secure id) (hgraph : s.graph.Evolves t.graph)
    (hinitialized : ∀ id, s.graph.Initialized id → t.graph.Initialized id) (hmemo : s.memo ⊆ t.memo)
    (hbindings : t.context.bindings = s.context.bindings)
    (hretained : t.context.retained = s.context.retained) : t.Secure id := by
  induction h with
  | retained h => exact .retained (by simpa [Context.isRetained, hretained] using h)
  | literal hnode hkind =>
    obtain ⟨node', hnode', hbare⟩ := hgraph.node? hnode
    have hsame := Node.eq_of_bare_eq_of_not_variable hbare (by simp [hkind])
    exact .literal hnode' (hsame ▸ hkind)
  | initialized h => exact .initialized (hinitialized _ h)
  | @bound id node v hnode hkind hbinding =>
    obtain ⟨node', hnode', hbare⟩ := hgraph.node? hnode
    have hsame := Node.eq_of_bare_eq_of_not_variable hbare (by simp [hkind])
    have hbinding' : t.context.binding? node'.name = some v := by
      rw [hsame, ← hbinding, Context.binding?, Context.binding?, hbindings]
    exact .bound hnode' (hsame ▸ hkind) hbinding'
  | reference hnode hkind _ ih =>
    exact .reference (hgraph.eq_of_not_leaf hnode (by simp [hkind, NodeKind.isLeaf])) hkind ih
  | operation h => exact .operation (hmemo h)

theorem Secure.advances {t : State} (h : s.Secure id) (hst : Advances s t) : t.Secure id :=
  h.mono hst.graph hst.initialized hst.memo hst.bindings hst.retained

theorem Secure.alike {t : State} (h : s.Secure id) (hst : Alike s t) : t.Secure id :=
  h.mono (hst.graph ▸ .refl _) (by simp [hst.graph]) (by simp [hst.memo]) hst.bindings hst.retained

/-- What a node that is not retained has to be in order to be secure. -/
theorem Secure.of_active (h : s.Secure id) (hs : Coherent (fun _ => True) s)
    (hactive : s.context.isRetained id = false) (hnode : s.graph.node? id = some node) :
    match node.kind with
    | .literal _ => True
    | .variable stored => stored.isSome = true
    | .placeholder => (s.context.binding? node.name).isSome = true
    | .reference target => s.Secure target
    | .operation _ => id ∈ s.memo.map Prod.fst := by
  cases h with
  | retained h => simp [hactive] at h
  | literal hnode' hkind =>
    cases hnode.symm.trans hnode'
    simp [hkind]
  | initialized h =>
    obtain ⟨node', v, hnode', hkind⟩ := h
    cases hnode.symm.trans hnode'
    simp [hkind]
  | bound hnode' hkind hbinding =>
    cases hnode.symm.trans hnode'
    simp [hkind, hbinding]
  | reference hnode' hkind htarget =>
    cases hnode.symm.trans hnode'
    simpa [hkind] using htarget
  | operation h =>
    obtain ⟨node', o, hnode', hkind⟩ := hs.operations id _ h
    cases hnode.symm.trans hnode'
    simpa [hkind] using ⟨_, h⟩

theorem Secure.exists_node? (h : s.Secure id) (hs : Coherent (fun _ => True) s)
    (hactive : s.context.isRetained id = false) : ∃ node, s.graph.node? id = some node := by
  cases h with
  | retained h => simp [hactive] at h
  | literal hnode => exact ⟨_, hnode⟩
  | initialized h =>
    obtain ⟨node, -, hnode, -⟩ := h
    exact ⟨node, hnode⟩
  | bound hnode => exact ⟨_, hnode⟩
  | reference hnode => exact ⟨_, hnode⟩
  | operation h =>
    obtain ⟨node, -, hnode, -⟩ := hs.operations id _ h
    exact ⟨node, hnode⟩

/-! ## What an evaluation gives -/

/-- A node that is left in a result is there or stays as it is. If results are `fresh`, evaluating
it does not fail. -/
structure Leftover (s : State) (fresh : Prop) (n : NodeId) : Prop where
  there : s.stays n = true ∨ ∃ node, s.graph.node? n = some node
  secure : fresh → n ∈ s.symbolic ∨ s.Secure n

/-- How the node `id` can fail: it is not there, or a node without a value or an operation fails. If
results are `fresh`, that node is the node itself, and the operation is one that it reaches. -/
inductive Faults (s : State) (c : Settings) (fresh : Prop) (id : NodeId) (e : Failure) : Prop
  | missing (hnode : s.graph.node? id = none) (he : e = .noSuchNode id.index)
  | bare {r : NodeId} (h : s.Bare r e) (hr : fresh → r = id)
  | blamed {m : NodeId} (h : s.Blames c fresh m e) (hm : fresh → s.graph.Reaches id m)

theorem Leftover.advances {t : State} {n : NodeId} (h : s.Leftover fresh n) (hst : Advances s t) :
    t.Leftover fresh n where
  there := h.there.imp hst.stays hst.exists_node?
  secure hfresh := (h.secure hfresh).imp (hst.symbolic ·) (·.advances hst)

theorem Coherent.exists_node?_of_left {idle : NodeId → Prop} (hs : Coherent idle s) {out : Output}
    (hmem : (id, out) ∈ s.memo) {n : NodeId} (hn : n ∈ out.nodes) :
    ∃ node, s.graph.node? n = some node := by
  obtain ⟨node, o, hnode, -⟩ := hs.operations id out hmem
  have hlt := Graph.lt_size_of_node? hnode
  rcases hs.left id out hmem n hn with hsymbolic | ⟨hn, -⟩
  · exact Graph.exists_node?_of_lt (hs.symbolic n hsymbolic)
  · exact Graph.exists_node?_of_lt (by omega)

end State

/-- The conduct of failures. If results are `fresh`, all of them were given in the present call. -/
def Conduct.blaming (c : Settings) (fresh : Prop) : Conduct where
  inv s := fresh → ∀ r ∈ s.memo, ∀ n ∈ r.2.nodes, n ∈ s.symbolic ∨ s.Secure n
  gives
    | id, .ok out, s => (∀ n ∈ out.nodes, s.Leftover fresh n) ∧ (fresh → s.Secure id)
    | id, .error e, s => s.Faults c fresh id e ∧ (fresh → ¬ s.Secure id)
  left n s := s.Leftover fresh n

namespace Conduct.Performing

variable {c : Settings} {fresh : Prop} {id : NodeId} {node : Node} {o : Operation} {s t : State}
variable {y : Eval Output}

/-- An operation that fails is blamed, unless a failure comes from an operation further in. -/
theorem faults (h : (blaming c fresh).Performing c id node o s y) {e : Failure}
    (hrun : y c s = (.error e, t)) : t.Faults c fresh id (t.graph.wrap id e) := by
  have halike := (h.changes hrun).alike_of_error
  have hst := h.advances hrun
  have hfound : t.graph.node? id = some node := by rw [halike.graph, h.found]
  have hknown : ∀ r v, Valued (blaming c fresh).regime ((blaming c fresh).operand c) s r v →
      t.Known c r v := by
    rintro r v ⟨out, ⟨u, hus, -, hcompleted⟩, hv⟩
    exact ⟨u, out, Advances.trans hus hst, hcompleted, hv⟩
  have hblamed : ∀ {cause}, cause.isWrapped = false →
      (t.Raises c node o cause ∨ ∃ r, t.Bare r cause ∧ (fresh → r ∈ o.references)) →
      t.Faults c fresh id (t.graph.wrap id cause) := fun hcause hwhy =>
    .blamed ⟨node, o, _, hfound, h.kind, hcause, Graph.wrap_of_node? hcause hfound, hwhy⟩
      fun _ => .refl _ id
  have hraises : ∀ {cause}, t.Raises c node o cause → t.Faults c fresh id (t.graph.wrap id cause) :=
    fun hcause => hblamed hcause.isWrapped (.inl hcause)
  -- A failure of an operand was blamed further in, or is that of a bare node.
  cases h.last with
  | @failed r _ hr hgives =>
    cases hrun
    have hrefers := Graph.Refers.of_operation h.found h.kind hr
    cases hgives.1.1 with
    | missing hnone =>
      have hlt := h.coherent.graph.lt_of_refers hrefers
      obtain ⟨n, hn⟩ := Graph.exists_node?_of_lt (Nat.lt_trans hlt (Graph.lt_size_of_node? h.found))
      cases hnone.symm.trans hn
    | bare hbare hown =>
      exact hblamed hbare.isWrapped (.inr ⟨_, hbare, fun hfresh => hown hfresh ▸ hr⟩)
    | blamed hm hreaches =>
      rw [Graph.wrap_of_isWrapped _ _ hm.isWrapped]
      exact .blamed hm fun hfresh => .head hrefers (hreaches hfresh)
  | refused he =>
    cases hrun
    exact hraises (.refused (he.mono hknown))
  | computed hop hnode hargs =>
    cases h.found.symm.trans hnode
    rw [Eval.compute_run] at hrun
    have houtcome := Except.map_eq_error.mp (congrArg Prod.fst hrun)
    exact hraises (.computed hop (hargs.mono hknown) houtcome)
  | @written update target v hop htarget hv =>
    have houtcome := (Eval.write_outcome h.coherent.graph update v).symm.trans
      (congrArg Prod.fst hrun)
    have hstore : t.graph.store target v = .error e :=
      halike.graph ▸ Except.map_eq_error.mp houtcome
    exact hraises (.stored hop htarget (hv.mono hknown) hstore)
  | deferred =>
    obtain ⟨n, u, hdefer, -⟩ := Eval.defer_run_ok c h.found o
    cases hdefer.symm.trans hrun
  | passed => cases hrun
  | grouped => cases hrun
  | printed => cases hrun

/-- What is left in the result of an operation can be evaluated without a failure. -/
theorem secure (h : (blaming c fresh).Performing c id node o s y) {out : Output}
    (hrun : y c s = (.ok out, t)) (hfresh : fresh) :
    ∀ n ∈ out.nodes, n ∈ t.symbolic ∨ t.Secure n := by
  cases h.last with
  | failed => cases hrun
  | refused => cases hrun
  | computed =>
    rw [Eval.compute_run] at hrun
    obtain ⟨v, -, rfl⟩ := Except.map_eq_ok.mp (congrArg Prod.fst hrun)
    simp
  | @written update target v hop htarget =>
    have houtcome := (Eval.write_outcome h.coherent.graph update v).symm.trans
      (congrArg Prod.fst hrun)
    obtain ⟨r, -, rfl⟩ := Except.map_eq_ok.mp houtcome
    simp
  | deferred =>
    obtain ⟨n, u, hdefer, hn⟩ := Eval.defer_run_ok c h.found o
    cases hdefer.symm.trans hrun
    simpa using .inl hn
  | passed _ hgives =>
    cases hrun
    exact fun n hn => (hgives.1.1 n hn).secure hfresh
  | @grouped outs hop hgave =>
    cases hrun
    intro n hn
    obtain ⟨r, hr, hn⟩ := Output.mem_nodes_list.mp hn
    obtain ⟨member, -, u, hst, hgives, -⟩ := exists_of_mem_forall₂ hgave hr
    exact ((hgives.1 n hn).advances hst).secure hfresh
  | printed hop hr hgives =>
    cases hrun
    intro n hn
    cases List.mem_singleton.mp hn
    exact .inr ((hgives.1.2 hfresh).advances (.with_events s _))

end Conduct.Performing

namespace Conduct

/-- What a result gives rise to holds in the state in which it is remembered. -/
theorem blaming_performed {c : Settings} {fresh : Prop} {id : NodeId} {node : Node} {o : Operation}
    {s t : State} {y : Eval Output} {out : Output}
    (h : (blaming c fresh).Performing c id node o s y) (hrun : y c s = (.ok out, t))
    (hcoherent : Coherent (fun _ => True) (t.recorded id out)) :
    let u : State := t.recorded id out
    (blaming c fresh).inv u ∧ (blaming c fresh).gives id (.ok out) u := by
  intro u
  have hchanges := h.changes hrun
  have htu : Advances t u := .remember t id out
  have hsu : Advances s u := (h.advances hrun).trans htu
  have hmem : (id, out) ∈ u.memo := List.mem_cons_self
  have hsecure : fresh → ∀ n ∈ out.nodes, n ∈ u.symbolic ∨ u.Secure n := fun hfresh n hn =>
    (h.secure hrun hfresh n hn).imp (htu.symbolic ·) (·.advances htu)
  refine ⟨fun hfresh r hr n hn => ?_, fun n hn => ?_, fun _ => .operation hmem⟩
  · rcases List.mem_cons.mp hr with rfl | hr
    · exact hsecure hfresh n hn
    · have hold := h.inv hfresh r (hchanges.memo ▸ hr) n hn
      exact hold.imp (hsu.symbolic ·) (·.advances hsu)
  · exact ⟨.inr (hcoherent.exists_node?_of_left hmem hn), fun hfresh => hsecure hfresh n hn⟩

theorem blaming_lawful (c : Settings) (fresh : Prop) : (blaming c fresh).Lawful c where
  alike h hs hfresh r hr n hn :=
    (hs hfresh r (h.memo ▸ hr) n hn).imp (h.symbolic ▸ ·) (·.alike h)
  leaves h := h.1
  lasts hst h := h.advances hst
  retained _ hretained := by
    refine ⟨fun n hn => ?_, fun _ => .retained hretained⟩
    cases List.mem_singleton.mp hn
    exact ⟨.inl (stays_iff.mpr (.inr hretained)), fun _ => .inr (.retained hretained)⟩
  missing hs hactive hnone := by
    refine ⟨.missing hnone rfl, fun _ hsecure => ?_⟩
    obtain ⟨node, hnode⟩ := hsecure.exists_node? hs.1 hactive
    cases hnone.symm.trans hnode
  leaf hs hactive hnode h := by
    cases h with
    | literal hkind => exact ⟨by simp, fun _ => .literal hnode hkind⟩
    | initialized hkind => exact ⟨by simp, fun _ => .initialized ⟨_, _, hnode, hkind⟩⟩
    | bound hkind hbinding => exact ⟨by simp, fun _ => .bound hnode hkind hbinding⟩
    | uninitialized hkind =>
      refine ⟨.bare (.uninitialized hnode hkind) fun _ => rfl, fun _ hsecure => ?_⟩
      simpa [hkind] using hsecure.of_active hs.1 hactive hnode
    | unbound hkind hbinding =>
      refine ⟨.bare (.unbound hnode hkind hbinding) fun _ => rfl, fun _ hsecure => ?_⟩
      simpa [hkind, hbinding] using hsecure.of_active hs.1 hactive hnode
  reference {id node target r s} hs hactive hnode hkind h := by
    have hrefers : s.graph.Refers id target := ⟨node, hnode, by simp [hkind, NodeKind.references]⟩
    cases r with
    | ok out => exact ⟨h.1, fun hfresh => .reference hnode hkind (h.2 hfresh)⟩
    | error e =>
      obtain ⟨hfaults, hinsecure⟩ := h
      refine ⟨?_, fun hfresh hsecure => hinsecure hfresh ?_⟩
      · cases hfaults with
        | missing hnone =>
          have hlt := hs.1.graph.lt_of_refers hrefers
          obtain ⟨n, hn⟩ := Graph.exists_node?_of_lt (Nat.lt_trans hlt hrefers.lt_size)
          cases hnone.symm.trans hn
        | @bare r hbare hown =>
          by_cases hr : r = target
          · exact .bare (.reference hnode hkind (hr ▸ hbare)) fun _ => rfl
          · exact .bare hbare fun hfresh => absurd (hown hfresh) hr
        | blamed hm hreaches => exact .blamed hm fun hfresh => .head hrefers (hreaches hfresh)
      · simpa [hkind] using hsecure.of_active hs.1 hactive hnode
  remembered hs hmem := by
    refine ⟨fun n hn => ⟨.inr (hs.1.exists_node?_of_left hmem hn), fun hfresh => ?_⟩,
      fun _ => .operation hmem⟩
    exact hs.2 hfresh _ hmem n hn
  failed {id node o y s e t} h hrun := by
    refine ⟨h.faults hrun, fun _ hsecure => h.new ?_⟩
    have halike := (h.changes hrun).alike_of_error
    have hactive := (halike.isRetained id).trans h.active
    have hfound : t.graph.node? id = some node := by rw [halike.graph, h.found]
    have hmem := hsecure.of_active (halike.coherent h.coherent) hactive hfound
    rw [h.kind] at hmem
    exact halike.memo ▸ hmem
  performed := blaming_performed
  later h hst _ hleft := ⟨hleft, fun hfresh => (h.2 hfresh).advances hst⟩
  blocked {id n e s t} hleft hstays hst h := by
    -- With fresh results, the node that is left would not fail.
    have hstale : ¬ fresh := by
      intro hfresh
      rcases hleft.secure hfresh with hsymbolic | hsecure
      · simp [stays, isSymbolic, hsymbolic] at hstays
      · exact h.2 hfresh (hsecure.advances hst)
    refine ⟨?_, fun hfresh => absurd hfresh hstale⟩
    cases h.1 with
    | missing hnone =>
      obtain ⟨node, hnode⟩ := hst.exists_node? (hleft.there.resolve_left (by simp [hstays]))
      cases hnone.symm.trans hnode
    | bare hbare => exact .bare hbare fun hfresh => absurd hfresh hstale
    | blamed hm => exact .blamed hm fun hfresh => absurd hfresh hstale

end Conduct

namespace State

variable {c : Settings}

/-- The failures of a call, whatever was evaluated before it. -/
theorem call_faults (call : Call) (s : State) :
    (Conduct.blaming c False).regime.Ensures c s call.eval (OnOutcome (fun _ _ => True) fun e t =>
      (∃ m, t.Blames c False m e) ∨
      (∃ id ∈ call.ids, t.graph.node? id = none ∧ e = .noSuchNode id.index) ∨
      ∃ r, t.Bare r e) := by
  have laws := Conduct.blaming_lawful c False
  -- A node that is missing is one that the call itself asks for.
  have hfaults : ∀ id ∈ call.ids, ∀ (r : Except Failure Output) t,
      (Conduct.blaming c False).gives id r t → OnOutcome (fun _ _ => True) (fun e t =>
        (∃ m, t.Blames c False m e) ∨
        (∃ id ∈ call.ids, t.graph.node? id = none ∧ e = .noSuchNode id.index) ∨
        ∃ r, t.Bare r e) r t := by
    rintro id hid (e | out) t hgives
    · cases hgives.1 with
      | missing hnode he => exact .inr (.inl ⟨id, hid, hnode, he⟩)
      | bare h => exact .inr (.inr ⟨_, h⟩)
      | blamed h => exact .inl ⟨_, h⟩
    · trivial
  exact call.eval_outcome
    (fun id hid t => (Eval.run_conducted laws id).conseq fun r u _ _ hr => hfaults id hid r u hr)
    (fun id hid t =>
      (Eval.complete_conducted laws id).conseq fun r u _ _ hr => hfaults id hid r u hr) s

/-- A failure of a call was put into the context of one operation, or of none: then a node that was
asked for is not there, or a variable or a placeholder has no value. On a fresh evaluator, a failure
of evaluating an operation completely was put into the context of an operation that it reaches, and
was raised there or by a variable or a placeholder that this operation refers to. -/
theorem failures_wrapped_once {g : Graph} (hg : g.Reached) (context : Context) (config : Config)
    (spare : UInt64) (c : Settings) :
    (∀ (session : Session) (context' : Context) (call : Call) (e : Failure) (t : State),
      call.eval c { (State.start lib g context config spare).after c session with
        context := context' } = (.error e, t) →
      (∃! m, t.Blames c False m e) ∨
      (∃ id ∈ call.ids, t.graph.node? id = none ∧ e = .noSuchNode id.index) ∨
      ∃ r, t.Bare r e) ∧
    ∀ (id : NodeId) (node : Node) (o : Operation) (e : Failure) (t : State),
      g.node? id = some node → node.kind = .operation o →
      Eval.complete id c (.start lib g context config spare) = (.error e, t) →
      ∃! m, t.Blames c True m e ∧ t.graph.Reaches id m := by
  constructor
  · intro session context' call e t hrun
    obtain ⟨hs, -⟩ := after_growth (c := c) session
      (coherent_start lib hg.wellFormed context config spare)
    obtain ⟨⟨ht, -⟩, -, hfaults⟩ := call_faults call _ ⟨hs.with_context context', False.elim⟩
    rw [hrun] at ht hfaults
    refine hfaults.imp_left fun ⟨m, hm⟩ => ⟨m, hm, fun _ hm' => hm.unique ht.graph hm'⟩
  · intro id node o e t hnode hkind hrun
    have hstart : (Conduct.blaming c True).regime.inv (.start lib g context config spare) :=
      ⟨coherent_start lib hg.wellFormed context config spare, by simp [Conduct.blaming, start]⟩
    obtain ⟨⟨ht, -⟩, hst, hgives⟩ :=
      Eval.complete_conducted (Conduct.blaming_lawful c True) id hstart
    rw [hrun] at ht hst hgives
    have hnode' := (Advances.graph hst).operation hnode hkind
    cases hgives.1 with
    | missing hnone => cases hnone.symm.trans hnode'
    | bare h hown => exact absurd hkind ((hown trivial ▸ h).not_operation hnode')
    | @blamed m h hreaches =>
      exact ⟨m, ⟨h, hreaches trivial⟩, fun _ hm' => h.unique ht.graph hm'.1⟩

/-- The operation in the middle is blamed for a variable without a value, once. -/
theorem failures_wrapped_once_negate :
    let g := Graph.ofSteps [.variable "u" .int32 none,
      .operation "y" ⟨.kernel (.unary .negate), [⟨0⟩], .empty⟩,
      .operation "z" ⟨.kernel (.unary .negate), [⟨1⟩], .empty⟩]
    let e := Failure.evaluation "y" "negate(u)" none (.uninitializedVariable "u")
    let r := Eval.complete ⟨2⟩ ⟨32, .cpu⟩ (.start .standard g .empty .standard 0)
    r.1 = .error e ∧ ∃! m, r.2.Blames ⟨32, .cpu⟩ True m e ∧ r.2.graph.Reaches ⟨2⟩ m :=
  have h := failures_wrapped_once .standard (Graph.built_ofSteps [.variable "u" .int32 none,
    .operation "y" ⟨.kernel (.unary .negate), [⟨0⟩], .empty⟩,
    .operation "z" ⟨.kernel (.unary .negate), [⟨1⟩], .empty⟩]).reached .empty .standard 0 ⟨32, .cpu⟩
  ⟨rfl, h.2 ⟨2⟩ _ _ _ _ rfl rfl (Prod.ext rfl rfl)⟩

end State

end Dataflow
