import Dataflow.Evaluation.Step
import Dataflow.Proofs.Evolution
import Dataflow.Proofs.Regime

/-!
# Coherent states

The regime of every evaluation. The graph only grows, and of a node only the stored value changes.
Every operation has one result at most, which is made of values and of nodes that need not be
evaluated any more. Each write and each breakpoint that was reported belongs to a result.
-/

namespace Dataflow

/-! ## Nodes at rest -/

/-- A node of which nothing is left to be evaluated: evaluating it again only looks up what is known
already. The nodes for which `idle` holds are not evaluated at all. -/
inductive AtRest (idle : NodeId → Prop) (g : Graph) (memo : List (NodeId × Output)) :
    NodeId → Prop
  | idle {id : NodeId} (h : idle id) : AtRest idle g memo id
  | leaf {id : NodeId} {node : Node} (hnode : g.node? id = some node)
      (hleaf : node.kind.isLeaf = true) : AtRest idle g memo id
  | reference {id target : NodeId} {node : Node} (hnode : g.node? id = some node)
      (hkind : node.kind = .reference target) (htarget : AtRest idle g memo target) :
      AtRest idle g memo id
  | operation {id : NodeId} {result : Output} (h : (id, result) ∈ memo) : AtRest idle g memo id

theorem AtRest.mono {idle : NodeId → Prop} {g g' : Graph} {memo memo' : List (NodeId × Output)}
    (hg : g.Evolves g') (hmemo : memo ⊆ memo') {id : NodeId} (h : AtRest idle g memo id) :
    AtRest idle g' memo' id := by
  induction h with
  | idle h => exact .idle h
  | leaf hnode hleaf =>
    obtain ⟨node', hnode', hbare⟩ := hg.node? hnode
    refine .leaf hnode' ?_
    rw [← Node.bare_isLeaf, hbare, Node.bare_isLeaf, hleaf]
  | reference hnode hkind _ ih =>
    exact .reference (hg.eq_of_not_leaf hnode (by simp [hkind, NodeKind.isLeaf])) hkind ih
  | operation h => exact .operation (hmemo h)

namespace Output

@[simp] theorem nodes_value (v : Value) : (Output.value v).nodes = [] := rfl

@[simp] theorem nodes_node (id : NodeId) : (Output.node id).nodes = [id] := rfl

@[simp] theorem mem_nodes_list {items : List Output} {id : NodeId} :
    id ∈ (Output.list items).nodes ↔ ∃ r ∈ items, id ∈ r.nodes := by
  show id ∈ nodesOfItems items ↔ _
  induction items with
  | nil => simp [nodesOfItems]
  | cons r items ih => simp [nodesOfItems, ih]

end Output

/-! ## Looking up results -/

section Lookup

variable {memo : List (NodeId × Output)} {id : NodeId} {result : Output}

theorem mem_of_lookup (h : memo.lookup id = some result) : (id, result) ∈ memo := by
  obtain ⟨before, after, hmemo, -⟩ := List.lookup_eq_some_iff.mp h
  rw [hmemo]
  exact List.mem_append_right before List.mem_cons_self

theorem not_mem_of_lookup (h : memo.lookup id = none) : id ∉ memo.map Prod.fst := by
  intro hid
  obtain ⟨r, hr, rfl⟩ := List.mem_map.mp hid
  simpa using List.lookup_eq_none_iff.mp h r hr

theorem lookup_of_mem (honce : (memo.map Prod.fst).Nodup) (h : (id, result) ∈ memo) :
    memo.lookup id = some result := by
  induction memo with
  | nil => cases h
  | cons r memo ih =>
    obtain ⟨hr, honce⟩ := List.nodup_cons.mp honce
    rcases List.mem_cons.mp h with rfl | h
    · exact List.lookup_cons_self
    · -- The first entry is for another node, since `id` has no second one.
      have hne : (id == r.1) = false := by
        rw [beq_eq_false_iff_ne]
        rintro rfl
        exact hr (List.mem_map.mpr ⟨_, h, rfl⟩)
      rw [List.lookup_cons, hne]
      exact ih honce h

end Lookup

/-! ## Reports and results -/

/-- The write that an event reports. -/
def Event.write? : Event → Option Write
  | .report (.wrote update name stored) => some (update, name, stored)
  | _ => none

/-- The node whose breakpoint an event reports. -/
def Event.observed? : Event → Option String
  | .observed name _ _ _ => some name
  | _ => none

/-- The write that performing the node `id` with the given result took. -/
def Graph.write? (g : Graph) (id : NodeId) (result : Output) : Option Write :=
  match (g.node? id).map Node.kind, result with
  | some (.operation ⟨.control (.assign update), target :: _, _⟩), .value v =>
    (g.node? target).map fun n => (update, n.name, v)
  | _, _ => none

/-- The name of the node `id` if it has a breakpoint. -/
def Graph.watched? (g : Graph) (id : NodeId) : Option String :=
  (g.node? id).bind fun n => if n.watched then some n.name else none

namespace State

/-- The writes that were reported, in their order. -/
def reportedWrites (s : State) : List Write := s.events.toList.filterMap Event.write?

/-- The writes that the results stand for, in the order of the results. -/
def writes (s : State) : List Write :=
  s.memo.reverse.filterMap fun (id, result) => s.graph.write? id result

/-- The names of the breakpoints that were reported, in their order. -/
def observed (s : State) : List String := s.events.toList.filterMap Event.observed?

/-- The names of the nodes with breakpoints that have a result, in the order of the results. -/
def watched (s : State) : List String :=
  s.memo.reverse.filterMap fun (id, _) => s.graph.watched? id

theorem stays_iff {s : State} {id : NodeId} :
    s.stays id = true ↔ id ∈ s.symbolic ∨ s.context.isRetained id = true := by
  simp [stays, isSymbolic]

/-- A node that may be left in a result: a copy, or a node below `bound` at rest. -/
def Left (s : State) (idle : NodeId → Prop) (bound : Nat) (id : NodeId) : Prop :=
  id ∈ s.symbolic ∨ id.index < bound ∧ AtRest idle s.graph s.memo id

/-- A node that may be left in the result of evaluating the node at `bound`. -/
def Spared (s : State) (idle : NodeId → Prop) (bound : Nat) (id : NodeId) : Prop :=
  s.Left idle bound id ∨ id.index ≤ bound ∧ s.context.isRetained id = true

/-- The node stays as it is, or lies below the bound. -/
def Descends (s : State) (bound : Nat) (id : NodeId) : Prop :=
  s.stays id = true ∨ id.index < bound

theorem Left.descends {s : State} {idle : NodeId → Prop} {bound : Nat} {id : NodeId}
    (h : s.Left idle bound id) : s.Descends bound id :=
  h.imp (fun hid => stays_iff.mpr (.inl hid)) And.left

theorem Spared.descends {s : State} {idle : NodeId → Prop} {bound : Nat} {id : NodeId}
    (h : s.Spared idle bound id) : s.Descends bound id :=
  h.elim Left.descends fun ⟨_, hid⟩ => .inl (stays_iff.mpr (.inr hid))

/-- What holds in every state of an evaluation in which only nodes with `idle` are retained. -/
structure Coherent (idle : NodeId → Prop) (s : State) : Prop where
  graph : s.graph.WellFormed
  /-- No operation has two results. -/
  once : (s.memo.map Prod.fst).Nodup
  operations : ∀ id result, (id, result) ∈ s.memo →
    ∃ node o, s.graph.node? id = some node ∧ node.kind = .operation o
  left : ∀ id result, (id, result) ∈ s.memo → ∀ n ∈ result.nodes, s.Left idle id.index n
  symbolic : ∀ id ∈ s.symbolic, id.index < s.graph.size
  retained : ∀ id, s.context.isRetained id = true → idle id
  /-- Every operation that was performed with a result was remembered, and nothing else was. -/
  performed : s.performed = s.memo

/-- What relates a state to every later one. -/
structure Grows (s t : State) : Prop where
  memo : s.memo <:+ t.memo
  symbolic : s.symbolic ⊆ t.symbolic
  /-- Writes are reported as the results are remembered, and nothing else changes the nodes that are
  there. -/
  writes : ∃ ws, t.reportedWrites = s.reportedWrites ++ ws ∧ t.writes = s.writes ++ ws ∧
    t.graph.Extends (s.graph.replay ws)
  /-- A breakpoint may evaluate nodes with breakpoints before it is reported itself. -/
  observed : ∃ ns ms, t.observed = s.observed ++ ns ∧ t.watched = s.watched ++ ms ∧ ns.Perm ms

namespace Grows

variable {s t u : State}

theorem refl (s : State) : Grows s s where
  memo := List.suffix_rfl
  symbolic := List.Subset.refl _
  writes := ⟨[], by simp [Graph.Extends.refl]⟩
  observed := ⟨[], [], by simp⟩

theorem trans (h : Grows s t) (h' : Grows t u) : Grows s u := by
  obtain ⟨ws, hws, hws', hgraph⟩ := h.writes
  obtain ⟨vs, hvs, hvs', hgraph'⟩ := h'.writes
  obtain ⟨ns, ms, hns, hms, hperm⟩ := h.observed
  obtain ⟨ns', ms', hns', hms', hperm'⟩ := h'.observed
  constructor
  · exact h.memo.trans h'.memo
  · exact List.Subset.trans h.symbolic h'.symbolic
  · refine ⟨ws ++ vs, by rw [hvs, hws, List.append_assoc], by rw [hvs', hws', List.append_assoc],
      ?_⟩
    -- The later writes also reach the nodes that were added in between.
    rw [Graph.replay_append]
    exact hgraph'.trans (hgraph.replay vs)
  · exact ⟨ns ++ ns', ms ++ ms', by rw [hns', hns, List.append_assoc],
      by rw [hms', hms, List.append_assoc], hperm.append hperm'⟩

theorem graph (h : Grows s t) : s.graph.Evolves t.graph := by
  obtain ⟨ws, -, -, hgraph⟩ := h.writes
  exact (Graph.Evolves.replay s.graph ws).trans (.of_extends hgraph)

theorem atRest {idle : NodeId → Prop} (h : Grows s t) {id : NodeId}
    (hid : AtRest idle s.graph s.memo id) : AtRest idle t.graph t.memo id :=
  hid.mono h.graph h.memo.subset

theorem left {idle : NodeId → Prop} {bound : Nat} (h : Grows s t) {id : NodeId}
    (hid : s.Left idle bound id) : t.Left idle bound id :=
  hid.imp (fun hid => h.symbolic hid) fun ⟨hlt, hrest⟩ => ⟨hlt, h.atRest hrest⟩

end Grows

/-- What relates a state to a later one in the same context. -/
structure Later (s t : State) : Prop extends Grows s t where
  bindings : t.context.bindings = s.context.bindings
  retained : t.context.retained = s.context.retained

namespace Later

variable {s t u : State}

theorem refl (s : State) : Later s s :=
  { Grows.refl s with
    bindings := rfl
    retained := rfl }

theorem trans (h : Later s t) (h' : Later t u) : Later s u :=
  { h.toGrows.trans h'.toGrows with
    bindings := h'.bindings.trans h.bindings
    retained := h'.retained.trans h.retained }

theorem isRetained (h : Later s t) (id : NodeId) :
    t.context.isRetained id = s.context.isRetained id := by
  simp [Context.isRetained, h.retained]

theorem stays (h : Later s t) {id : NodeId} (hid : s.stays id = true) : t.stays id = true :=
  stays_iff.mpr ((stays_iff.mp hid).imp (h.symbolic ·) (h.isRetained id).trans)

theorem descends {bound : Nat} (h : Later s t) {id : NodeId} (hid : s.Descends bound id) :
    t.Descends bound id :=
  hid.imp_left h.stays

theorem spared {idle : NodeId → Prop} {bound : Nat} (h : Later s t) {id : NodeId}
    (hid : s.Spared idle bound id) : t.Spared idle bound id :=
  hid.imp h.left fun ⟨hle, hretained⟩ => ⟨hle, (h.isRetained id).trans hretained⟩

end Later

/-- What relates a state to a later one if only operations below `bound` were performed between
them. -/
structure Step (bound : Nat) (s t : State) : Prop extends Later s t where
  below : ∀ r ∈ t.memo, r ∈ s.memo ∨ r.1.index < bound

namespace Step

variable {bound bound' : Nat} {s t u : State}

theorem refl (bound : Nat) (s : State) : Step bound s s :=
  { Later.refl s with below := fun _ hr => .inl hr }

theorem trans (h : Step bound s t) (h' : Step bound t u) : Step bound s u :=
  { h.toLater.trans h'.toLater with
    below := fun r hr => (h'.below r hr).elim (h.below r) .inr }

theorem mono (h : Step bound s t) (hle : bound ≤ bound') : Step bound' s t :=
  { h with below := fun r hr => (h.below r hr).imp_right fun hlt => Nat.lt_of_lt_of_le hlt hle }

/-- No operation from `bound` on gets a result. -/
theorem new (h : Step bound s t) {id : NodeId} (hid : bound ≤ id.index)
    (hmiss : s.memo.lookup id = none) : id ∉ t.memo.map Prod.fst := by
  intro hmem
  obtain ⟨r, hr, rfl⟩ := List.mem_map.mp hmem
  rcases h.below r hr with hold | hlt
  · exact not_mem_of_lookup hmiss (List.mem_map.mpr ⟨r, hold, rfl⟩)
  · exact absurd hlt (Nat.not_lt.mpr hid)

end Step

/-- The regime of the operations below `bound`. -/
def coherence (idle : NodeId → Prop) (bound : Nat) : Regime where
  inv := Coherent idle
  step := Step bound
  refl := Step.refl bound
  trans := Step.trans

/-- What is left of an earlier node may be left of a later one. -/
theorem Coherent.left_of_spared {idle : NodeId → Prop} {s : State} (hs : Coherent idle s)
    {bound bound' : Nat} (hlt : bound < bound') {id : NodeId} (h : s.Spared idle bound id) :
    s.Left idle bound' id := by
  rcases h with (hsymbolic | ⟨hid, hrest⟩) | ⟨hid, hretained⟩
  · exact .inl hsymbolic
  · exact .inr ⟨Nat.lt_trans hid hlt, hrest⟩
  · exact .inr ⟨Nat.lt_of_le_of_lt hid hlt, .idle (hs.retained id hretained)⟩

/-! ## Single changes -/

/-- At most the generator, the reads of the context and reports on the way have changed. -/
structure Quiet (s t : State) : Prop where
  graph : t.graph = s.graph
  memo : t.memo = s.memo
  performed : t.performed = s.performed
  symbolic : t.symbolic = s.symbolic
  bindings : t.context.bindings = s.context.bindings
  retained : t.context.retained = s.context.retained
  reportedWrites : t.reportedWrites = s.reportedWrites
  observed : t.observed = s.observed

namespace Quiet

variable {idle : NodeId → Prop} {bound : Nat} {s t u : State}

theorem left (h : Quiet s t) (n : NodeId) : t.Left idle bound n ↔ s.Left idle bound n := by
  simp [Left, h.graph, h.memo, h.symbolic]

theorem coherent (h : Quiet s t) (hs : Coherent idle s) : Coherent idle t where
  graph := h.graph ▸ hs.graph
  once := h.memo ▸ hs.once
  operations := by simpa [h.memo, h.graph] using hs.operations
  left := by simpa [h.left, h.memo] using hs.left
  symbolic := by simpa [h.symbolic, h.graph] using hs.symbolic
  retained := by simpa [Context.isRetained, h.retained] using hs.retained
  performed := by rw [h.performed, h.memo, hs.performed]

theorem later (h : Quiet s t) : Later s t where
  memo := by simp [h.memo]
  symbolic := by simp [h.symbolic]
  bindings := h.bindings
  retained := h.retained
  writes := ⟨[], by simp [h.reportedWrites], by simp [writes, h.memo, h.graph],
    by simp [h.graph, Graph.Extends.refl]⟩
  observed := ⟨[], [], by simp [h.observed], by simp [watched, h.memo, h.graph], .nil⟩

theorem step (h : Quiet s t) : Step bound s t :=
  { h.later with below := fun _ hr => .inl (h.memo ▸ hr) }

/-- Reports on the way, together with any change of the generator. -/
theorem reports (s : State) (rng : Source Rng) (reports : List Report)
    (h : ∀ r ∈ reports, (Event.report r).write? = none) :
    Quiet s { s with
      rng
      events := s.events ++ (reports.map Event.report).toArray } where
  graph := rfl
  memo := rfl
  performed := rfl
  symbolic := rfl
  bindings := rfl
  retained := rfl
  reportedWrites := by
    simpa [State.reportedWrites, List.filterMap_map, List.filterMap_eq_nil_iff] using h
  observed := by
    simp [State.observed, List.filterMap_map, List.filterMap_eq_nil_iff, Event.observed?]

theorem report (s : State) {r : Report} (h : (Event.report r).write? = none) :
    Quiet s { s with events := s.events.push (.report r) } := by
  simpa using reports s s.rng [r] (by simpa using h)

theorem recordRead (s : State) (id : NodeId) :
    Quiet s { s with context := s.context.recordRead id } where
  graph := rfl
  memo := rfl
  performed := rfl
  symbolic := rfl
  bindings := by unfold Context.recordRead; split <;> rfl
  retained := by unfold Context.recordRead; split <;> rfl
  reportedWrites := rfl
  observed := rfl

end Quiet

-- The graph may grow while results are remembered: what they stand for stays the same.

namespace Coherent

variable {idle : NodeId → Prop} {s : State} {g : Graph}

theorem write?_eq (hs : Coherent idle s) (hg : s.graph.Evolves g) {id : NodeId} {node : Node}
    {o : Operation} (hnode : s.graph.node? id = some node) (hkind : node.kind = .operation o)
    (result : Output) : g.write? id result = s.graph.write? id result := by
  -- Of the target of an assignment only the name matters, and names do not change.
  have htarget : ∀ target ∈ o.references, (g.node? target).map (·.name) =
      (s.graph.node? target).map (·.name) := by
    intro target hmem
    have hlt := hs.graph.lt_of_operation hnode hkind target hmem
    have hsize := Graph.lt_size_of_node? hnode
    obtain ⟨m, hm⟩ := Graph.exists_node?_of_lt (Nat.lt_trans hlt hsize)
    exact hg.map_node? (by simp [hm]) Node.bare_name
  simp only [Graph.write?, hg.operation hnode hkind, hnode, Option.map_some, hkind]
  split
  · rename_i update target rest options v heq
    cases heq
    have hname := htarget target (by simp [Operation.references])
    have hmap := congrArg (Option.map fun name => (update, name, v)) hname
    simpa only [Option.map_map, Function.comp_def] using hmap
  · rfl

theorem watched?_eq (hs : Coherent idle s) (hg : s.graph.Evolves g) {id : NodeId}
    {result : Output} (h : (id, result) ∈ s.memo) : g.watched? id = s.graph.watched? id := by
  obtain ⟨node, o, hnode, hkind⟩ := hs.operations id result h
  simp [Graph.watched?, hg.operation hnode hkind, hnode]

theorem writes_eq (hs : Coherent idle s) (hg : s.graph.Evolves g) :
    (s.memo.reverse.filterMap fun (id, result) => g.write? id result) = s.writes := by
  refine List.filterMap_congr fun r hr => ?_
  obtain ⟨node, o, hnode, hkind⟩ := hs.operations r.1 r.2 (List.mem_reverse.mp hr)
  exact hs.write?_eq hg hnode hkind r.2

theorem watched_eq (hs : Coherent idle s) (hg : s.graph.Evolves g) :
    (s.memo.reverse.filterMap fun (id, _) => g.watched? id) = s.watched := by
  refine List.filterMap_congr fun r hr => ?_
  exact hs.watched?_eq hg (List.mem_reverse.mp hr)

/-- A change of the graph and the copies that lets the graph evolve. -/
theorem evolve (hs : Coherent idle s) (hwell : g.WellFormed) (hg : s.graph.Evolves g)
    {copies : List NodeId} (hcopies : s.symbolic ⊆ copies)
    (hsymbolic : ∀ id ∈ copies, id.index < g.size) :
    Coherent idle { s with graph := g, symbolic := copies } where
  graph := hwell
  once := hs.once
  operations id result h := by
    obtain ⟨node, o, hnode, hkind⟩ := hs.operations id result h
    exact ⟨node, o, hg.operation hnode hkind, hkind⟩
  left id result h n hn := by
    refine (hs.left id result h n hn).imp (fun hmem => hcopies hmem) fun ⟨hlt, hrest⟩ => ?_
    exact ⟨hlt, hrest.mono hg (List.Subset.refl _)⟩
  symbolic := hsymbolic
  retained := hs.retained
  performed := hs.performed

/-- Nodes that are added change nothing about the results. -/
theorem step_extend (hs : Coherent idle s) (hg : g.Extends s.graph) {copies : List NodeId}
    (hcopies : s.symbolic ⊆ copies) (bound : Nat) :
    Step bound s { s with graph := g, symbolic := copies } where
  memo := List.suffix_rfl
  symbolic := hcopies
  below := fun _ hr => .inl hr
  bindings := rfl
  retained := rfl
  writes := by
    refine ⟨[], by simp [reportedWrites], ?_, by simpa using hg⟩
    simpa [writes] using hs.writes_eq (.of_extends hg)
  observed := by
    refine ⟨[], [], by simp [State.observed], ?_, .nil⟩
    simpa [watched] using hs.watched_eq (.of_extends hg)

end Coherent

/-- The state after a copy was added to the graph. -/
def withCopy (s : State) (g : Graph) (copy : NodeId) : State :=
  { s with graph := g, symbolic := copy :: s.symbolic }

section Copies

variable {idle : NodeId → Prop} {s : State} {g : Graph} {id copy : NodeId} {o : Operation}

theorem step_withCopy (hs : Coherent idle s) (hadd : s.graph.addDeferred id o = .ok (g, copy))
    (bound : Nat) : Step bound s (s.withCopy g copy) :=
  hs.step_extend (Graph.addDeferred_copy hadd).1 (List.subset_cons_self ..) bound

theorem Coherent.withCopy (hs : Coherent idle s) {node : Node}
    (hnode : s.graph.node? id = some node) (hkind : node.kind = .operation o)
    (hadd : s.graph.addDeferred id o = .ok (g, copy)) : Coherent idle (s.withCopy g copy) := by
  obtain ⟨hextends, hsize, hcopy, -⟩ := Graph.addDeferred_copy hadd
  refine hs.evolve (hs.graph.addDeferred hnode hkind hadd) (.of_extends hextends)
    (List.subset_cons_self ..) fun n hn => ?_
  rcases List.mem_cons.mp hn with rfl | hn
  · omega
  · have := hs.symbolic n hn
    omega

end Copies

-- A result is remembered after the write that it stands for.

/-- The state after a write, if there was one. -/
def wrote (s : State) : Option Write → State
  | none => s
  | some w =>
    { s with
      graph := s.graph.replay [w]
      events := s.events.push (.report (.wrote w.1 w.2.1 w.2.2)) }

@[simp] theorem wrote_graph (s : State) (w : Option Write) :
    (s.wrote w).graph = s.graph.replay w.toList := by
  cases w <;> simp [wrote]

@[simp] theorem wrote_memo (s : State) (w : Option Write) : (s.wrote w).memo = s.memo := by
  cases w <;> rfl

@[simp] theorem wrote_symbolic (s : State) (w : Option Write) :
    (s.wrote w).symbolic = s.symbolic := by
  cases w <;> rfl

@[simp] theorem wrote_context (s : State) (w : Option Write) :
    (s.wrote w).context = s.context := by
  cases w <;> rfl

@[simp] theorem wrote_observed (s : State) (w : Option Write) :
    (s.wrote w).observed = s.observed := by
  cases w <;> simp [wrote, State.observed, Event.observed?]

@[simp] theorem wrote_reportedWrites (s : State) (w : Option Write) :
    (s.wrote w).reportedWrites = s.reportedWrites ++ w.toList := by
  cases w <;> simp [wrote, reportedWrites, Event.write?]

@[simp] theorem wrote_performed (s : State) (w : Option Write) :
    (s.wrote w).performed = s.performed := by
  cases w <;> rfl

/-- The state after the operation `id` was performed with a result that is remembered. -/
def recorded (s : State) (id : NodeId) (result : Output) : State :=
  { s with memo := (id, result) :: s.memo, performed := (id, result) :: s.performed }

/-- The state after the result of `id` was recorded, with the write that it stands for. -/
def remembered (s : State) (id : NodeId) (result : Output) : State :=
  { s.wrote (s.graph.write? id result) with
    memo := (id, result) :: s.memo
    performed := (id, result) :: s.performed }

section Remembered

variable {idle : NodeId → Prop} {s t : State} {id : NodeId} {node : Node} {o : Operation}
variable {result : Output}

@[simp] theorem recorded_memo : (s.recorded id result).memo = (id, result) :: s.memo := rfl

theorem lookup_recorded (s : State) (id : NodeId) (result : Output) (i : NodeId) :
    (s.recorded id result).memo.lookup i = if i = id then some result else s.memo.lookup i := by
  by_cases hi : i = id
  · simp [hi]
  · simp [List.lookup_cons, hi, beq_eq_false_iff_ne.mpr hi]

/-- The write and the result make up one change of the state. -/
theorem remember_wrote {u : State} (hu : u = s.wrote (s.graph.write? id result)) :
    u.recorded id result = s.remembered id result := by
  subst hu
  simp [recorded, remembered]

theorem remembered_graph : (s.remembered id result).graph =
    s.graph.replay (s.graph.write? id result).toList :=
  wrote_graph s _

@[simp] theorem remembered_memo : (s.remembered id result).memo = (id, result) :: s.memo := rfl

@[simp] theorem remembered_symbolic : (s.remembered id result).symbolic = s.symbolic :=
  wrote_symbolic s _

@[simp] theorem remembered_context : (s.remembered id result).context = s.context :=
  wrote_context s _

@[simp] theorem remembered_observed : (s.remembered id result).observed = s.observed :=
  wrote_observed s _

@[simp] theorem remembered_reportedWrites : (s.remembered id result).reportedWrites =
    s.reportedWrites ++ (s.graph.write? id result).toList :=
  wrote_reportedWrites s _

theorem remembered_evolves : s.graph.Evolves (s.remembered id result).graph := by
  rw [remembered_graph]
  exact .replay s.graph _

theorem remembered_left {bound : Nat} {n : NodeId} (h : s.Left idle bound n) :
    (s.remembered id result).Left idle bound n := by
  refine h.imp (fun h => by simpa using h) fun ⟨hlt, hrest⟩ => ⟨hlt, ?_⟩
  exact hrest.mono remembered_evolves (by simp)

theorem Coherent.with_events (hs : Coherent idle s) (events : Array Event) :
    Coherent idle { s with events } :=
  ⟨hs.graph, hs.once, hs.operations, hs.left, hs.symbolic, hs.retained, hs.performed⟩

theorem Coherent.wrote (hs : Coherent idle s) (w : Option Write) : Coherent idle (s.wrote w) := by
  cases w with
  | none => exact hs
  | some w =>
    have hsymbolic : ∀ id ∈ s.symbolic, id.index < (s.graph.replay [w]).size := by
      simpa using hs.symbolic
    have hevolved := hs.evolve (hs.graph.replay [w]) (.replay ..) (List.Subset.refl _) hsymbolic
    exact hevolved.with_events _

theorem Coherent.remembered (hs : Coherent idle s) (hnode : s.graph.node? id = some node)
    (hkind : node.kind = .operation o) (hnew : id ∉ s.memo.map Prod.fst)
    (hleft : ∀ n ∈ result.nodes, s.Left idle id.index n) :
    Coherent idle (s.remembered id result) where
  graph := by
    rw [remembered_graph]
    exact hs.graph.replay _
  once := List.nodup_cons.mpr ⟨hnew, hs.once⟩
  operations i r h := by
    rcases List.mem_cons.mp h with heq | h
    · cases heq
      exact ⟨node, o, remembered_evolves.operation hnode hkind, hkind⟩
    · obtain ⟨m, p, hm, hp⟩ := hs.operations i r h
      exact ⟨m, p, remembered_evolves.operation hm hp, hp⟩
  left i r h n hn := by
    rcases List.mem_cons.mp h with heq | h
    · cases heq
      exact remembered_left (hleft n hn)
    · exact remembered_left (hs.left i r h n hn)
  symbolic := by simpa [remembered_graph] using hs.symbolic
  retained := by simpa using hs.retained
  performed := congrArg ((id, result) :: ·) hs.performed

theorem Coherent.remembered_writes (hs : Coherent idle s) (hnode : s.graph.node? id = some node)
    (hkind : node.kind = .operation o) : (s.remembered id result).writes =
      s.writes ++ (s.graph.write? id result).toList := by
  have hevolves : s.graph.Evolves (s.remembered id result).graph := remembered_evolves
  have hnew := hs.write?_eq hevolves hnode hkind result
  have hold := hs.writes_eq hevolves
  simp only [writes, remembered_memo, List.reverse_cons, List.filterMap_append] at hold ⊢
  rw [hold]
  cases hwrite : s.graph.write? id result <;> simp [hnew, hwrite]

theorem Coherent.remembered_watched (hs : Coherent idle s) (hnode : s.graph.node? id = some node)
    (hkind : node.kind = .operation o) : (s.remembered id result).watched =
      s.watched ++ (s.graph.watched? id).toList := by
  have hevolves : s.graph.Evolves (s.remembered id result).graph := remembered_evolves
  have hnew : (s.remembered id result).graph.watched? id = s.graph.watched? id := by
    simp [Graph.watched?, hevolves.operation hnode hkind, hnode]
  have hold := hs.watched_eq hevolves
  simp only [watched, remembered_memo, List.reverse_cons, List.filterMap_append] at hold ⊢
  rw [hold]
  cases hwatched : s.graph.watched? id <;> simp [hnew, hwatched]

/-- A result without a breakpoint is a step. -/
theorem Coherent.step_remembered (hs : Coherent idle s) (hnode : s.graph.node? id = some node)
    (hkind : node.kind = .operation o) (hwatched : s.graph.watched? id = none) :
    Step (id.index + 1) s (s.remembered id result) where
  memo := List.suffix_cons _ _
  symbolic := by simp
  below r hr := by
    rcases List.mem_cons.mp hr with rfl | hr
    · exact .inr (Nat.lt_succ_self _)
    · exact .inl hr
  bindings := by simp
  retained := by simp
  writes := ⟨_, remembered_reportedWrites, hs.remembered_writes hnode hkind, by
    rw [remembered_graph]
    exact .refl _⟩
  observed := ⟨[], [], by simp, by simp [hs.remembered_watched hnode hkind, hwatched], .nil⟩

/-- A result with a breakpoint is a step together with what the breakpoint evaluates and reports. -/
theorem Coherent.step_observed (hs : Coherent idle s) (hnode : s.graph.node? id = some node)
    (hkind : node.kind = .operation o) {name : String} (hwatched : s.graph.watched? id = some name)
    (hstep : Step id.index (s.remembered id result) t) (a b : Option Output) (shown : Output) :
    Step (id.index + 1) s { t with events := t.events.push (.observed name a b shown) } := by
  obtain ⟨ws, hreported, hwrites, hgraph⟩ := hstep.writes
  obtain ⟨ns, ms, hns, hms, hperm⟩ := hstep.observed
  -- What was written and observed since `s` begins with what belongs to the result itself.
  rw [remembered_reportedWrites, List.append_assoc] at hreported
  rw [hs.remembered_writes hnode hkind, List.append_assoc] at hwrites
  rw [remembered_graph, ← Graph.replay_append] at hgraph
  rw [remembered_observed] at hns
  rw [hs.remembered_watched hnode hkind, hwatched] at hms
  refine
    { memo := (List.suffix_cons _ _).trans hstep.memo
      symbolic := by simpa using hstep.symbolic
      bindings := by simpa using hstep.bindings
      retained := by simpa using hstep.retained
      writes := ⟨(s.graph.write? id result).toList ++ ws, ?_, hwrites, hgraph⟩
      observed := ⟨ns ++ [name], name :: ms, ?_, by simpa [watched] using hms, ?_⟩
      below := ?_ }
  · simpa [reportedWrites, List.filterMap_cons, Event.write?] using hreported
  · simp only [State.observed, Array.toList_push, List.filterMap_append] at hns ⊢
    simp [hns, Event.observed?]
  · -- The node is the first of those with results, and the last to be reported.
    exact (List.perm_append_singleton name ns).trans (hperm.cons name)
  · intro r hr
    rcases hstep.below r hr with hmem | hlt
    · rcases List.mem_cons.mp hmem with rfl | hmem
      · exact .inr (Nat.lt_succ_self _)
      · exact .inl hmem
    · exact .inr (Nat.lt_succ_of_lt hlt)

end Remembered

end State

end Dataflow
