import Dataflow.Proofs.LastStep

/-!
# Going on

What relates a state of an evaluation to every later state of the same call. The graph evolves, and
a variable with a value keeps having one. Results and copies are added. Of the context only the
reads change, to which variables are added that were not read before.
-/

namespace Dataflow

namespace Graph

def IsVariable (g : Graph) (id : NodeId) : Prop :=
  ∃ node stored, g.node? id = some node ∧ node.kind = .variable stored

/-- The node is a variable that has a value. -/
def Initialized (g : Graph) (id : NodeId) : Prop :=
  ∃ node v, g.node? id = some node ∧ node.kind = .variable (some v)

variable {g g' : Graph} {id : NodeId}

theorem IsVariable.evolves (h : g.IsVariable id) (hg : g.Evolves g') : g'.IsVariable id := by
  obtain ⟨node, stored, hnode, hkind⟩ := h
  obtain ⟨node', hnode', hbare⟩ := hg.node? hnode
  obtain ⟨stored', hkind'⟩ := Node.exists_variable_of_bare hbare hkind
  exact ⟨node', stored', hnode', hkind'⟩

theorem Initialized.extends (h : g.Initialized id) (hg : g'.Extends g) : g'.Initialized id := by
  obtain ⟨node, v, hnode, hkind⟩ := h
  exact ⟨node, v, hg.node? hnode, hkind⟩

/-- Values are overwritten, but not taken away. -/
theorem Initialized.store (h : g.Initialized id) {target : NodeId} {v w : Value}
    (hstore : g.store target v = .ok (g', w)) : g'.Initialized id := by
  obtain ⟨node, old, hnode, hkind⟩ := h
  obtain ⟨-, -, -, -, -, hupdate⟩ := store_eq_ok hstore
  by_cases hid : id = target
  · exact ⟨{ node with kind := .variable (some w) }, w,
      by rw [node?_update hupdate, if_pos hid, hnode]; rfl, rfl⟩
  · exact ⟨node, old, by rw [node?_update hupdate, if_neg hid, hnode], hkind⟩

end Graph

namespace State

variable {s t u : State}

/-- The states have the same graph, the same results and, up to the reads, the same context. -/
structure Alike (s t : State) : Prop where
  graph : t.graph = s.graph
  memo : t.memo = s.memo
  performed : t.performed = s.performed
  symbolic : t.symbolic = s.symbolic
  bindings : t.context.bindings = s.context.bindings
  retained : t.context.retained = s.context.retained

/-- What relates a state to every later one of the same call. -/
structure Advances (s t : State) : Prop where
  graph : s.graph.Evolves t.graph
  initialized : ∀ id, s.graph.Initialized id → t.graph.Initialized id
  memo : s.memo ⊆ t.memo
  symbolic : s.symbolic ⊆ t.symbolic
  bindings : t.context.bindings = s.context.bindings
  retained : t.context.retained = s.context.retained
  /-- Each variable is noted when it is first read. -/
  reads : ∃ new, t.context.reads = s.context.reads ++ new ∧ new.Nodup ∧
    ∀ id ∈ new, id ∉ s.context.reads ∧ t.graph.IsVariable id

namespace Alike

theorem refl (s : State) : Alike s s := ⟨rfl, rfl, rfl, rfl, rfl, rfl⟩

theorem trans (h : Alike s t) (h' : Alike t u) : Alike s u where
  graph := h'.graph.trans h.graph
  memo := h'.memo.trans h.memo
  performed := h'.performed.trans h.performed
  symbolic := h'.symbolic.trans h.symbolic
  bindings := h'.bindings.trans h.bindings
  retained := h'.retained.trans h.retained

theorem with_events (s : State) (events : Array Event) : Alike s { s with events } :=
  ⟨rfl, rfl, rfl, rfl, rfl, rfl⟩

theorem recordRead (s : State) (id : NodeId) :
    Alike s { s with context := s.context.recordRead id } where
  graph := rfl
  memo := rfl
  performed := rfl
  symbolic := rfl
  bindings := by unfold Context.recordRead; split <;> rfl
  retained := by unfold Context.recordRead; split <;> rfl

theorem coherent {idle : NodeId → Prop} (h : Alike s t) (hs : Coherent idle s) :
    Coherent idle t where
  graph := h.graph ▸ hs.graph
  once := h.memo ▸ hs.once
  operations := by simpa [h.memo, h.graph] using hs.operations
  left := by simpa [Left, h.memo, h.graph, h.symbolic] using hs.left
  symbolic := by simpa [h.symbolic, h.graph] using hs.symbolic
  retained := by simpa [Context.isRetained, h.retained] using hs.retained
  performed := by rw [h.performed, h.memo, hs.performed]

theorem isRetained (h : Alike s t) (id : NodeId) :
    t.context.isRetained id = s.context.isRetained id := by
  simp [Context.isRetained, h.retained]

theorem advances (h : Alike s t) (hreads : t.context.reads = s.context.reads) :
    Advances s t where
  graph := h.graph ▸ .refl _
  initialized := by simp [h.graph]
  memo := by simp [h.memo]
  symbolic := by simp [h.symbolic]
  bindings := h.bindings
  retained := h.retained
  reads := ⟨[], by simp [hreads]⟩

end Alike

namespace Advances

theorem refl (s : State) : Advances s s := (Alike.refl s).advances rfl

theorem trans (h : Advances s t) (h' : Advances t u) : Advances s u where
  graph := h.graph.trans h'.graph
  initialized id hid := h'.initialized id (h.initialized id hid)
  memo := List.Subset.trans h.memo h'.memo
  symbolic := List.Subset.trans h.symbolic h'.symbolic
  bindings := h'.bindings.trans h.bindings
  retained := h'.retained.trans h.retained
  reads := by
    obtain ⟨new, hnew, honce, hvariables⟩ := h.reads
    obtain ⟨new', hnew', honce', hvariables'⟩ := h'.reads
    refine ⟨new ++ new', by rw [hnew', hnew, List.append_assoc], ?_, fun id hid => ?_⟩
    · -- What was read before is not noted again.
      refine List.nodup_append.mpr ⟨honce, honce', ?_⟩
      rintro id hid _ hid' rfl
      exact (hvariables' id hid').1 (hnew ▸ List.mem_append_right _ hid)
    · rcases List.mem_append.mp hid with hid | hid
      · exact ⟨(hvariables id hid).1, (hvariables id hid).2.evolves h'.graph⟩
      · refine ⟨fun hold => (hvariables' id hid).1 ?_, (hvariables' id hid).2⟩
        exact hnew ▸ List.mem_append_left _ hold

theorem with_events (s : State) (events : Array Event) : Advances s { s with events } :=
  (Alike.with_events s events).advances rfl

theorem remember (s : State) (id : NodeId) (out : Output) :
    Advances s (s.recorded id out) where
  graph := .refl _
  initialized _ hid := hid
  memo := List.subset_cons_self ..
  symbolic := List.Subset.refl _
  bindings := rfl
  retained := rfl
  reads := ⟨[], by simp [recorded]⟩

theorem recordRead {id : NodeId} (hid : s.graph.IsVariable id) :
    Advances s { s with context := s.context.recordRead id } where
  graph := .refl _
  initialized _ hid := hid
  memo := List.Subset.refl _
  symbolic := List.Subset.refl _
  bindings := (Alike.recordRead s id).bindings
  retained := (Alike.recordRead s id).retained
  reads := by
    by_cases hread : id ∈ s.context.reads
    · exact ⟨[], by simp [Context.recordRead, hread]⟩
    · exact ⟨[id], by simp [Context.recordRead, hread], by simp, by simpa using ⟨hread, hid⟩⟩

theorem isRetained (h : Advances s t) (id : NodeId) :
    t.context.isRetained id = s.context.isRetained id := by
  simp [Context.isRetained, h.retained]

theorem exists_node? (h : Advances s t) {id : NodeId} (hid : ∃ node, s.graph.node? id = some node) :
    ∃ node, t.graph.node? id = some node := by
  obtain ⟨node, hnode⟩ := hid
  obtain ⟨node', hnode', -⟩ := h.graph.node? hnode
  exact ⟨node', hnode'⟩

end Advances

/-! ## Last steps -/

/-- What the last step of performing the operation `o` of the node `id` comes to: a value is stored,
a copy is added, or nothing changes that counts. -/
inductive Changes (id : NodeId) (o : Operation) (s : State) :
    Except Failure Output → State → Prop
  | none {r : Except Failure Output} {t : State} (h : Alike s t)
      (hreads : t.context.reads = s.context.reads) : Changes id o s r t
  | stored {update : Update} {target : NodeId} {v w : Value} {g : Graph}
      (hop : o.op = .control (.assign update)) (htarget : o.operands[0]? = some target)
      (hstore : s.graph.store target v = .ok (g, w)) (events : Array Event) :
      Changes id o s (.ok (.value w)) { s with graph := g, events }
  | copied {g : Graph} {copy : NodeId} (hsymbolic : s.isSymbolic id = false)
      (hadd : s.graph.addDeferred id o = .ok (g, copy)) (events : Array Event) :
      Changes id o s (.ok (.node copy)) { s.withCopy g copy with events }

namespace Changes

variable {id : NodeId} {o : Operation} {r : Except Failure Output}

theorem memo (h : Changes id o s r t) : t.memo = s.memo := by
  cases h with
  | none h => exact h.memo
  | stored => rfl
  | copied => rfl

theorem alike_of_error {e : Failure} (h : Changes id o s (.error e) t) : Alike s t := by
  cases h with
  | none h => exact h

theorem advances (hs : s.graph.WellFormed) (h : Changes id o s r t) : Advances s t := by
  cases h with
  | none h hreads => exact h.advances hreads
  | @stored _ target v w g _ _ hstore events =>
    obtain ⟨node, -, hg⟩ := hs.store_eq hstore .set
    have hevolves : s.graph.Evolves g := by
      rw [show g = s.graph.replay [(.set, node.name, w)] from hg]
      exact .replay ..
    exact
      { graph := hevolves
        initialized := fun _ hid => hid.store hstore
        memo := List.Subset.refl _
        symbolic := List.Subset.refl _
        bindings := rfl
        retained := rfl
        reads := ⟨[], by simp⟩ }
  | copied hsymbolic hadd events =>
    have hextends := (Graph.addDeferred_copy hadd).1
    exact
      { graph := .of_extends hextends
        initialized := fun _ hid => hid.extends hextends
        memo := List.Subset.refl _
        symbolic := List.subset_cons_self ..
        bindings := rfl
        retained := rfl
        reads := ⟨[], by simp [withCopy]⟩ }

end Changes

end State

open State

theorem LastStep.changes {R : Regime} {P : NodeId → Except Failure Output → State → Prop}
    {c : Settings} {s : State} {id : NodeId} {node : Node} {o : Operation} {y : Eval Output}
    (h : LastStep R P id o s y) (hs : s.graph.WellFormed) (hnode : s.graph.node? id = some node) :
    Changes id o s (y c s).1 (y c s).2 := by
  cases h with
  | failed => exact .none (.refl s) rfl
  | refused => exact .none (.refl s) rfl
  | computed =>
    rw [Eval.compute_run]
    exact .none ⟨rfl, rfl, rfl, rfl, rfl, rfl⟩ rfl
  | @written update target v hop htarget =>
    cases hstore : s.graph.store target v with
    | error e =>
      rw [Eval.write_run_error hstore]
      exact .none (.refl s) rfl
    | ok stored =>
      obtain ⟨g, w⟩ := stored
      obtain ⟨n, hn, hg⟩ := hs.store_eq hstore update
      rw [Eval.write_run update hs hstore hn]
      -- The graph after the write is the one that the store gave.
      have hwrote : s.wrote (some (update, n.name, w)) = { s with
          graph := g
          events := s.events.push (.report (.wrote update n.name w)) } := by
        rw [show g = s.graph.replay [(update, n.name, w)] from hg]
        rfl
      rw [hwrote]
      exact .stored hop htarget hstore _
  | deferred =>
    cases hsymbolic : s.isSymbolic id with
    | true =>
      rw [Eval.defer_run_symbolic hsymbolic]
      exact .none (.refl s) rfl
    | false =>
      obtain ⟨g, copy, hadd⟩ := Graph.exists_addDeferred hnode o
      obtain ⟨r, -, hrun⟩ := Eval.defer_run (c := c) hsymbolic hadd
      rw [hrun]
      exact .copied hsymbolic hadd _
  | passed => exact .none (.refl s) rfl
  | grouped => exact .none (.refl s) rfl
  | printed => exact .none (.with_events s _) rfl

end Dataflow
