import Dataflow.Proofs.Steadiness

/-!
# The same evaluation without breakpoints

A graph with breakpoints and the same graph without them are evaluated side by side. The two states
stay the same, up to breakpoints, reports, reads and results of steady nodes, as long as no
breakpoint evaluates anything else on its own account.
-/

namespace Dataflow

/-! ## Graphs without breakpoints -/

def Node.unwatched (n : Node) : Node := { n with watched := false }

namespace Graph

/-- The graph without breakpoints. -/
def unwatched (g : Graph) : Graph := { g with nodes := g.nodes.map Node.unwatched }

variable {g g' : Graph} {id : NodeId} {node : Node} {o : Operation}

theorem node?_unwatched (g : Graph) (id : NodeId) :
    g.unwatched.node? id = (g.node? id).map Node.unwatched := by
  simp [unwatched, node?]

@[simp] theorem size_unwatched (g : Graph) : g.unwatched.size = g.size := by
  simp [unwatched, size]

/-- The value that a node holds. -/
def stored? (g : Graph) (id : NodeId) : Option Value := (g.node? id).bind (·.kind.stored?)

@[simp] theorem stored?_unwatched (g : Graph) (id : NodeId) :
    g.unwatched.stored? id = g.stored? id := by
  rw [stored?, node?_unwatched]
  cases h : g.node? id <;> simp [stored?, h, Node.unwatched]

theorem watched?_unwatched (g : Graph) (id : NodeId) : g.unwatched.watched? id = none := by
  rw [watched?, node?_unwatched]
  cases g.node? id <;> rfl

@[simp] theorem freeName_unwatched (g : Graph) (name : String) :
    g.unwatched.freeName name = g.freeName name := rfl

/-- A new node has no breakpoint. -/
theorem insert_unwatched (g : Graph) (name : String) (dtype : DType) (shape : Option Shape)
    (isConst : Bool) (kind : NodeKind) : g.unwatched.insert name dtype shape isConst kind =
      ((g.insert name dtype shape isConst kind).1.unwatched, ⟨g.size⟩) := by
  simp only [insert, freeName_unwatched, size_unwatched]
  simp [unwatched, Node.unwatched]

theorem addDeferred_unwatched {copy : NodeId} (h : g.addDeferred id o = .ok (g', copy)) :
    g.unwatched.addDeferred id o = .ok (g'.unwatched, copy) := by
  obtain ⟨node, hnode, hinsert⟩ := addDeferred_eq_ok.mp h
  cases hinsert
  refine addDeferred_eq_ok.mpr ⟨node.unwatched, by rw [node?_unwatched, hnode]; rfl, ?_⟩
  exact (insert_unwatched ..).symm

theorem render_unwatched (g : Graph) (depth : Nat) (id : NodeId) :
    g.unwatched.render depth id = g.render depth id := by
  induction depth generalizing id with
  | zero =>
    unfold render
    rw [node?_unwatched]
    cases g.node? id with
    | none => rfl
    | some node => cases hkind : node.kind <;> simp only [Option.map_some, Node.unwatched, hkind]
  | succ depth ih =>
    have hrender : g.unwatched.render depth = g.render depth := funext ih
    unfold render
    rw [node?_unwatched]
    cases g.node? id with
    | none => rfl
    | some node =>
      cases hkind : node.kind <;> simp only [Option.map_some, Node.unwatched, hkind, hrender]

theorem wrap_unwatched (g : Graph) (id : NodeId) (e : Failure) :
    g.unwatched.wrap id e = g.wrap id e := by
  unfold wrap
  rw [node?_unwatched, expression, render_unwatched]
  cases g.node? id <;> rfl

theorem store_unwatched (g : Graph) (id : NodeId) (v : Value) :
    g.unwatched.store id v = (fun r => (r.1.unwatched, r.2)) <$> g.store id v := by
  rw [store, store, outcome, outcome, on_store, on_store, node?_unwatched]
  cases g.node? id with
  | none => rfl
  | some node =>
    obtain ⟨_, name, dtype, _, _, _, _, kind⟩ := node
    dsimp only [Option.map, Node.unwatched]
    cases kind with
    | «variable» stored =>
      cases v.cast dtype with
      | error f => rfl
      | ok w => simp [unwatched, Node.unwatched, Array.map_setIfInBounds, Functor.map, Except.map]
    | _ => rfl

theorem WellFormed.unwatched (hg : g.WellFormed) : g.unwatched.WellFormed :=
  hg.of_outline rfl fun id => by rw [node?_unwatched, Option.map_map]; rfl

theorem denoteBelow_unwatched (g : Graph) (bindings : List (String × Value)) (backend : Backend)
    (bound : Nat) (id : NodeId) : g.unwatched.denoteBelow bindings backend bound id =
      g.denoteBelow bindings backend bound id := by
  induction bound generalizing id with
  | zero => rfl
  | succ bound ih =>
    have hbelow : g.unwatched.denoteBelow bindings backend bound =
        g.denoteBelow bindings backend bound := funext ih
    have hwrap : g.unwatched.wrap id = g.wrap id := funext fun e => wrap_unwatched g id e
    simp only [denoteBelow, denoteNode, node?_unwatched, hbelow, hwrap]
    cases g.node? id <;> rfl

end Graph

namespace Scene

variable {scene : Scene} {backend : Backend} {s t : State} {id : NodeId}

/-- The scene of the same run without breakpoints. -/
def unwatched (scene : Scene) : Scene := { scene with graph := scene.graph.unwatched }

theorem Steady.unwatched (h : scene.Steady id) : scene.unwatched.Steady id := by
  -- A breakpoint is no part of what makes a node steady.
  have hnode' : ∀ {id node}, scene.graph.node? id = some node →
      scene.unwatched.graph.node? id = some node.unwatched := by
    intro id node hnode
    rw [Scene.unwatched, Graph.node?_unwatched, hnode]
    rfl
  induction h with
  | leaf hidle hnode hleaf hwritten => exact .leaf hidle (hnode' hnode) hleaf hwritten
  | reference hidle hnode hkind _ ih => exact .reference hidle (hnode' hnode) hkind ih
  | operation hidle hnode hkind hop _ ih => exact .operation hidle (hnode' hnode) hkind hop ih

theorem Steady.of_unwatched (h : scene.unwatched.Steady id) : scene.Steady id := by
  have horigin : ∀ {id node}, scene.unwatched.graph.node? id = some node →
      ∃ n, scene.graph.node? id = some n ∧ n.unwatched = node := by
    intro id node hnode
    rw [Scene.unwatched, Graph.node?_unwatched] at hnode
    exact Option.map_eq_some_iff.mp hnode
  induction h with
  | leaf hidle hnode hleaf hwritten =>
    obtain ⟨n, hn, rfl⟩ := horigin hnode
    exact .leaf hidle hn hleaf hwritten
  | reference hidle hnode hkind _ ih =>
    obtain ⟨n, hn, rfl⟩ := horigin hnode
    exact .reference hidle hn hkind ih
  | operation hidle hnode hkind hop _ ih =>
    obtain ⟨n, hn, rfl⟩ := horigin hnode
    exact .operation hidle hn hkind hop ih

theorem denote_unwatched (scene : Scene) (backend : Backend) (id : NodeId) :
    scene.unwatched.denote backend id = scene.denote backend id :=
  Graph.denoteBelow_unwatched ..

end Scene

/-! ## Calm runs -/

/-- The operand that a breakpoint of the node `id` evaluates besides what the operation needed: if a
kernel is left for later, that may have been decided by its first operand alone. -/
def Graph.glimpsed? (g : Graph) (id : NodeId) (result : Output) : Option NodeId :=
  (g.node? id).bind fun n =>
    match n.kind, result with
    | _, .value _ => none
    | .operation o, _ => if n.watched && !o.op.isControl then o.operands[1]? else none
    | _, _ => none

theorem Graph.mem_references_of_glimpsed? {g : Graph} {id input : NodeId} {result : Output}
    (h : g.glimpsed? id result = some input) : ∃ node o, g.node? id = some node ∧
      node.kind = .operation o ∧ input ∈ o.references := by
  obtain ⟨node, hnode, h⟩ := Option.bind_eq_some_iff.mp h
  split at h
  · cases h
  · rename_i o hkind _ _
    split at h
    · exact ⟨node, o, hnode, hkind, Operation.mem_references_of_operand h⟩
    · cases h
  · cases h

theorem Graph.glimpsed?_eq {g : Graph} {id : NodeId} {node : Node} {o : Operation} {result : Output}
    (hnode : g.node? id = some node) (hkind : node.kind = .operation o)
    (hwatched : node.watched = true) (hcontrol : o.op.isControl = false)
    (hresult : ∀ v, result ≠ .value v) : g.glimpsed? id result = o.operands[1]? := by
  unfold glimpsed?
  rw [hnode]
  cases result with
  | value v => exact absurd rfl (hresult v)
  | _ => simp [hkind, hwatched, hcontrol]

/-- A node at rest was at rest in every earlier form of the graph that has the node. -/
theorem AtRest.of_evolves {idle : NodeId → Prop} {g g' : Graph} {memo : List (NodeId × Output)}
    (hg : g.WellFormed) (h : g.Evolves g') {id : NodeId} (hid : id.index < g.size)
    (hrest : AtRest idle g' memo id) : AtRest idle g memo id := by
  induction hrest with
  | idle h => exact .idle h
  | leaf hnode' hleaf =>
    obtain ⟨node, hnode, hbare⟩ := h.exists_before hid hnode'
    exact .leaf hnode (by rw [← Node.bare_isLeaf, ← hbare, Node.bare_isLeaf, hleaf])
  | @reference id target node' hnode' hkind _ ih =>
    -- References store nothing, so this is the same node, and its target is there as well.
    have hnode := h.before_of_not_leaf hid hnode' (by simp [hkind, NodeKind.isLeaf])
    have hlt := hg.lt_of_reference hnode hkind
    exact .reference hnode hkind (ih (Nat.lt_trans hlt hid))
  | operation h => exact .operation h

/-- Whenever a breakpoint looked at an operand besides what the operation needed, the operand was at
rest already or is steady. -/
def Scene.Calm (scene : Scene) (g : Graph) : List (NodeId × Output) → Prop
  | [] => True
  | (id, result) :: older =>
    (∀ input, g.glimpsed? id result = some input →
      AtRest scene.idle g older input ∨ scene.Steady input) ∧ Calm scene g older

theorem Scene.Calm.of_suffix {scene : Scene} {g : Graph} {memo memo' : List (NodeId × Output)}
    (h : memo <:+ memo') (hcalm : scene.Calm g memo') : scene.Calm g memo := by
  obtain ⟨newer, rfl⟩ := h
  induction newer with
  | nil => exact hcalm
  | cons r newer ih => exact ih hcalm.2

theorem Scene.Calm.of_evolves {scene : Scene} {g g' : Graph} {memo : List (NodeId × Output)}
    (hg : g.WellFormed) (h : g.Evolves g') (hcalm : scene.Calm g' memo) : scene.Calm g memo := by
  induction memo with
  | nil => trivial
  | cons r older ih =>
    refine ⟨fun input hinput => ?_, ih hcalm.2⟩
    obtain ⟨node, o, hnode, hkind, hmem⟩ := Graph.mem_references_of_glimpsed? hinput
    -- The operation is in the earlier graph, and so are its operands.
    have hlt := hg.references r.1 node hnode input (by rw [hkind]; exact hmem)
    have hglimpsed : g'.glimpsed? r.1 r.2 = g.glimpsed? r.1 r.2 := by
      simp [Graph.glimpsed?, h.operation hnode hkind, hnode]
    exact (hcalm.1 input (hglimpsed ▸ hinput)).imp_left fun hrest =>
      hrest.of_evolves hg h (Nat.lt_trans hlt (Graph.lt_size_of_node? hnode))

/-- A calm run up to a state, in which only the variables of the scene are written. -/
structure Scene.Undisturbed (scene : Scene) (s : State) : Prop where
  calm : scene.Calm s.graph s.memo
  writes : ∀ w ∈ s.writes, scene.written w.2.1

theorem Scene.Undisturbed.before {scene : Scene} {idle : NodeId → Prop} {s t : State}
    (h : scene.Undisturbed t) (hs : State.Coherent idle s) (hmemo : s.memo <:+ t.memo)
    (hgraph : s.graph.Evolves t.graph) : scene.Undisturbed s where
  calm := (h.calm.of_suffix hmemo).of_evolves hs.graph hgraph
  writes w hw := by
    -- The results so far stand for the same writes in the later graph.
    rw [← hs.writes_eq hgraph] at hw
    obtain ⟨r, hr, hw⟩ := List.mem_filterMap.mp hw
    have hr := hmemo.subset (List.mem_reverse.mp hr)
    exact h.writes w (List.mem_filterMap.mpr ⟨r, List.mem_reverse.mpr hr, hw⟩)

/-- The run up to a write is undisturbed if the result is remembered later in an undisturbed run. -/
theorem Scene.Undisturbed.wrote {scene : Scene} {idle : NodeId → Prop} {s t : State}
    (h : scene.Undisturbed t) (hs : State.Coherent idle s) (hst : State.Later s t)
    (w : Option Write) : scene.Undisturbed (s.wrote w) := by
  refine h.before (hs.wrote w) ?_ ?_
  · rw [State.wrote_memo]
    exact hst.memo
  · rw [State.wrote_graph]
    exact hst.graph.of_replay

/-! ## Mirrors -/

namespace Scene

variable {scene : Scene} {backend : Backend} {memo memo' : List (NodeId × Output)}

/-- The two memos have the same results, except that one may know of steady nodes what the other
does not. -/
structure Agree (scene : Scene) (backend : Backend) (memo memo' : List (NodeId × Output)) :
    Prop where
  results : ∀ id, ¬ scene.Steady id → memo'.lookup id = memo.lookup id
  left : scene.Knows backend memo
  right : scene.Knows backend memo'

theorem Knows.remember (h : scene.Knows backend memo) {id : NodeId} (hid : ¬ scene.Steady id)
    (result : Output) : scene.Knows backend ((id, result) :: memo) := by
  intro i out hi hout
  have hne : i ≠ id := fun heq => hid (heq ▸ hi)
  rw [List.lookup_cons, beq_eq_false_iff_ne.mpr hne] at hout
  exact h i out hi hout

theorem Agree.remember (h : scene.Agree backend memo memo') {id : NodeId}
    (hid : ¬ scene.Steady id) (result : Output) :
    scene.Agree backend ((id, result) :: memo) ((id, result) :: memo') where
  results i hi := by
    simp only [List.lookup_cons]
    split
    · rfl
    · exact h.results i hi
  left := h.left.remember hid result
  right := h.right.remember hid result

end Scene

namespace State

variable {scene : Scene} {backend : Backend} {s s' t t' : State}

/-- The state `s'` is the state `s` without breakpoints. Reports and reads may differ, and what is
known of steady nodes. -/
structure Mirrors (scene : Scene) (backend : Backend) (s s' : State) : Prop where
  graph : s'.graph = s.graph.unwatched
  memo : scene.Agree backend s.memo s'.memo
  symbolic : s'.symbolic = s.symbolic
  rng : s'.rng = s.rng
  bindings : s'.context.bindings = s.context.bindings
  retained : s'.context.retained = s.context.retained

theorem Mirrors.isRetained (h : Mirrors scene backend s s') (id : NodeId) :
    s'.context.isRetained id = s.context.isRetained id := by
  simp [Context.isRetained, h.retained]

theorem Mirrors.isSymbolic (h : Mirrors scene backend s s') (id : NodeId) :
    s'.isSymbolic id = s.isSymbolic id := by
  simp [State.isSymbolic, h.symbolic]

theorem Mirrors.stays (h : Mirrors scene backend s s') (id : NodeId) :
    s'.stays id = s.stays id := by
  simp [State.stays, h.isSymbolic, h.isRetained]

theorem Mirrors.remember (h : Mirrors scene backend s s') {id : NodeId} (hid : ¬ scene.Steady id)
    (result : Output) : Mirrors scene backend (s.recorded id result)
      (s'.recorded id result) :=
  ⟨h.graph, h.memo.remember hid result, h.symbolic, h.rng, h.bindings, h.retained⟩

/-- Either state may go on to evaluate steady nodes. -/
theorem Mirrors.gentle (h : Mirrors scene backend s s') (hst : Gentle scene s t)
    (ht : scene.Knows backend t.memo) (hst' : Gentle scene s' t')
    (ht' : scene.Knows backend t'.memo) : Mirrors scene backend t t' where
  graph := by rw [hst'.graph, h.graph, hst.graph]
  memo :=
    { results := fun id hid => by
        rw [hst'.results id hid, h.memo.results id hid, hst.results id hid]
      left := ht
      right := ht' }
  symbolic := by rw [hst'.symbolic, h.symbolic, hst.symbolic]
  rng := by rw [hst'.rng, h.rng, hst.rng]
  bindings := by rw [hst'.bindings, h.bindings, hst.bindings]
  retained := by rw [hst'.retained, h.retained, hst.retained]

/-- What holds of the steady nodes with breakpoints holds of them without breakpoints. -/
theorem Mirrors.settled (h : Mirrors scene backend s s') (hs : Settled scene backend s) :
    Settled scene.unwatched backend s' where
  graph :=
    { node? := fun id hid => by
        rw [h.graph, Graph.node?_unwatched, hs.graph.node? id hid.of_unwatched]
        exact (Graph.node?_unwatched scene.graph id).symm
      references := fun _ _ hid hnode => hid.references hnode }
  bindings := h.bindings.trans hs.bindings
  retained id hid := hs.retained id ((h.isRetained id).symm.trans hid)
  memo id out hid hout := by
    rw [Scene.denote_unwatched]
    exact h.memo.right id out hid.of_unwatched hout

theorem Settled.knows_of_unwatched (hs : Settled scene.unwatched backend s) :
    scene.Knows backend s.memo := by
  intro id out hid hout
  rw [← Scene.denote_unwatched]
  exact hs.memo id out hid.unwatched hout

theorem Gentle.of_unwatched (h : Gentle scene.unwatched s t) : Gentle scene s t :=
  { h with results := fun id hid => h.results id fun hid' => hid hid'.of_unwatched }

end State

open State

/-- Performed from a state without breakpoints, the computation does the same as performed from the
state `s`, if the run is undisturbed. -/
structure Follows {α : Type} (scene : Scene) (c : Settings) (s : State) (x : Eval α) :
    Prop where
  memo : s.memo <:+ (x c s).2.memo
  graph : s.graph.Evolves (x c s).2.graph
  mirrors : scene.Undisturbed (x c s).2 → ∀ s', Mirrors scene c.backend s s' →
    (x c s').1 = (x c s).1 ∧ Mirrors scene c.backend (x c s).2 (x c s').2

namespace Follows

variable {α β : Type} {scene : Scene} {bound : Nat} {c : Settings} {s t : State}

/-- After a change of the state that leaves the memo as it is. -/
theorem of_moved {x y : Eval α} (h : x c s = y c t) (hmemo : t.memo = s.memo)
    (hgraph : s.graph.Evolves t.graph)
    (h' : ∀ s', Mirrors scene c.backend s s' → ∃ t', Mirrors scene c.backend t t' ∧ x c s' = y c t')
    (hy : Follows scene c t y) : Follows scene c s x where
  memo := by rw [h, ← hmemo]; exact hy.memo
  graph := by rw [h]; exact hgraph.trans hy.graph
  mirrors hcalm s' hs' := by
    obtain ⟨t', ht', hrun⟩ := h' s' hs'
    rw [h] at hcalm ⊢
    rw [hrun]
    exact hy.mirrors hcalm t' ht'

theorem of_eq {x y : Eval α} (h : x c s = y c s)
    (h' : ∀ s', Mirrors scene c.backend s s' → x c s' = y c s') (hy : Follows scene c s y) :
    Follows scene c s x :=
  of_moved h rfl (.refl _) (fun s' hs' => ⟨s', hs', h' s' hs'⟩) hy

theorem pure (a : α) : Follows scene c s (pure a) :=
  ⟨List.suffix_rfl, .refl _, fun _ _ hs' => ⟨rfl, hs'⟩⟩

theorem fail (e : Failure) : Follows scene c s (.fail e : Eval α) :=
  ⟨List.suffix_rfl, .refl _, fun _ _ hs' => ⟨rfl, hs'⟩⟩

theorem state {f : State → Eval α} (h' : ∀ s', Mirrors scene c.backend s s' → f s' = f s)
    (h : Follows scene c s (f s)) : Follows scene c s (Eval.state >>= f) :=
  of_eq (y := f s) rfl (fun s' hs' => by rw [Eval.state_bind_run, h' s' hs']) h

theorem stays {id : NodeId} {f : Bool → Eval α} (h : Follows scene c s (f (s.stays id))) :
    Follows scene c s (Eval.stays id >>= f) :=
  of_eq (y := f (s.stays id)) rfl (fun s' hs' => by rw [← hs'.stays id]; rfl) h

theorem settings {f : Settings → Eval α} (h : Follows scene c s (f c)) :
    Follows scene c s (Eval.settings >>= f) :=
  of_eq (y := f c) rfl (fun _ _ => rfl) h

theorem report {r : Report} {k : Unit → Eval α}
    (h : Follows scene c { s with events := s.events.push (.report r) } (k ())) :
    Follows scene c s (Eval.report r >>= k) := by
  refine of_moved (y := k ()) rfl rfl (.refl _) (fun s' hs' => ?_) h
  refine ⟨{ s' with events := s'.events.push (.report r) }, ?_, rfl⟩
  exact ⟨hs'.graph, hs'.memo, hs'.symbolic, hs'.rng, hs'.bindings, hs'.retained⟩

theorem recordRead {id : NodeId} {k : Unit → Eval α}
    (h : Follows scene c { s with context := s.context.recordRead id } (k ())) :
    Follows scene c s (Eval.recordRead id >>= k) := by
  refine of_moved (y := k ()) rfl rfl (.refl _) (fun s' hs' => ?_) h
  refine ⟨{ s' with context := s'.context.recordRead id }, ?_, rfl⟩
  have hs := Still.recordRead s id
  have ht := Still.recordRead s' id
  exact ⟨hs'.graph, hs'.memo, hs'.symbolic, hs'.rng,
    ht.bindings.trans (hs'.bindings.trans hs.bindings.symm),
    ht.retained.trans (hs'.retained.trans hs.retained.symm)⟩

/-- Of a node, only what does not tell of the breakpoint is looked at. -/
theorem node {id : NodeId} {f : Node → Eval α} (hf : ∀ n, f n.unwatched = f n)
    (h : ∀ n, s.graph.node? id = some n → Follows scene c s (f n)) :
    Follows scene c s (Eval.node id >>= f) := by
  have hnode' : ∀ s', Mirrors scene c.backend s s' →
      s'.graph.node? id = (s.graph.node? id).map Node.unwatched :=
    fun s' hs' => by rw [hs'.graph, Graph.node?_unwatched]
  cases hnode : s.graph.node? id with
  | none =>
    refine of_eq (y := .fail _) (Eval.bind_run_error (Eval.node_run_none hnode)) (fun s' hs' => ?_)
      (fail _)
    exact Eval.bind_run_error (Eval.node_run_none (by rw [hnode' s' hs', hnode]; rfl))
  | some n =>
    refine of_eq (y := f n) (Eval.bind_run_ok (Eval.node_run_some hnode)) (fun s' hs' => ?_)
      (h n hnode)
    have hrun := Eval.node_run_some (c := c) (by rw [hnode' s' hs', hnode]; rfl)
    rw [Eval.bind_run_ok hrun, hf]

/-- The rest of a sequence follows in every state that the beginning leads to. -/
theorem bind {x : Eval α} {f : α → Eval β} {P : Except Failure α → State → Prop}
    (hs : scene.Reached s) (hx : Follows scene c s x)
    (hu : (coherence scene.idle bound).Ensures c s x P)
    (hf : ∀ a t, scene.Reached t → Step bound s t → P (.ok a) t → Follows scene c t (f a)) :
    Follows scene c s (x >>= f) := by
  obtain ⟨ht, hst, hP⟩ := hu hs.toCoherent
  obtain ⟨hmemo, hgraph, hmirrors⟩ := hx
  cases hrun : x c s with
  | mk r t =>
    rw [hrun] at ht hst hP hmemo hgraph hmirrors
    cases r with
    | error e =>
      have hbind : (x >>= f) c s = (.error e, t) := Eval.bind_run_error hrun
      refine ⟨by rw [hbind]; exact hmemo, by rw [hbind]; exact hgraph, fun hcalm s' hs' => ?_⟩
      rw [hbind] at hcalm ⊢
      obtain ⟨hr, ht'⟩ := hmirrors hcalm s' hs'
      have hrun' : x c s' = (.error e, (x c s').2) := Prod.ext hr rfl
      rw [Eval.bind_run_error hrun']
      exact ⟨rfl, ht'⟩
    | ok a =>
      have hbind : (x >>= f) c s = f a c t := Eval.bind_run_ok hrun
      obtain ⟨hmemo', hgraph', hmirrors'⟩ := hf a t (hs.later ht hst.toLater) hst hP
      refine ⟨by rw [hbind]; exact hmemo.trans hmemo',
        by rw [hbind]; exact hgraph.trans hgraph', fun hcalm s' hs' => ?_⟩
      rw [hbind] at hcalm ⊢
      -- The run was undisturbed up to the middle, so the two runs agree there, and then go on.
      obtain ⟨hr, ht'⟩ := hmirrors (hcalm.before ht hmemo' hgraph') s' hs'
      have hrun' : x c s' = (.ok a, (x c s').2) := Prod.ext hr rfl
      rw [Eval.bind_run_ok hrun']
      exact hmirrors' hcalm _ ht'

end Follows

end Dataflow
