import Dataflow.Proofs.Building

/-!
# Evolving graphs

While nodes are evaluated a graph only grows, and of a node only the value changes that is stored in
it, by writes that name the variable. What does not depend on stored values can be carried over to
every later form of the graph.
-/

namespace Dataflow

/-! ## Writes -/

/-- A node that holds its value from the start or from outside, if it has one. -/
def NodeKind.isLeaf : NodeKind → Bool
  | .literal _ | .variable _ | .placeholder => true
  | .reference _ | .operation _ => false

/-- A value that an assignment put into the variable of the given name. -/
abbrev Write := Update × String × Value

/-- The node without the value that is stored in it. -/
def Node.bare (n : Node) : Node :=
  match n.kind with
  | .variable _ => { n with kind := .variable none }
  | _ => n

namespace Node

@[simp] theorem bare_name (n : Node) : n.bare.name = n.name := by
  unfold bare
  split <;> rfl

@[simp] theorem bare_id (n : Node) : n.bare.id = n.id := by
  unfold bare
  split <;> rfl

@[simp] theorem bare_dtype (n : Node) : n.bare.dtype = n.dtype := by
  unfold bare
  split <;> rfl

@[simp] theorem bare_shape (n : Node) : n.bare.shape = n.shape := by
  unfold bare
  split <;> rfl

@[simp] theorem bare_watched (n : Node) : n.bare.watched = n.watched := by
  unfold bare
  split <;> rfl

@[simp] theorem bare_label (n : Node) : n.bare.kind.label = n.kind.label := by
  unfold bare
  split
  · rename_i h; simp [h, NodeKind.label]
  · rfl

@[simp] theorem bare_references (n : Node) : n.bare.kind.references = n.kind.references := by
  unfold bare
  split
  · rename_i h; simp [h, NodeKind.references]
  · rfl

@[simp] theorem bare_isLeaf (n : Node) : n.bare.kind.isLeaf = n.kind.isLeaf := by
  unfold bare
  split
  · rename_i h; simp [h, NodeKind.isLeaf]
  · rfl

@[simp] theorem bare_outline (n : Node) : n.bare.outline = n.outline := by
  simp [outline]

theorem name_eq_of_bare {n m : Node} (h : m.bare = n.bare) : m.name = n.name := by
  rw [← bare_name, h, bare_name]

theorem dtype_eq_of_bare {n m : Node} (h : m.bare = n.bare) : m.dtype = n.dtype := by
  rw [← bare_dtype, h, bare_dtype]

theorem bare_of_not_variable {n : Node} (h : ∀ stored, n.kind ≠ .variable stored) : n.bare = n := by
  unfold bare
  split
  · rename_i hkind; exact absurd hkind (h _)
  · rfl

/-- Only variables store something that can change, so all other nodes are determined without. -/
theorem eq_of_bare_eq_of_not_variable {n m : Node} (h : m.bare = n.bare)
    (hn : ∀ stored, n.kind ≠ .variable stored) : m = n := by
  have hm : ∀ stored, m.kind ≠ .variable stored := by
    intro stored hkind
    have hbare : m.bare.kind = .variable none := by simp [bare, hkind]
    rw [h, bare_of_not_variable hn] at hbare
    exact hn none hbare
  rw [← bare_of_not_variable hm, h, bare_of_not_variable hn]

theorem eq_of_bare_eq {n m : Node} (h : m.bare = n.bare) (hn : n.kind.isLeaf = false) : m = n :=
  eq_of_bare_eq_of_not_variable h fun stored hkind => by simp [hkind, NodeKind.isLeaf] at hn

theorem exists_variable_of_bare {n n' : Node} {stored : Option Value} (h : n'.bare = n.bare)
    (hkind : n.kind = .variable stored) : ∃ stored', n'.kind = .variable stored' := by
  by_contra hnot
  have hsame := eq_of_bare_eq_of_not_variable h.symm fun stored' hkind' => hnot ⟨stored', hkind'⟩
  exact hnot ⟨stored, hsame ▸ hkind⟩

/-- The node after a write, which changes the variable that it names. -/
def written (n : Node) (w : Write) : Node :=
  match n.kind with
  | .variable _ => if n.name = w.2.1 then { n with kind := .variable (some w.2.2) } else n
  | _ => n

theorem written_of_variable {n : Node} {stored : Option Value} (h : n.kind = .variable stored)
    (w : Write) : n.written w =
      if n.name = w.2.1 then { n with kind := .variable (some w.2.2) } else n := by
  simp [written, h]

theorem written_of_name {n : Node} {w : Write} (h : n.name ≠ w.2.1) : n.written w = n := by
  unfold written
  split <;> simp [h]

@[simp] theorem bare_written (n : Node) (w : Write) : (n.written w).bare = n.bare := by
  unfold written
  split
  · rename_i hkind
    split
    · simp [bare, hkind]
    · rfl
  · rfl

@[simp] theorem bare_foldl_written (n : Node) (ws : List Write) :
    (ws.foldl written n).bare = n.bare := by
  induction ws generalizing n with
  | nil => rfl
  | cons w ws ih => rw [List.foldl_cons, ih, bare_written]

end Node

namespace Graph

/-! ## Extensions -/

/-- A graph with all nodes of `g`, and perhaps more after them. -/
def Extends (g' g : Graph) : Prop := g.nodes.toList <+: g'.nodes.toList

/-- The graph after writes, one after another. -/
def replay (g : Graph) (ws : List Write) : Graph :=
  { g with nodes := g.nodes.map fun n => ws.foldl Node.written n }

@[simp] theorem replay_nil (g : Graph) : g.replay [] = g := by simp [replay]

theorem replay_append (g : Graph) (ws vs : List Write) :
    g.replay (ws ++ vs) = (g.replay ws).replay vs := by
  simp [replay, Function.comp_def]

@[simp] theorem size_replay (g : Graph) (ws : List Write) : (g.replay ws).size = g.size := by
  simp [replay, size]

theorem node?_replay (g : Graph) (ws : List Write) (id : NodeId) :
    (g.replay ws).node? id = (g.node? id).map fun n => ws.foldl Node.written n := by
  simp [replay, Graph.node?]

namespace Extends

variable {g g' g'' : Graph} {id : NodeId} {node : Node}

theorem refl (g : Graph) : g.Extends g := List.prefix_rfl

theorem trans (h : g''.Extends g') (h' : g'.Extends g) : g''.Extends g := List.IsPrefix.trans h' h

theorem insert (g : Graph) (name : String) (dtype : DType) (shape : Option Shape) (isConst : Bool)
    (kind : NodeKind) : (g.insert name dtype shape isConst kind).1.Extends g := by
  simp [Extends, Graph.insert]

theorem replay (h : g'.Extends g) (ws : List Write) : (g'.replay ws).Extends (g.replay ws) := by
  simpa [Extends, Graph.replay] using h.map _

theorem node? (h : g'.Extends g) (hnode : g.node? id = some node) : g'.node? id = some node := by
  have hget : g.nodes.toList[id.index]? = some node := by simpa [Graph.node?] using hnode
  obtain ⟨hlt, heq⟩ := List.getElem?_eq_some_iff.mp hget
  have hget' := List.prefix_iff_getElem?.mp h id.index hlt
  simpa [Graph.node?, ← heq] using hget'

end Extends

/-- The copy of an operation is the one node that is added, at the end. -/
theorem addDeferred_copy {g g' : Graph} {origin copy : NodeId} {o : Operation}
    (h : g.addDeferred origin o = .ok (g', copy)) :
    g'.Extends g ∧ g'.size = g.size + 1 ∧ copy.index = g.size ∧
      ∃ added, g'.node? copy = some added ∧ added.kind = .operation o := by
  obtain ⟨node, -, hinsert⟩ := addDeferred_eq_ok.mp h
  cases hinsert
  exact ⟨.insert .., size_insert .., rfl, _, (node?_insert ..).trans (if_pos rfl), rfl⟩

/-! ## Evolution -/

/-- The nodes of a graph without what they store. -/
def bare (g : Graph) : List Node := g.nodes.toList.map Node.bare

/-- A later form of a graph: nodes were added and values were stored. -/
def Evolves (g g' : Graph) : Prop := g.bare <+: g'.bare

theorem bare_getElem? (g : Graph) (i : Nat) : g.bare[i]? = (g.node? ⟨i⟩).map Node.bare := by
  simp [bare, node?]

@[simp] theorem bare_replay (g : Graph) (ws : List Write) : (g.replay ws).bare = g.bare := by
  simp [bare, replay, Function.comp_def]

/-- What is stored makes no difference to whether a graph is well formed. -/
theorem WellFormed.of_bare {g g' : Graph} (hg : g.WellFormed) (h : g'.bare = g.bare)
    (hindex : g'.index = g.index) : g'.WellFormed := by
  refine hg.of_outline hindex fun id => ?_
  have hbare : (g'.node? id).map Node.bare = (g.node? id).map Node.bare := by
    rw [← bare_getElem? g' id.index, ← bare_getElem? g id.index, h]
  have houtline := congrArg (Option.map Node.outline) hbare
  simpa [Function.comp_def] using houtline

@[simp] theorem index_replay (g : Graph) (ws : List Write) : (g.replay ws).index = g.index := rfl

theorem WellFormed.replay {g : Graph} (hg : g.WellFormed) (ws : List Write) :
    (g.replay ws).WellFormed :=
  hg.of_bare (bare_replay g ws) (index_replay g ws)

theorem ext_node? {g g' : Graph} (hindex : g'.index = g.index)
    (h : ∀ id, g'.node? id = g.node? id) : g' = g := by
  have hnodes : g'.nodes = g.nodes := Array.ext_getElem? fun i => h ⟨i⟩
  cases g'
  cases g
  exact congrArg₂ Graph.mk hnodes hindex

/-- A write changes all nodes of a name, and there is only one of them. -/
theorem WellFormed.node?_replay_of_ne {g : Graph} (hg : g.WellFormed) {id i : NodeId} {node : Node}
    (hnode : g.node? id = some node) {w : Write} (hname : node.name = w.2.1) (hi : i ≠ id) :
    (g.replay [w]).node? i = g.node? i := by
  rw [node?_replay]
  cases hn : g.node? i with
  | none => rfl
  | some n =>
    have hother : n.name ≠ w.2.1 :=
      fun heq => hi (hg.names i id n node hn hnode (heq.trans hname.symm))
    simp [Node.written_of_name hother]

/-- In a graph without two nodes of one name, storing a value is a write to the variable. -/
theorem WellFormed.store_eq {g : Graph} (hg : g.WellFormed) {id : NodeId} {v : Value}
    {r : Graph × Value} (h : g.store id v = .ok r) (update : Update) :
    ∃ node, g.node? id = some node ∧ r.1 = g.replay [(update, node.name, r.2)] := by
  obtain ⟨node, stored, hnode, hkind, -, hupdate⟩ := store_eq_ok h
  have hindex : r.1.index = g.index := index_update hupdate
  refine ⟨node, hnode, ext_node? (g := g.replay _) hindex fun i => ?_⟩
  rw [node?_update hupdate]
  split
  · rename_i hi
    subst hi
    simp [node?_replay, hnode, Node.written_of_variable hkind]
  · rename_i hi
    exact (hg.node?_replay_of_ne hnode rfl hi).symm

namespace Evolves

variable {g g' g'' : Graph} {id : NodeId} {node : Node}

theorem refl (g : Graph) : g.Evolves g := List.prefix_rfl

theorem trans (h : g.Evolves g') (h' : g'.Evolves g'') : g.Evolves g'' := List.IsPrefix.trans h h'

theorem size_le (h : g.Evolves g') : g.size ≤ g'.size := by
  simpa [bare, size] using List.IsPrefix.length_le h

theorem node? (h : g.Evolves g') (hnode : g.node? id = some node) :
    ∃ node', g'.node? id = some node' ∧ node'.bare = node.bare := by
  have hbare : g.bare[id.index]? = some node.bare := by simp [bare_getElem?, hnode]
  have hbare' := List.prefix_iff_getElem?.mp h
  obtain ⟨hlt, heq⟩ := List.getElem?_eq_some_iff.mp hbare
  have hget := hbare' id.index hlt
  rw [bare_getElem?, heq] at hget
  exact Option.map_eq_some_iff.mp hget

/-- A node that is no leaf does not change at all. -/
theorem eq_of_not_leaf (h : g.Evolves g') (hnode : g.node? id = some node)
    (hleaf : node.kind.isLeaf = false) : g'.node? id = some node := by
  obtain ⟨node', hnode', hbare⟩ := h.node? hnode
  rw [hnode', Node.eq_of_bare_eq hbare hleaf]

theorem operation (h : g.Evolves g') (hnode : g.node? id = some node) {o : Operation}
    (hkind : node.kind = .operation o) : g'.node? id = some node :=
  h.eq_of_not_leaf hnode (by simp [hkind, NodeKind.isLeaf])

/-- A node that was there already may have stored another value. -/
theorem exists_before (h : g.Evolves g') (hlt : id.index < g.size)
    (hnode : g'.node? id = some node) :
    ∃ before, g.node? id = some before ∧ node.bare = before.bare := by
  obtain ⟨before, hbefore⟩ := exists_node?_of_lt hlt
  obtain ⟨node', hnode', hbare⟩ := h.node? hbefore
  cases hnode.symm.trans hnode'
  exact ⟨before, hbefore, hbare⟩

theorem before_of_not_leaf (h : g.Evolves g') (hlt : id.index < g.size)
    (hnode : g'.node? id = some node) (hleaf : node.kind.isLeaf = false) :
    g.node? id = some node := by
  obtain ⟨before, hbefore, hbare⟩ := h.exists_before hlt hnode
  rw [hbefore, Node.eq_of_bare_eq hbare.symm hleaf]

theorem operation_before (h : g.Evolves g') (hlt : id.index < g.size)
    (hnode : g'.node? id = some node) {o : Operation} (hkind : node.kind = .operation o) :
    g.node? id = some node :=
  h.before_of_not_leaf hlt hnode (by simp [hkind, NodeKind.isLeaf])

/-- What is the same for nodes that differ in what they store. -/
theorem map_node? {α : Type} (h : g.Evolves g') (hnode : (g.node? id).isSome) {f : Node → α}
    (hf : ∀ n, f n.bare = f n) : (g'.node? id).map f = (g.node? id).map f := by
  obtain ⟨node, hnode⟩ := Option.isSome_iff_exists.mp hnode
  obtain ⟨node', hnode', hbare⟩ := h.node? hnode
  rw [hnode, hnode', Option.map_some, Option.map_some, ← hf node', hbare, hf]

theorem of_extends (h : g'.Extends g) : g.Evolves g' :=
  h.map Node.bare

theorem replay (g : Graph) (ws : List Write) : g.Evolves (g.replay ws) := by
  simp [Evolves]

/-- Writes make no difference to how the graph evolves further. -/
theorem of_replay {ws : List Write} (h : g.Evolves g') : (g.replay ws).Evolves g' := by
  simpa [Evolves] using h

end Evolves

end Graph

end Dataflow
