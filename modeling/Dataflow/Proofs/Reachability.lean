import Dataflow.Proofs.Evolution
import Mathlib.Logic.Relation

/-!
# Reachability

The nodes that a node depends on, through operands, options and references. In a well-formed graph
they all lie before it, and they stay the same while the graph evolves.
-/

namespace Dataflow

namespace Graph

/-- The node `a` refers to the node `b`. -/
def Refers (g : Graph) (a b : NodeId) : Prop :=
  ∃ node, g.node? a = some node ∧ b ∈ node.kind.references

/-- The node `b` is the node `a`, or `a` refers to a node that reaches `b`. -/
def Reaches (g : Graph) : NodeId → NodeId → Prop := Relation.ReflTransGen g.Refers

variable {g g' : Graph} {a b d : NodeId}

theorem WellFormed.lt_of_refers (hg : g.WellFormed) (h : g.Refers a b) : b.index < a.index := by
  obtain ⟨node, hnode, hb⟩ := h
  exact hg.references a node hnode b hb

theorem Refers.lt_size (h : g.Refers a b) : a.index < g.size := by
  obtain ⟨node, hnode, -⟩ := h
  exact lt_size_of_node? hnode

theorem Refers.of_operation {node : Node} {o : Operation} (hnode : g.node? a = some node)
    (hkind : node.kind = .operation o) (hb : b ∈ o.references) : g.Refers a b :=
  ⟨node, hnode, by rw [hkind]; exact hb⟩

theorem Refers.operation {node : Node} {o : Operation} (h : g.Refers a b)
    (hnode : g.node? a = some node) (hkind : node.kind = .operation o) : b ∈ o.references := by
  obtain ⟨node', hnode', hb⟩ := h
  cases hnode.symm.trans hnode'
  rw [hkind] at hb
  exact hb

theorem Refers.evolves (h : g.Refers a b) (hg : g.Evolves g') : g'.Refers a b := by
  obtain ⟨node, hnode, hb⟩ := h
  obtain ⟨node', hnode', hbare⟩ := hg.node? hnode
  exact ⟨node', hnode', by rwa [← Node.bare_references, hbare, Node.bare_references]⟩

/-- A node that is there already refers to the same nodes later. -/
theorem Refers.of_evolves (h : g'.Refers a b) (hg : g.Evolves g') (ha : a.index < g.size) :
    g.Refers a b := by
  obtain ⟨node', hnode', hb⟩ := h
  obtain ⟨node, hnode, hbare⟩ := hg.exists_before ha hnode'
  exact ⟨node, hnode, by rwa [← Node.bare_references, ← hbare, Node.bare_references]⟩

namespace Reaches

theorem refl (g : Graph) (a : NodeId) : g.Reaches a a := Relation.ReflTransGen.refl

theorem trans (h : g.Reaches a b) (h' : g.Reaches b d) : g.Reaches a d :=
  Relation.ReflTransGen.trans h h'

theorem of_refers (h : g.Refers a b) : g.Reaches a b := Relation.ReflTransGen.single h

theorem head (h : g.Refers a b) (h' : g.Reaches b d) : g.Reaches a d :=
  Relation.ReflTransGen.head h h'

theorem evolves (h : g.Reaches a b) (hg : g.Evolves g') : g'.Reaches a b :=
  Relation.ReflTransGen.mono (fun _ _ hstep => hstep.evolves hg) _ _ h

/-- What holds of a node and is handed on to all nodes that are referred to holds of all that it
reaches. -/
theorem closed {P : NodeId → Prop} (h : g.Reaches a b) (ha : P a)
    (hP : ∀ a b, P a → g.Refers a b → P b) : P b := by
  induction h with
  | refl => exact ha
  | tail _ hstep ih => exact hP _ _ ih hstep

theorem mem_of_closed {ids : List NodeId} (h : g.Reaches a b) (ha : a ∈ ids)
    (hids : ∀ a ∈ ids, ∀ node ∈ g.node? a, ∀ b ∈ node.kind.references, b ∈ ids) : b ∈ ids :=
  h.closed ha fun a b ha ⟨node, hnode, hb⟩ => hids a ha node hnode b hb

theorem index_le (h : g.Reaches a b) (hg : g.WellFormed) : b.index ≤ a.index :=
  h.closed (P := fun b => b.index ≤ a.index) (Nat.le_refl _) fun _ _ hle hstep =>
    Nat.le_trans (Nat.le_of_lt (hg.lt_of_refers hstep)) hle

end Reaches

end Graph

end Dataflow
