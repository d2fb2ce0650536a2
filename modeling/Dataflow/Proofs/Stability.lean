import Dataflow.Proofs.Conduct

/-!
# What evaluations keep

Evaluations change a graph in two ways: they store values in variables, and they add copies of
operations. What both of these keep holds of the graph of an evaluator at any time.
-/

namespace Dataflow

variable (lib : Library Rng)

open State

namespace Graph

variable {id : NodeId} {node : Node}

/-- Graphs keep the property while they are evaluated: when values are stored and when copies of
operations are added. -/
structure Stable (P : Graph → Prop) : Prop where
  store : ∀ {g g' id v w}, P g → g.store id v = .ok (g', w) → P g'
  copy : ∀ {g id node o} (name : String), P g → g.node? id = some node →
    node.kind = .operation o → P (g.insert name node.dtype node.shape false node.kind).1

theorem Stable.changes {P : Graph → Prop} (hP : Stable P) {s t : State} {o : Operation}
    {r : Except Failure Output} (h : s.Changes id o r t) (hnode : s.graph.node? id = some node)
    (hkind : node.kind = .operation o) (hs : P s.graph) : P t.graph := by
  cases h with
  | none halike => rwa [halike.graph]
  | stored _ _ hstore => exact hP.store hs hstore
  | copied _ hadd =>
    obtain ⟨node', hnode', hinsert⟩ := addDeferred_eq_ok.mp hadd
    cases hnode.symm.trans hnode'
    have hcopy := hP.copy s!"{o.op.tag}_deferred" hs hnode hkind
    rw [hkind, ← hinsert] at hcopy
    exact hcopy

end Graph

/-- The conduct of an evaluator whose graph has the property `P`. -/
def Conduct.onGraph (P : Graph → Prop) : Conduct where
  inv s := P s.graph
  gives _ _ _ := True
  left _ _ := True

theorem Conduct.onGraph_lawful {P : Graph → Prop} (hP : Graph.Stable P) (c : Settings) :
    (onGraph P).Lawful c where
  alike h hs := by
    show P _
    rw [h.graph]
    exact hs
  leaves _ _ _ := trivial
  lasts _ _ := trivial
  retained _ _ := trivial
  missing _ _ _ := trivial
  leaf _ _ _ _ := trivial
  reference _ _ _ _ _ := trivial
  remembered _ _ := trivial
  failed _ _ := trivial
  performed h hrun _ := by
    have hgraph := hP.changes (h.changes hrun) h.found h.kind h.inv
    exact ⟨hgraph, trivial⟩
  later _ _ _ _ := trivial
  blocked _ _ _ _ := trivial

theorem Graph.Stable.after {P : Graph → Prop} (hP : Stable P) {g : Graph} (hg : g.WellFormed)
    (h : P g) (context : Context) (config : Config) (spare : UInt64) (c : Settings)
    (session : Session) : P ((State.start lib g context config spare).after c session).graph :=
  ((Conduct.onGraph_lawful hP c).after (fun _ _ h => h) session
    ⟨coherent_start lib hg context config spare, h⟩).2

/-- What building steps keep as well holds of every graph. -/
theorem Graph.Reached.stable {P : Graph → Prop} {g : Graph} (hg : g.Reached) (hP : Stable P)
    (hempty : P .empty) (htakes : ∀ {g step r}, g.Takes step r → P g → P r.2) : P g := by
  induction hg with
  | empty => exact hempty
  | built _ step ih => exact htakes (takes _ step) ih
  | evaluated hg lib context config spare c session ih =>
    exact hP.after lib hg.wellFormed ih context config spare c session

end Dataflow
