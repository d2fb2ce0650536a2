import Dataflow.Proofs.Frame
import Dataflow.Proofs.Stability

/-!
# The graph as an arena

What holds of every graph, however building steps and evaluations were mixed: nodes are found by
their positions and by their names, they refer to earlier nodes only, and operations are applied to
as many operands as they take.
-/

namespace Dataflow

namespace Graph

variable {g g' : Graph} {id : NodeId} {node : Node} {o : Operation} {step : BuildStep}

/-! ## Steps -/

/-- A step that adds a node names it as it was asked to, as far as the name is free. -/
theorem Takes.named {r : Except Failure Unit × Graph} (h : g.Takes step r) (hg : g.WellFormed)
    (hok : r.1 = .ok ()) {requested : String} (hrequested : step.requested? = some requested) :
    r.2.size = g.size + 1 ∧
      ∃ node, r.2.node? ⟨g.size⟩ = some node ∧ Named g.names requested node.name := by
  cases h with
  | refused => cases hok
  | added hname =>
    cases hrequested.symm.trans hname
    exact ⟨size_insert .., _, (node?_insert ..).trans (if_pos rfl), hg.freeName_named requested⟩
  | annotated hname => cases hrequested.symm.trans hname

theorem Takes.unchanged {r : Except Failure Unit × Graph} {e : Failure} (h : g.Takes step r)
    (hfails : r.1 = .error e) : r.2 = g := by
  cases h with
  | refused => rfl
  | added => cases hfails
  | annotated => cases hfails

/-! ## Operations -/

section Operations

variable {P : DType → Operation → Prop}

/-- Every operation is as `P` says of it and of the element type that its node declares. -/
def Operations (P : DType → Operation → Prop) (g : Graph) : Prop :=
  ∀ id node o, g.node? id = some node → node.kind = .operation o → P node.dtype o

theorem Takes.operations {r : Except Failure Unit × Graph} (hP : ∀ {g : Graph} {dtype : DType}
    {shape : Option Shape} {o : Operation}, g.Declares dtype shape (.operation o) → P dtype o)
    (h : g.Takes step r) (hg : g.Operations P) : r.2.Operations P := by
  intro id node o hnode hkind
  cases h with
  | refused => exact hg id node o hnode hkind
  | added _ hdeclares =>
    rw [node?_insert] at hnode
    split at hnode
    · cases hnode
      cases hkind
      exact hP hdeclares
    · exact hg id node o hnode hkind
  | annotated _ hupdate hannotates =>
    rw [node?_update hupdate] at hnode
    split at hnode
    · obtain ⟨n, hn, rfl⟩ := Option.map_eq_some_iff.mp hnode
      rw [(hannotates n).dtype]
      exact hg id n o hn ((hannotates n).kind ▸ hkind)
    · exact hg id node o hnode hkind

/-- The copies have the operations of their origins, and declare the same element types. -/
theorem Operations.stable : Stable (Operations P) where
  store hg hstore i n o hnode hkind := by
    obtain ⟨node, stored, hfound, -, -, hupdate⟩ := store_eq_ok hstore
    rw [node?_update hupdate] at hnode
    split at hnode
    · obtain ⟨m, -, rfl⟩ := Option.map_eq_some_iff.mp hnode
      cases hkind
    · exact hg i n o hnode hkind
  copy _ hg hnode _ i n o hn hkind := by
    rw [node?_insert] at hn
    split at hn
    · cases hn
      have horigin := hg _ _ o hnode hkind
      exact horigin
    · exact hg i n o hn hkind

/-- What holds of every operation that is added holds of the operations of every graph. -/
theorem Reached.operations {g : Graph} (hg : g.Reached) (hP : ∀ {g : Graph} {dtype : DType}
    {shape : Option Shape} {o : Operation}, g.Declares dtype shape (.operation o) → P dtype o) :
    g.Operations P :=
  hg.stable Operations.stable (by simp [Operations, Graph.empty, node?]) fun h => h.operations hP

end Operations

def WithinArity (g : Graph) : Prop :=
  ∀ id node o, g.node? id = some node → node.kind = .operation o → o.WithinArity

theorem WithinArity.stable : Stable WithinArity :=
  Operations.stable (P := fun _ o => o.WithinArity)

theorem Reached.withinArity {g : Graph} (hg : g.Reached) : g.WithinArity :=
  hg.operations fun hdeclares => hdeclares.withinArity

/-- However building steps and evaluations were mixed: every node knows its position, names are
distinct and nodes are found by them, nodes refer to earlier ones, and operations have as many
operands as they take. A step that adds a node names it as it was asked to, or by the first numbered
variant that is free, and so does an evaluation with its copies. A step that fails leaves the graph
as it was. -/
theorem Reached.arena {g : Graph} (hg : g.Reached) :
    (∀ id node, g.node? id = some node → node.id = id) ∧
    (∀ i j n m, g.node? i = some n → g.node? j = some m → n.name = m.name → i = j) ∧
    (∀ name id, g.find? name = some id ↔ ∃ node, g.node? id = some node ∧ node.name = name) ∧
    (∀ id node, g.node? id = some node → ∀ r ∈ node.kind.references, r.index < id.index) ∧
    (∀ id node o, g.node? id = some node → node.kind = .operation o → o.WithinArity) ∧
    (∀ step requested, (g.take step).1 = .ok () → step.requested? = some requested →
      (g.take step).2.size = g.size + 1 ∧
      ∃ node, (g.take step).2.node? ⟨g.size⟩ = some node ∧ Named g.names requested node.name) ∧
    (∀ lib context config spare c session,
      let g' := ((State.start lib g context config spare).after c session).graph
      ∀ id, g.size ≤ id.index → id.index < g'.size →
        ∃ node o, g'.node? id = some node ∧ node.kind = .operation o ∧
          Named (g'.names.take id.index) s!"{o.op.tag}_deferred" node.name) ∧
    ∀ step e, (g.take step).1 = .error e → (g.take step).2 = g := by
  have hwell := hg.wellFormed
  refine ⟨hwell.position, hwell.names, hwell.agreement, hwell.references, hg.withinArity,
    fun step _ hok => (g.takes step).named hwell hok, ?_, fun step _ => (g.takes step).unchanged⟩
  intro lib context config spare c session g' id hge hlt
  have hframed := (State.framed_after lib hwell context config spare c session).2
  obtain ⟨origin, -, -, -, added, o, -, hadded, -, hkind, -, -, node, hnode, hnamed⟩ :=
    hframed.copied id ((hframed.symbolic id).mpr ⟨hge, hlt⟩)
  cases hadded.symm.trans hnode
  exact ⟨added, o, hadded, hkind, hnamed⟩

/-- Names are numbered where they collide, with each other or with the name of a copy. -/
theorem Reached.arena_numbered :
    let base := ofSteps [.placeholder "x" .int32 none,
      .constant "negate_deferred" (.scalar (.int 1)), .placeholder "x" .int32 none,
      .operation "y" ⟨.kernel (.unary .negate), [⟨0⟩], .empty⟩]
    let g := ((State.start .standard base .empty .standard 0).after ⟨32, .cpu⟩
      [(Context.empty.retain ⟨0⟩, .complete ⟨3⟩)]).graph
    g.find? "x_1" = some ⟨2⟩ ∧ g.find? "negate_deferred_1" = some ⟨4⟩ ∧
      (∀ id node, g.node? id = some node → node.id = id) ∧
      ∃ node, (g.take (.placeholder "x" .int32 none)).2.node? ⟨g.size⟩ = some node ∧
        Named g.names "x" node.name :=
  have h := Reached.arena
    (.evaluated (built_ofSteps _).reached .standard .empty .standard 0 ⟨32, .cpu⟩
      [(Context.empty.retain ⟨0⟩, .complete ⟨3⟩)])
  ⟨rfl, rfl, h.1, (h.2.2.2.2.2.1 (.placeholder "x" .int32 none) "x" rfl rfl).2⟩

end Graph

end Dataflow
