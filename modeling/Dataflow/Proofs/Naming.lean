import Dataflow.Proofs.Evolution

/-!
# Names

A new node gets the name that was asked for if no node has it, and else the first numbered variant
that no node has. Names stay what they are while a graph evolves, so in a later graph the nodes
before a node are still those whose names were taken when it was added.
-/

namespace Dataflow

/-- The name for a new node for which `requested` was asked, where the names in `taken` are not
free. -/
inductive Named (taken : List String) (requested : String) : String → Prop
  | free (h : requested ∉ taken) : Named taken requested requested
  | numbered {k : Nat} (htaken : requested ∈ taken) (hk : 1 ≤ k)
      (hfree : Graph.numbered requested k ∉ taken)
      (hleast : ∀ j, 1 ≤ j → j < k → Graph.numbered requested j ∈ taken) :
      Named taken requested (Graph.numbered requested k)

namespace Graph

variable {g g' : Graph} {id : NodeId} {node : Node}

/-- The names of a graph, in the order of the nodes. -/
def names (g : Graph) : List String := g.nodes.toList.map Node.name

theorem mem_names {name : String} :
    name ∈ g.names ↔ ∃ id node, g.node? id = some node ∧ node.name = name := by
  constructor
  · intro h
    obtain ⟨node, hnode, hname⟩ := List.mem_map.mp h
    obtain ⟨i, hi⟩ := Array.mem_iff_getElem?.mp (Array.mem_toList_iff.mp hnode)
    exact ⟨⟨i⟩, node, hi, hname⟩
  · rintro ⟨id, node, hnode, hname⟩
    exact List.mem_map.mpr ⟨node, Array.mem_toList_iff.mpr (mem_of_node? hnode), hname⟩

/-- The index tells which names are taken. -/
theorem WellFormed.find?_eq_none_iff (hg : g.WellFormed) {name : String} :
    g.find? name = none ↔ name ∉ g.names := by
  rw [mem_names]
  constructor
  · rintro hnone ⟨id, node, hnode, hname⟩
    exact hg.ne_of_find?_eq_none hnone hnode hname
  · intro hfree
    by_contra hsome
    obtain ⟨id, hid⟩ := Option.ne_none_iff_exists'.mp hsome
    obtain ⟨node, hnode, hname⟩ := (hg.agreement name id).mp hid
    exact hfree ⟨id, node, hnode, hname⟩

@[simp] theorem length_names (g : Graph) : g.names.length = g.size := by
  simp [names, size]

theorem names_eq_bare (g : Graph) : g.names = g.bare.map Node.name := by
  simp [names, bare, Function.comp_def]

theorem Evolves.names (h : g.Evolves g') : g.names <+: g'.names := by
  rw [names_eq_bare, names_eq_bare]
  exact List.IsPrefix.map Node.name h

/-- The nodes that were there keep their names. -/
theorem Evolves.take_names (h : g.Evolves g') {n : Nat} (hn : n ≤ g.size) :
    g'.names.take n = g.names.take n := by
  obtain ⟨rest, hrest⟩ := h.names
  rw [← hrest, List.take_append_of_le_length (by simpa using hn)]

theorem WellFormed.freeName_named (hg : g.WellFormed) (requested : String) :
    Named g.names requested (g.freeName requested) := by
  have hfresh : g.freeName requested ∉ g.names :=
    hg.find?_eq_none_iff.mp (g.find?_freeName requested)
  by_cases htaken : requested ∈ g.names
  · have hsome : ¬ (g.find? requested).isNone = true := fun hnone =>
      hg.find?_eq_none_iff.mp (Option.isNone_iff_eq_none.mp hnone) htaken
    unfold freeName at hfresh ⊢
    rw [if_neg hsome] at hfresh ⊢
    split
    · rename_i k hk
      obtain ⟨hfree, hmem, hleast⟩ := List.find?_range'_eq_some.mp hk
      refine .numbered htaken (List.mem_range'_1.mp hmem).1
        (hg.find?_eq_none_iff.mp (Option.isNone_iff_eq_none.mp hfree)) fun j hj hlt => ?_
      by_contra hmem
      have hfree := hg.find?_eq_none_iff.mpr hmem
      simpa [hfree] using hleast j hj hlt
    · rename_i hnone
      -- There is a free variant, since no node has the name that is returned.
      rw [hnone] at hfresh
      exact absurd htaken hfresh
  · have hnone := hg.find?_eq_none_iff.mpr htaken
    rw [freeName, if_pos (Option.isNone_iff_eq_none.mpr hnone)]
    exact .free htaken

/-- The node at `id` was named for a request, when the nodes before it were there. -/
def NamedFor (g : Graph) (id : NodeId) (requested : String) : Prop :=
  ∃ node, g.node? id = some node ∧ Named (g.names.take id.index) requested node.name

theorem NamedFor.evolves {requested : String} (h : g.NamedFor id requested)
    (hg : g.Evolves g') : g'.NamedFor id requested := by
  obtain ⟨node, hnode, hnamed⟩ := h
  obtain ⟨node', hnode', hbare⟩ := hg.node? hnode
  refine ⟨node', hnode', ?_⟩
  rw [Node.name_eq_of_bare hbare, hg.take_names (Nat.le_of_lt (lt_size_of_node? hnode))]
  exact hnamed

theorem WellFormed.namedFor_insert (hg : g.WellFormed) (requested : String) (dtype : DType)
    (shape : Option Shape) (isConst : Bool) (kind : NodeKind) :
    (g.insert requested dtype shape isConst kind).1.NamedFor ⟨g.size⟩ requested := by
  refine ⟨g.inserted requested dtype shape isConst kind, (node?_insert ..).trans (if_pos rfl), ?_⟩
  have hevolves : g.Evolves (g.insert requested dtype shape isConst kind).1 :=
    .of_extends (.insert ..)
  have htaken : (g.insert requested dtype shape isConst kind).1.names.take g.size = g.names := by
    rw [hevolves.take_names (Nat.le_refl _)]
    exact List.take_of_length_le (Nat.le_of_eq g.length_names)
  rw [htaken]
  exact hg.freeName_named requested

end Graph

end Dataflow
