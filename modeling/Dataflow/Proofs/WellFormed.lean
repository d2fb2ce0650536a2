import Dataflow.Graph.Basic
import Dataflow.Proofs.Outcome
import Mathlib.Data.List.Nodup
import Mathlib.Data.List.Perm.Subperm

/-!
# Well-formed graphs

A graph that was built by adding and changing nodes through the public steps is well formed: every
node knows its position, refers only to nodes before it, and has a name of its own.
-/

namespace Dataflow

/-- The nodes that a node refers to. -/
def NodeKind.references : NodeKind → List NodeId
  | .reference target => [target]
  | .operation o => o.references
  | _ => []

/-- What well-formed graphs are about in a node: its position, its name and what it refers to. -/
def Node.outline (n : Node) : NodeId × String × List NodeId := (n.id, n.name, n.kind.references)

theorem Options.mem_references_of_get? {o : Options} {key : String} {v : OptionValue}
    (h : o.get? key = some v) {id : NodeId} (hid : id ∈ v.references) : id ∈ o.references := by
  obtain ⟨before, after, hentries, -⟩ := List.lookup_eq_some_iff.mp h
  refine List.mem_flatMap.mpr ⟨(key, v), ?_, hid⟩
  rw [hentries]
  exact List.mem_append_right before List.mem_cons_self

namespace Operation

variable {o : Operation} {id : NodeId}

theorem mem_references_of_operand {i : Nat} (h : o.operands[i]? = some id) : id ∈ o.references :=
  List.mem_append_left _ (List.mem_of_getElem? h)

theorem mem_references_of_entry {entry : String × OptionValue} (h : entry ∈ o.options.entries)
    (hid : id ∈ entry.2.references) : id ∈ o.references :=
  List.mem_append_right _ (List.mem_flatMap.mpr ⟨entry, h, hid⟩)

theorem mem_references_of_option {key : String} {v : OptionValue}
    (h : o.options.get? key = some v) (hid : id ∈ v.references) : id ∈ o.references :=
  List.mem_append_right _ (Options.mem_references_of_get? h hid)

/-- The nodes that a group evaluates one after another. -/
def members (o : Operation) : List NodeId :=
  match o.options.get? "values" with
  | some (.nodes ids) => ids
  | some (.node id) => [id]
  | _ => o.operands

theorem references_of_mem_members (h : id ∈ o.members) : id ∈ o.references := by
  unfold members at h
  split at h
  · rename_i ids hget
    exact mem_references_of_option hget h
  · rename_i id' hget
    exact mem_references_of_option hget h
  · exact List.mem_append_left _ h

end Operation

namespace Graph

/-! ## Names -/

theorem numbered_injective (name : String) : Function.Injective (numbered name) := by
  intro m n h
  have hrepr : m.repr = n.repr := by simpa [numbered] using h
  have hdigits : Nat.toDigits 10 m = Nat.toDigits 10 n := by
    simpa only [Nat.toList_repr] using congrArg String.toList hrepr
  simpa only [Nat.ofDigitChars_ten_toDigits] using congrArg (Nat.ofDigitChars 10 · 0) hdigits

theorem numbered_ne (name : String) (k : Nat) : numbered name k ≠ name := by
  intro h
  have hlength := congrArg String.length h
  have hunderscore : "_".length = 1 := rfl
  simp only [numbered, String.length_append, toString, hunderscore] at hlength
  omega

/-- If all numbered variants were taken, the index would have one more name than entries. -/
theorem find?_freeName (g : Graph) (requested : String) :
    g.find? (g.freeName requested) = none := by
  unfold freeName
  split
  · rename_i hfree
    exact Option.isNone_iff_eq_none.mp hfree
  · rename_i htaken
    split
    · rename_i k hk
      simpa using List.find?_some hk
    · rename_i hnone
      let variants := (List.range' 1 g.index.length).map (numbered requested)
      have hindexed : ∀ {name}, ¬ (g.find? name).isNone → name ∈ g.index.map Prod.fst := by
        intro name hname
        by_contra hmem
        refine hname (Option.isNone_iff_eq_none.mpr ?_)
        refine List.lookup_eq_none_iff.mpr fun entry hentry => ?_
        exact bne_iff_ne.mpr fun heq => hmem (List.mem_map.mpr ⟨entry, hentry, heq.symm⟩)
      -- The requested name and its variants are distinct names, all of them taken.
      have hnodup : (requested :: variants).Nodup := by
        refine List.nodup_cons.mpr ⟨?_, (List.nodup_range' 1).map (numbered_injective requested)⟩
        simp only [variants, List.mem_map, not_exists, not_and]
        exact fun k _ => numbered_ne requested k
      have hsubset : requested :: variants ⊆ g.index.map Prod.fst := by
        refine List.cons_subset.mpr ⟨hindexed htaken, fun name hname => ?_⟩
        obtain ⟨k, hk, rfl⟩ := List.mem_map.mp hname
        exact hindexed (List.find?_eq_none.mp hnone k hk)
      have hlength := (hnodup.subperm hsubset).length_le
      simp only [variants, List.length_cons, List.length_map, List.length_range'] at hlength
      omega

/-! ## Look-up -/

theorem lt_size_of_node? {g : Graph} {id : NodeId} {node : Node} (h : g.node? id = some node) :
    id.index < g.size :=
  (Array.getElem?_eq_some_iff.mp h).1

theorem node?_eq_none {g : Graph} {id : NodeId} (h : g.size ≤ id.index) : g.node? id = none :=
  Array.getElem?_eq_none h

theorem exists_node?_of_lt {g : Graph} {id : NodeId} (h : id.index < g.size) :
    ∃ node, g.node? id = some node :=
  ⟨g.nodes[id.index], Array.getElem?_eq_getElem h⟩

theorem mem_of_node? {g : Graph} {id : NodeId} {node : Node} (h : g.node? id = some node) :
    node ∈ g.nodes :=
  Array.mem_of_getElem? h

theorem node_eq_ok {g : Graph} {id : NodeId} {node : Node} :
    g.node id = .ok node ↔ g.node? id = some node := by
  unfold Graph.node
  split <;> simp_all

theorem node_of_node? {g : Graph} {id : NodeId} {node : Node} (h : g.node? id = some node) :
    g.node id = .ok node :=
  node_eq_ok.mpr h

theorem node_of_node?_none {g : Graph} {id : NodeId} (h : g.node? id = none) :
    g.node id = .error (.noSuchNode id.index) := by
  simp [Graph.node, h]

@[simp] theorem size_insert (g : Graph) (name : String) (dtype : DType) (shape : Option Shape)
    (isConst : Bool) (kind : NodeKind) :
    (g.insert name dtype shape isConst kind).1.size = g.size + 1 := by
  simp [insert, size]

/-- The node that `insert` adds. -/
def inserted (g : Graph) (name : String) (dtype : DType) (shape : Option Shape) (isConst : Bool)
    (kind : NodeKind) : Node :=
  { id := ⟨g.size⟩, name := g.freeName name, dtype, shape, isConst, source := none,
    watched := false, kind }

theorem node?_insert (g : Graph) (name : String) (dtype : DType) (shape : Option Shape)
    (isConst : Bool) (kind : NodeKind) (id : NodeId) :
    (g.insert name dtype shape isConst kind).1.node? id =
      if id.index = g.size then some (g.inserted name dtype shape isConst kind)
      else g.node? id := by
  simp only [insert, node?, Array.getElem?_push, size]
  rfl

theorem find?_insert (g : Graph) (name : String) (dtype : DType) (shape : Option Shape)
    (isConst : Bool) (kind : NodeKind) (other : String) :
    (g.insert name dtype shape isConst kind).1.find? other =
      if other = g.freeName name then some ⟨g.size⟩ else g.find? other := by
  simp only [insert, find?, List.lookup_cons]
  split <;> simp_all

/-! ## Well-formedness -/

structure WellFormed (g : Graph) : Prop where
  position : ∀ id node, g.node? id = some node → node.id = id
  /-- A node refers to nodes before it. -/
  references : ∀ id node, g.node? id = some node → ∀ r ∈ node.kind.references, r.index < id.index
  /-- The index has the names of the nodes and nothing else. -/
  agreement : ∀ name id, g.find? name = some id ↔ ∃ node, g.node? id = some node ∧ node.name = name

namespace WellFormed

variable {g : Graph} {id : NodeId} {node : Node}

/-- A name is indexed once, so two nodes do not share it. -/
theorem names (hg : g.WellFormed) (i j : NodeId) (n m : Node) (hn : g.node? i = some n)
    (hm : g.node? j = some m) (hname : n.name = m.name) : i = j := by
  have hi := (hg.agreement n.name i).mpr ⟨n, hn, rfl⟩
  have hj := (hg.agreement n.name j).mpr ⟨m, hm, hname.symm⟩
  exact Option.some.inj (hi.symm.trans hj)

/-- A name that is not indexed is free. -/
theorem ne_of_find?_eq_none (hg : g.WellFormed) {name : String} (h : g.find? name = none)
    (hnode : g.node? id = some node) : node.name ≠ name := by
  intro hname
  cases h.symm.trans ((hg.agreement name id).mpr ⟨node, hnode, hname⟩)

theorem lt_of_operation (hg : g.WellFormed) {o : Operation} (hnode : g.node? id = some node)
    (hkind : node.kind = .operation o) : ∀ r ∈ o.references, r.index < id.index :=
  fun r hr => hg.references id node hnode r (by rw [hkind]; exact hr)

theorem lt_of_reference (hg : g.WellFormed) {target : NodeId} (hnode : g.node? id = some node)
    (hkind : node.kind = .reference target) : target.index < id.index :=
  hg.references id node hnode target (by simp [hkind, NodeKind.references])

theorem empty : Graph.empty.WellFormed := by
  constructor <;> simp [Graph.empty, node?, find?]

theorem insert (hg : g.WellFormed) {kind : NodeKind}
    (hkind : ∀ r ∈ kind.references, r.index < g.size) (name : String) (dtype : DType)
    (shape : Option Shape) (isConst : Bool) :
    (g.insert name dtype shape isConst kind).1.WellFormed := by
  -- Each condition is checked for the new node and for the old ones.
  constructor
  · intro id node hnode
    rw [node?_insert] at hnode
    split at hnode
    · cases hnode; cases id; simp_all [inserted]
    · exact hg.position id node hnode
  · intro id node hnode r hr
    rw [node?_insert] at hnode
    split at hnode
    · cases hnode; have := hkind r hr; omega
    · exact hg.references id node hnode r hr
  · intro other id
    have hfree := g.find?_freeName name
    rw [find?_insert, node?_insert]
    split <;> split
    · rename_i hname hid
      obtain rfl : id = ⟨g.size⟩ := congrArg NodeId.mk hid
      simp [inserted, hname]
    · rename_i hname hid
      -- The name was free, so no old node has it.
      subst hname
      refine iff_of_false (fun h => hid (by cases h; rfl)) ?_
      rintro ⟨node, hnode, hname⟩
      exact hg.ne_of_find?_eq_none hfree hnode hname
    · rename_i hname hid
      refine iff_of_false (fun h => ?_) ?_
      · obtain ⟨node, hnode, -⟩ := (hg.agreement other id).mp h
        exact absurd hid (Nat.ne_of_lt (lt_size_of_node? hnode))
      · rintro ⟨node, hnode, rfl⟩
        cases hnode
        exact hname rfl
    · exact hg.agreement other id

/-- A graph with the same index is well formed as well if its nodes have the same positions, names
and references. -/
theorem of_outline {g' : Graph} (hg : g.WellFormed) (hindex : g'.index = g.index)
    (h : ∀ id, (g'.node? id).map Node.outline = (g.node? id).map Node.outline) :
    g'.WellFormed := by
  -- The nodes of the two graphs correspond to each other, one by one.
  have horigin : ∀ {i n'}, g'.node? i = some n' →
      ∃ n, g.node? i = some n ∧ n.outline = n'.outline := by
    intro i n' hn'
    have hi := h i
    rw [hn', Option.map_some] at hi
    exact Option.map_eq_some_iff.mp hi.symm
  have hlater : ∀ {i n}, g.node? i = some n →
      ∃ n', g'.node? i = some n' ∧ n'.outline = n.outline := by
    intro i n hn
    have hi := h i
    rw [hn, Option.map_some] at hi
    exact Option.map_eq_some_iff.mp hi
  constructor
  · intro i n' hn'
    obtain ⟨n, hn, houtline⟩ := horigin hn'
    exact (congrArg Prod.fst houtline).symm.trans (hg.position i n hn)
  · intro i n' hn' r hr
    obtain ⟨n, hn, houtline⟩ := horigin hn'
    have hreferences : n.kind.references = n'.kind.references := congrArg (·.2.2) houtline
    exact hg.references i n hn r (hreferences ▸ hr)
  · intro name i
    have hfind : g'.find? name = g.find? name := by rw [find?, hindex]; rfl
    rw [hfind, hg.agreement]
    constructor
    · rintro ⟨n, hn, rfl⟩
      obtain ⟨n', hn', houtline⟩ := hlater hn
      exact ⟨n', hn', congrArg (·.2.1) houtline⟩
    · rintro ⟨n', hn', rfl⟩
      obtain ⟨n, hn, houtline⟩ := horigin hn'
      exact ⟨n, hn, congrArg (·.2.1) houtline⟩

end WellFormed

end Graph

end Dataflow
