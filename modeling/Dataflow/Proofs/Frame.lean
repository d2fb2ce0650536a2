import Dataflow.Proofs.Conduct
import Dataflow.Proofs.Naming
import Dataflow.Proofs.Session

/-!
# What evaluations change

An evaluator changes nothing in its graph but the values of variables, and adds nothing to it but
copies of operations, one of each operation at most: an operation is left for later when it has no
result, and has one from then on.
-/

namespace Dataflow

variable (lib : Library Rng)

open State

namespace Graph

/-- The node `copy` is an operation that was left for later in the place of the operation
`origin`. -/
def Copies (g : Graph) (origin copy : NodeId) : Prop :=
  ∃ node added o, g.node? origin = some node ∧ g.node? copy = some added ∧
    node.kind = .operation o ∧ added.kind = .operation o ∧
    added.dtype = node.dtype ∧ added.shape = node.shape ∧
    g.NamedFor copy s!"{o.op.tag}_deferred"

/-- The nodes that are operations. -/
def operations (g : Graph) : List NodeId :=
  (List.range g.size).map NodeId.mk |>.filter fun id =>
    match (g.node? id).map Node.kind with
    | some (.operation _) => true
    | _ => false

variable {g g' : Graph} {id origin copy : NodeId} {node : Node} {o : Operation}

theorem mem_operations (hnode : g.node? id = some node) (hkind : node.kind = .operation o) :
    id ∈ g.operations := by
  refine List.mem_filter.mpr ⟨?_, by simp [hnode, hkind]⟩
  exact List.mem_map.mpr ⟨id.index, List.mem_range.mpr (lt_size_of_node? hnode), rfl⟩

theorem Copies.evolves (h : g.Copies origin copy) (hg : g.Evolves g') : g'.Copies origin copy := by
  obtain ⟨node, added, o, hnode, hadded, hkind, hkind', hdtype, hshape, hnamed⟩ := h
  exact ⟨node, added, o, hg.operation hnode hkind, hg.operation hadded hkind', hkind, hkind',
    hdtype, hshape, hnamed.evolves hg⟩

theorem WellFormed.copies_addDeferred (hg : g.WellFormed) (hnode : g.node? id = some node)
    (hkind : node.kind = .operation o) (hadd : g.addDeferred id o = .ok (g', copy)) :
    g'.Copies id copy := by
  have hextends := (addDeferred_copy hadd).1
  obtain ⟨node', hnode', hinsert⟩ := addDeferred_eq_ok.mp hadd
  cases hnode.symm.trans hnode'
  cases hinsert
  exact ⟨node, _, o, hextends.node? hnode, (node?_insert ..).trans (if_pos rfl), hkind, rfl, rfl,
    rfl, hg.namedFor_insert ..⟩

end Graph

namespace State

/-- The graph has come from `base`: the copies are the nodes after those of `base`, and each is the
result of the operation that it was left in the place of. -/
structure Framed (base : Graph) (s : State) : Prop where
  graph : base.Evolves s.graph
  symbolic : ∀ id, id ∈ s.symbolic ↔ base.size ≤ id.index ∧ id.index < s.graph.size
  copied : ∀ copy ∈ s.symbolic, ∃ origin, origin.index < base.size ∧
    (origin, .node copy) ∈ s.memo ∧ s.graph.Copies origin copy

namespace Framed

variable {base : Graph} {s t : State} {id : NodeId} {o : Operation}

/-- Values may be stored and results may be remembered. -/
theorem mono (hs : Framed base s) (hgraph : s.graph.Evolves t.graph)
    (hsize : t.graph.size = s.graph.size) (hsymbolic : t.symbolic = s.symbolic)
    (hmemo : s.memo ⊆ t.memo) : Framed base t where
  graph := hs.graph.trans hgraph
  symbolic := by simpa [hsymbolic, hsize] using hs.symbolic
  copied copy hcopy := by
    obtain ⟨origin, hlt, hmem, hcopies⟩ := hs.copied copy (hsymbolic ▸ hcopy)
    exact ⟨origin, hlt, hmemo hmem, hcopies.evolves hgraph⟩

theorem alike (hs : Framed base s) (h : Alike s t) : Framed base t :=
  hs.mono (h.graph ▸ .refl _) (by rw [h.graph]) h.symbolic (by simp [h.memo])

/-- The copy of an operation is its result from then on. -/
theorem copy (hs : Framed base s) (hwell : s.graph.WellFormed) {node : Node}
    (hnode : s.graph.node? id = some node) (hkind : node.kind = .operation o)
    (hsymbolic : s.isSymbolic id = false) {copy : NodeId}
    (hadd : s.graph.addDeferred id o = .ok (t.graph, copy))
    (hadded : t.symbolic = copy :: s.symbolic) (hmemo : t.memo = (id, .node copy) :: s.memo) :
    Framed base t := by
  obtain ⟨hextends, hsize, hcopy, -⟩ := Graph.addDeferred_copy hadd
  have hlt := Graph.lt_size_of_node? hnode
  have hbase := hs.graph.size_le
  have hnew : copy.index = s.graph.size := hcopy
  refine ⟨hs.graph.trans (.of_extends hextends), fun i => ?_, fun i hi => ?_⟩
  · have hi : i = copy ↔ i.index = s.graph.size := by
      rw [← hnew]
      exact ⟨congrArg _, fun h => by cases i; cases copy; simp_all⟩
    rw [hadded, List.mem_cons, hs.symbolic, hi, hsize]
    omega
  · rw [hmemo]
    rcases List.mem_cons.mp (hadded ▸ hi) with rfl | hi
    · -- The operation is no copy itself, so it was there from the start.
      have horigin : id.index < base.size := by
        by_contra hge
        have hmem := (hs.symbolic id).mpr ⟨Nat.le_of_not_lt hge, hlt⟩
        simp [isSymbolic, hmem] at hsymbolic
      exact ⟨id, horigin, List.mem_cons_self, hwell.copies_addDeferred hnode hkind hadd⟩
    · obtain ⟨origin, horigin, hmem, hcopies⟩ := hs.copied i hi
      exact ⟨origin, horigin, List.mem_cons_of_mem _ hmem,
        hcopies.evolves (.of_extends hextends)⟩

end Framed

end State

namespace Conduct

/-- The conduct of an evaluator over the graph `base`. -/
def framed (base : Graph) : Conduct where
  inv := Framed base
  gives _ _ _ := True
  left _ _ := True

theorem framed_lawful (base : Graph) (c : Settings) : (framed base).Lawful c where
  alike h hs := hs.alike h
  leaves _ _ _ := trivial
  lasts _ _ := trivial
  retained _ _ := trivial
  missing _ _ _ := trivial
  leaf _ _ _ _ := trivial
  reference _ _ _ _ _ := trivial
  remembered _ _ := trivial
  failed _ _ := trivial
  performed {id node o y s out t} h hrun _ := by
    refine ⟨?_, trivial⟩
    have hbase : Framed base s := h.inv
    cases h.changes hrun with
    | none halike =>
      exact (hbase.alike halike).mono (.refl _) rfl rfl (List.subset_cons_self ..)
    | stored _ _ hstore events =>
      obtain ⟨n, -, hg⟩ := h.coherent.graph.store_eq hstore .set
      dsimp only at hg
      subst hg
      exact hbase.mono (.replay ..) (Graph.size_replay ..) rfl (List.subset_cons_self ..)
    | copied hsymbolic hadd events =>
      exact hbase.copy h.coherent.graph h.found h.kind hsymbolic hadd rfl rfl
  later _ _ _ _ := trivial
  blocked _ _ _ _ := trivial

end Conduct

namespace State

variable {base : Graph} {s : State}

theorem framed_start (g : Graph) (context : Context) (config : Config) (spare : UInt64) :
    Framed g (.start lib g context config spare) where
  graph := .refl g
  symbolic id := by
    show id ∈ [] ↔ _ ∧ id.index < g.size
    simp
  copied copy hcopy := by cases hcopy

/-- A node that is there either was there from the start or is a copy, and then an operation. -/
theorem Framed.isVariable (hs : Framed base s) {id : NodeId} (hid : s.graph.IsVariable id) :
    base.IsVariable id := by
  obtain ⟨node, stored, hnode, hkind⟩ := hid
  by_cases hlt : id.index < base.size
  · obtain ⟨n, hn, hbare⟩ := hs.graph.exists_before hlt hnode
    obtain ⟨stored', hkind'⟩ := Node.exists_variable_of_bare hbare.symm hkind
    exact ⟨n, stored', hn, hkind'⟩
  · have hcopy := (hs.symbolic id).mpr ⟨Nat.le_of_not_lt hlt, Graph.lt_size_of_node? hnode⟩
    obtain ⟨-, -, -, -, added, o, -, hadded, -, hkind', -⟩ := hs.copied id hcopy
    cases hnode.symm.trans hadded
    cases hkind.symm.trans hkind'

/-- Every copy has an origin of its own, since an operation has one result at most. -/
theorem Framed.exists_origin (hs : Framed base s) (hcoherent : Coherent (fun _ => True) s) :
    ∃ origin : NodeId → NodeId,
      (∀ copy ∈ s.symbolic, (origin copy).index < base.size ∧
        s.graph.Copies (origin copy) copy) ∧
      ∀ a ∈ s.symbolic, ∀ b ∈ s.symbolic, origin a = origin b → a = b := by
  classical
  choose! origin hlt hmem hcopies using hs.copied
  refine ⟨origin, fun copy hcopy => ⟨hlt copy hcopy, hcopies copy hcopy⟩, fun a ha b hb heq => ?_⟩
  have hlookup := lookup_of_mem hcoherent.once (hmem a ha)
  rw [heq, lookup_of_mem hcoherent.once (hmem b hb)] at hlookup
  cases hlookup
  rfl

theorem Framed.size_le (hs : Framed base s) (hcoherent : Coherent (fun _ => True) s) :
    s.graph.size ≤ base.size + base.operations.length := by
  obtain ⟨origin, horigin, hinjective⟩ := hs.exists_origin hcoherent
  let copies := (List.range' base.size (s.graph.size - base.size)).map NodeId.mk
  have hcopies : ∀ copy ∈ copies, copy ∈ s.symbolic := by
    intro copy hcopy
    obtain ⟨i, hi, rfl⟩ := List.mem_map.mp hcopy
    have := List.mem_range'_1.mp hi
    exact (hs.symbolic ⟨i⟩).mpr ⟨this.1, by dsimp only; omega⟩
  have hnodup : (copies.map origin).Nodup := by
    refine List.Nodup.map_on (fun a ha b hb => hinjective a (hcopies a ha) b (hcopies b hb)) ?_
    exact (List.nodup_range' 1).map fun _ _ h => by cases h; rfl
  have hsubset : copies.map origin ⊆ base.operations := by
    intro id hid
    obtain ⟨copy, hcopy, rfl⟩ := List.mem_map.mp hid
    obtain ⟨hlt, node, -, o, hnode, -, hkind, -⟩ := horigin copy (hcopies copy hcopy)
    exact Graph.mem_operations (hs.graph.operation_before hlt hnode hkind) hkind
  have hlength := (hnodup.subperm hsubset).length_le
  have hle := hs.graph.size_le
  simp only [copies, List.length_map, List.length_range'] at hlength
  omega

/-- A session keeps to the frame of the graph that it began with. -/
theorem framed_after {g : Graph} (hg : g.WellFormed) (context : Context) (config : Config)
    (spare : UInt64) (c : Settings) (session : Session) :
    (Conduct.framed g).regime.inv ((State.start lib g context config spare).after c session) :=
  (Conduct.framed_lawful g c).after
    (fun _ _ hs => Framed.mono hs (.refl _) rfl rfl (List.Subset.refl _)) session
    ⟨coherent_start lib hg context config spare, framed_start lib g context config spare⟩

/-- Whatever calls were made, with whatever contexts, the nodes that an evaluator started with are
still the same up to what is stored in variables, and the nodes that were added are its symbolic
ones: copies of operations that were there, no two of the same operation. A call changes nothing in
its context but the reads, which it extends by variables that had not been read. -/
theorem session_frame {g : Graph} (hg : g.Reached) (context : Context) (config : Config)
    (spare : UInt64) (c : Settings) (session : Session) (context' : Context) (call : Call) :
    let t := ((State.start lib g context config spare).after c session).call c context' call
    (∀ id node, g.node? id = some node →
      ∃ node', t.graph.node? id = some node' ∧ node'.bare = node.bare) ∧
    (∀ id, t.isSymbolic id = true ↔ g.size ≤ id.index ∧ id.index < t.graph.size) ∧
    (∃ origin : NodeId → NodeId,
      (∀ copy, t.isSymbolic copy = true →
        (origin copy).index < g.size ∧ t.graph.Copies (origin copy) copy) ∧
      ∀ a b, t.isSymbolic a = true → t.isSymbolic b = true → origin a = origin b → a = b) ∧
    t.graph.size ≤ g.size + g.operations.length ∧
    t.context.bindings = context'.bindings ∧ t.context.retained = context'.retained ∧
    ∃ new, t.context.reads = context'.reads ++ new ∧ new.Nodup ∧
      ∀ id ∈ new, id ∉ context'.reads ∧ g.IsVariable id := by
  intro t
  obtain ⟨hs, hframed⟩ := framed_after lib hg.wellFormed context config spare c session
  obtain ⟨⟨hcoherent, ht⟩, hst, -⟩ := (Conduct.framed_lawful g c).call call
    ⟨hs.with_context context', Framed.mono hframed (.refl _) rfl rfl (List.Subset.refl _)⟩
  have ht : Framed g t := ht
  have hsymbolic : ∀ id, t.isSymbolic id = true ↔ id ∈ t.symbolic := by simp [isSymbolic]
  obtain ⟨origin, horigin, hinjective⟩ := ht.exists_origin hcoherent
  obtain ⟨new, hnew, honce, hvariables⟩ := Advances.reads hst
  refine ⟨fun id node hnode => ht.graph.node? hnode, by simpa [hsymbolic] using ht.symbolic,
    ⟨origin, by simpa [hsymbolic] using horigin, fun a b ha hb =>
      hinjective a ((hsymbolic a).mp ha) b ((hsymbolic b).mp hb)⟩,
    ht.size_le hcoherent, Advances.bindings hst, Advances.retained hst, new, hnew, honce,
    fun id hid => ⟨(hvariables id hid).1, ht.isVariable (hvariables id hid).2⟩⟩

/-- An operation on a retained placeholder is left for later once, however often it is evaluated. -/
theorem session_frame_negate :
    let g := Graph.ofSteps [.placeholder "x" .int32 none, .variable "v" .int32 none,
      .operation "y" ⟨.kernel (.unary .negate), [⟨0⟩], .empty⟩]
    let context := Context.empty.retain ⟨0⟩
    let t := ((State.start .standard g .empty .standard 0).after ⟨32, .cpu⟩
      [(context, .complete ⟨2⟩), (.empty, .run ⟨1⟩)]).call ⟨32, .cpu⟩ context (.run ⟨2⟩)
    t.isSymbolic ⟨3⟩ = true ∧ t.graph.size = 4 ∧
      t.graph.size ≤ g.size + g.operations.length ∧ t.context.retained = context.retained :=
  have h := session_frame .standard (Graph.built_ofSteps _).reached .empty .standard 0 ⟨32, .cpu⟩
    [(Context.empty.retain ⟨0⟩, .complete ⟨2⟩), (.empty, .run ⟨1⟩)] (Context.empty.retain ⟨0⟩)
    (.run ⟨2⟩)
  ⟨rfl, rfl, h.2.2.2.1, h.2.2.2.2.2.1⟩

end State

end Dataflow
