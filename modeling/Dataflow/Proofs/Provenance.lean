import Dataflow.Proofs.Preservation
import Dataflow.Proofs.Reachability

/-!
# Where unevaluated nodes come from

A node that is left in a result can be traced back to the node that was evaluated: it is retained
and reached from there, or it stands for an operation that was reached and left for later. Every
such operation was reported together with its copy. With enough steps, it was left for later only
because it reaches a retained node.
-/

namespace Dataflow

open State

theorem Context.mem_recordRead (c : Context) (id : NodeId) : id ∈ (c.recordRead id).reads := by
  unfold recordRead
  split
  · rename_i h; simpa using h
  · simp

/-- The name of the node that was dispatched, if the event reports that. -/
def Event.dispatched? : Event → Option String
  | .report (.entered _ name) => some name
  | _ => none

/-- The names of an operation that was left for later and of its copy, if the event reports that. -/
def Event.deferral? : Event → Option (String × String)
  | .report (.deferred name copy) => some (name, copy)
  | _ => none

namespace State

/-- The names of the nodes that were dispatched by what they are. -/
def dispatched (s : State) : List String := s.events.toList.filterMap Event.dispatched?

/-- The names of the operations that were left for later, with those of their copies. -/
def deferrals (s : State) : List (String × String) := s.events.toList.filterMap Event.deferral?

/-- It was reported that the node `m` was left for later, with the copy `n`. -/
def Defers (s : State) (m n : NodeId) : Prop :=
  ∃ a b, s.graph.node? m = some a ∧ s.graph.node? n = some b ∧ (a.name, b.name) ∈ s.deferrals

/-- The node reaches a retained node. -/
def Held (s : State) (id : NodeId) : Prop :=
  ∃ r, s.context.isRetained r = true ∧ s.graph.Reaches id r

/-- The operation refers to a node that reaches a retained node. -/
def HeldUp (s : State) (o : Operation) : Prop := ∃ r ∈ o.references, s.Held r

/-- Where the node `n` comes from if it is left in a result of the node `id`. -/
def Traced (s : State) (id n : NodeId) : Prop :=
  (s.graph.Reaches id n ∧ (n.index < id.index ∨ s.stays n = true)) ∨
    ∃ m, s.graph.Reaches id m ∧ s.Defers m n

/-- The name is that of a node that is not retained. -/
def Active (s : State) (name : String) : Prop :=
  ∃ id node, s.graph.node? id = some node ∧ node.name = name ∧ s.context.isRetained id = false

/-- The names are those of an operation and a copy of it. If there are `enough` steps, the operation
was left for later because it reaches a retained node. -/
def Justified (enough : Prop) (s : State) (names : String × String) : Prop :=
  ∃ m n a b o, s.graph.node? m = some a ∧ s.graph.node? n = some b ∧ (a.name, b.name) = names ∧
    a.kind = .operation o ∧ b.kind = .operation o ∧ n ∈ s.symbolic ∧ (enough → s.HeldUp o)

/-- What holds in every state of an evaluation. -/
structure Accounted (enough : Prop) (s : State) : Prop where
  graph : s.graph.WellFormed
  dispatched : ∀ name ∈ s.dispatched, s.Active name
  performed : ∀ r ∈ s.memo, s.context.isRetained r.1 = false
  traced : ∀ r ∈ s.memo, ∀ n ∈ r.2.nodes, s.Traced r.1 n
  deferred : ∀ names ∈ s.deferrals, s.Justified enough names
  symbolic : ∀ n ∈ s.symbolic, ∃ m, s.Defers m n
  /-- Copies are found in results only. -/
  unreferenced : ∀ a b, s.graph.Refers a b → b ∉ s.symbolic

/-- What relates a state to every later one with the same retained nodes. -/
structure Onward (s t : State) : Prop where
  graph : s.graph.Evolves t.graph
  /-- The nodes that were added are the copies. -/
  size : t.graph.size + s.symbolic.length = s.graph.size + t.symbolic.length
  symbolic : s.symbolic ⊆ t.symbolic
  deferrals : s.deferrals ⊆ t.deferrals
  retained : t.context.retained = s.context.retained

namespace Onward

variable {s t u : State} {id m n : NodeId}

theorem refl (s : State) : Onward s s :=
  ⟨.refl _, rfl, List.Subset.refl _, List.Subset.refl _, rfl⟩

theorem trans (h : Onward s t) (h' : Onward t u) : Onward s u where
  graph := h.graph.trans h'.graph
  size := by have := h.size; have := h'.size; omega
  symbolic := List.Subset.trans h.symbolic h'.symbolic
  deferrals := List.Subset.trans h.deferrals h'.deferrals
  retained := h'.retained.trans h.retained

theorem isRetained (h : Onward s t) (id : NodeId) :
    t.context.isRetained id = s.context.isRetained id := by
  simp [Context.isRetained, h.retained]

theorem stays (h : Onward s t) (hid : s.stays id = true) : t.stays id = true :=
  stays_iff.mpr ((stays_iff.mp hid).imp (h.symbolic ·) (h.isRetained id).trans)

theorem held (h : Onward s t) (hid : s.Held id) : t.Held id := by
  obtain ⟨r, hr, hreaches⟩ := hid
  exact ⟨r, (h.isRetained r).trans hr, hreaches.evolves h.graph⟩

theorem heldUp (h : Onward s t) {o : Operation} (ho : s.HeldUp o) : t.HeldUp o := by
  obtain ⟨r, hr, hheld⟩ := ho
  exact ⟨r, hr, h.held hheld⟩

theorem active (h : Onward s t) {name : String} (hname : s.Active name) : t.Active name := by
  obtain ⟨id, node, hnode, rfl, hretained⟩ := hname
  obtain ⟨node', hnode', hbare⟩ := h.graph.node? hnode
  exact ⟨id, node', hnode', Node.name_eq_of_bare hbare, (h.isRetained id).trans hretained⟩

theorem justified (h : Onward s t) {enough : Prop} {names : String × String}
    (hnames : s.Justified enough names) : t.Justified enough names := by
  obtain ⟨m, n, a, b, o, ha, hb, hname, hkind, hkind', hsymbolic, hheld⟩ := hnames
  exact ⟨m, n, a, b, o, h.graph.operation ha hkind, h.graph.operation hb hkind', hname, hkind,
    hkind', h.symbolic hsymbolic, fun henough => h.heldUp (hheld henough)⟩

theorem defers (h : Onward s t) (hm : s.Defers m n) : t.Defers m n := by
  obtain ⟨a, b, ha, hb, hnames⟩ := hm
  obtain ⟨a', ha', hbare⟩ := h.graph.node? ha
  obtain ⟨b', hb', hbare'⟩ := h.graph.node? hb
  -- Names do not change.
  have hname : a'.name = a.name := Node.name_eq_of_bare hbare
  have hname' : b'.name = b.name := Node.name_eq_of_bare hbare'
  exact ⟨a', b', ha', hb', by rw [hname, hname']; exact h.deferrals hnames⟩

theorem traced (h : Onward s t) (hn : s.Traced id n) : t.Traced id n := by
  rcases hn with ⟨hreaches, hrest⟩ | ⟨m, hreaches, hdefers⟩
  · exact .inl ⟨hreaches.evolves h.graph, hrest.imp_right h.stays⟩
  · exact .inr ⟨m, hreaches.evolves h.graph, h.defers hdefers⟩

end Onward

/-- What relates a state to a later one in the same context, if only operations were performed
between them that `root` reaches. -/
structure Traces (root : NodeId) (s t : State) : Prop extends Onward s t where
  reads : s.context.reads ⊆ t.context.reads
  memo : ∀ r ∈ t.memo, r ∈ s.memo ∨ t.graph.Reaches root r.1

namespace Traces

variable {root : NodeId} {s t u : State}

theorem refl (root : NodeId) (s : State) : Traces root s s :=
  { Onward.refl s with
    reads := List.Subset.refl _
    memo := fun _ hr => .inl hr }

theorem trans (h : Traces root s t) (h' : Traces root t u) : Traces root s u :=
  { h.toOnward.trans h'.toOnward with
    reads := List.Subset.trans h.reads h'.reads
    memo := fun r hr => by
      rcases h'.memo r hr with hr | hr
      · exact (h.memo r hr).imp_right (·.evolves h'.graph)
      · exact .inr hr }

/-- What is reached from a node is reached from every node that reaches it. -/
theorem of_reaches {origin : NodeId} (h : Traces root s t) (hroot : s.graph.Reaches origin root) :
    Traces origin s t :=
  { h with memo := fun r hr => (h.memo r hr).imp_right ((hroot.evolves h.graph).trans ·) }

end Traces

/-- The regime of evaluating a node. -/
def tracing (enough : Prop) (root : NodeId) : Regime where
  inv := Accounted enough
  step := Traces root
  refl := Traces.refl root
  trans := Traces.trans

theorem tracing_from {α : Type} {enough : Prop} {origin root : NodeId} {c : Settings} {s : State}
    {x : Eval α} {Q : Except Failure α → State → Prop} (h : (tracing enough root).Ensures c s x Q)
    (hroot : s.graph.Reaches origin root) : (tracing enough origin).Ensures c s x Q := by
  intro hs
  obtain ⟨ht, hst, hQ⟩ := h hs
  exact ⟨ht, Traces.of_reaches hst hroot, hQ⟩

/-! ## Tracing back -/

section Back

variable {enough : Prop} {s : State} {id m n : NodeId}

/-- What is left of a node that `id` reaches may be left of `id`. -/
theorem Traced.trans (hs : s.graph.WellFormed) (hm : s.graph.Reaches id m) (hn : s.Traced m n) :
    s.Traced id n := by
  rcases hn with ⟨hreaches, hrest⟩ | ⟨k, hreaches, hdefers⟩
  · exact .inl ⟨hm.trans hreaches,
      hrest.imp_left fun hlt => Nat.lt_of_lt_of_le hlt (hm.index_le hs)⟩
  · exact .inr ⟨k, hm.trans hreaches, hdefers⟩

theorem Traced.of_refers (hs : s.graph.WellFormed) (h : s.graph.Refers id n) : s.Traced id n :=
  .inl ⟨.of_refers h, .inl (hs.lt_of_refers h)⟩

theorem Traced.self (h : s.stays id = true) : s.Traced id id :=
  .inl ⟨.refl _ id, .inr h⟩

namespace Accounted

theorem defers (hs : Accounted enough s) (h : s.Defers m n) : ∃ a b o,
    s.graph.node? m = some a ∧ s.graph.node? n = some b ∧ a.kind = .operation o ∧
      b.kind = .operation o ∧ n ∈ s.symbolic ∧ (enough → s.HeldUp o) := by
  obtain ⟨a, b, ha, hb, hnames⟩ := h
  obtain ⟨m', n', a', b', o, ha', hb', heq, hkind, hkind', hsymbolic, hheld⟩ :=
    hs.deferred _ hnames
  -- The names in the report belong to one node each.
  obtain ⟨hname, hname'⟩ := Prod.mk.inj heq
  obtain rfl := hs.graph.names m' m a' a ha' ha hname
  obtain rfl := hs.graph.names n' n b' b hb' hb hname'
  cases ha.symm.trans ha'
  cases hb.symm.trans hb'
  exact ⟨a, b, o, ha, hb, hkind, hkind', hsymbolic, hheld⟩

theorem held_of_heldUp {node : Node} {o : Operation} (hnode : s.graph.node? id = some node)
    (hkind : node.kind = .operation o) (h : s.HeldUp o) : s.Held id := by
  obtain ⟨r, hr, k, hk, hreaches⟩ := h
  exact ⟨k, hk, .head (.of_operation hnode hkind hr) hreaches⟩

theorem held_of_defers (hs : Accounted enough s) (henough : enough) (h : s.Defers m n) :
    s.Held m := by
  obtain ⟨a, b, o, ha, -, hkind, -, -, hheld⟩ := hs.defers h
  exact held_of_heldUp ha hkind (hheld henough)

theorem held_of_symbolic (hs : Accounted enough s) (henough : enough) (h : n ∈ s.symbolic) :
    s.Held n := by
  obtain ⟨m, hdefers⟩ := hs.symbolic n h
  obtain ⟨a, b, o, -, hb, -, hkind, -, hheld⟩ := hs.defers hdefers
  exact held_of_heldUp hb hkind (hheld henough)

/-- A copy is reached only from itself. -/
theorem eq_of_reaches (hs : Accounted enough s) (h : s.graph.Reaches id n) (hn : n ∈ s.symbolic) :
    n = id := by
  rcases Relation.ReflTransGen.cases_tail h with heq | ⟨k, -, hrefers⟩
  · exact heq
  · exact absurd hn (hs.unreferenced k n hrefers)

/-- Whatever stays unevaluated of a node does so because the node reaches a retained one. -/
theorem held_of_traced (hs : Accounted enough s) (henough : enough) (h : s.Traced id n)
    (hstays : s.stays n = true) : s.Held id := by
  rcases h with ⟨hreaches, -⟩ | ⟨m, hreaches, hdefers⟩
  · rcases stays_iff.mp hstays with hsymbolic | hretained
    · exact hs.eq_of_reaches hreaches hsymbolic ▸ hs.held_of_symbolic henough hsymbolic
    · exact ⟨n, hretained, hreaches⟩
  · obtain ⟨r, hr, hreaches'⟩ := hs.held_of_defers henough hdefers
    exact ⟨r, hr, hreaches.trans hreaches'⟩

/-- A node that is left in a result and goes on to be run is reached, and lies further back. -/
theorem reaches_of_traced (hs : Accounted enough s) (h : s.Traced id n)
    (hstays : s.stays n = false) : s.graph.Reaches id n ∧ n.index < id.index := by
  rcases h with ⟨hreaches, hlt | hn⟩ | ⟨m, -, hdefers⟩
  · exact ⟨hreaches, hlt⟩
  · simp [hn] at hstays
  · obtain ⟨_, _, _, _, _, _, _, hsymbolic, _⟩ := hs.defers hdefers
    simp [stays_iff.mpr (.inl hsymbolic)] at hstays

/-- A node that stays unevaluated is retained and reached, or it is a copy: the node itself or that
of a node that is reached. -/
theorem retained_or_copy (hs : Accounted enough s) (h : s.Traced id n) (hstays : s.stays n = true) :
    (s.context.isRetained n = true ∧ s.graph.Reaches id n) ∨
      (n ∈ s.symbolic ∧ (n = id ∨ ∃ m, s.graph.Reaches id m ∧ s.Defers m n)) := by
  rcases h with ⟨hreaches, -⟩ | ⟨m, hreaches, hdefers⟩
  · rcases stays_iff.mp hstays with hsymbolic | hretained
    · exact .inr ⟨hsymbolic, .inl (hs.eq_of_reaches hreaches hsymbolic)⟩
    · exact .inl ⟨hretained, hreaches⟩
  · obtain ⟨_, _, _, _, _, _, _, hsymbolic, _⟩ := hs.defers hdefers
    exact .inr ⟨hsymbolic, .inr ⟨m, hreaches, hdefers⟩⟩

end Accounted

end Back

/-! ## Single changes -/

/-- What holds of earlier reports and results goes on to hold, so only new ones have to be looked
at. -/
theorem Accounted.extend {enough : Prop} {s t : State} (hs : Accounted enough s) (h : Onward s t)
    (hgraph : t.graph.WellFormed)
    (hdispatched : ∀ name ∈ t.dispatched, name ∈ s.dispatched ∨ t.Active name)
    (hmemo : ∀ r ∈ t.memo, r ∈ s.memo ∨
      t.context.isRetained r.1 = false ∧ ∀ n ∈ r.2.nodes, t.Traced r.1 n)
    (hdeferred : ∀ names ∈ t.deferrals, names ∈ s.deferrals ∨ t.Justified enough names)
    (hsymbolic : ∀ n ∈ t.symbolic, n ∈ s.symbolic ∨ ∃ m, t.Defers m n)
    (hunreferenced : ∀ a b, t.graph.Refers a b → b ∉ t.symbolic) : Accounted enough t where
  graph := hgraph
  dispatched name hname :=
    (hdispatched name hname).elim (fun hold => h.active (hs.dispatched name hold)) id
  performed r hr := by
    rcases hmemo r hr with hold | ⟨hretained, -⟩
    · exact (h.isRetained r.1).trans (hs.performed r hold)
    · exact hretained
  traced r hr n hn := by
    rcases hmemo r hr with hold | ⟨-, htraced⟩
    · exact h.traced (hs.traced r hold n hn)
    · exact htraced n hn
  deferred names hnames :=
    (hdeferred names hnames).elim (fun hold => h.justified (hs.deferred names hold)) id
  symbolic n hn := by
    rcases hsymbolic n hn with hold | hnew
    · obtain ⟨m, hdefers⟩ := hs.symbolic n hold
      exact ⟨m, h.defers hdefers⟩
    · exact hnew
  unreferenced := hunreferenced

/-- Nothing was dispatched, performed or left for later. -/
structure Plain (s t : State) : Prop where
  graph : s.graph.Evolves t.graph
  wellFormed : s.graph.WellFormed → t.graph.WellFormed
  size : t.graph.size = s.graph.size
  memo : t.memo = s.memo
  symbolic : t.symbolic = s.symbolic
  retained : t.context.retained = s.context.retained
  reads : s.context.reads ⊆ t.context.reads
  dispatched : t.dispatched = s.dispatched
  deferrals : t.deferrals = s.deferrals

namespace Plain

variable {enough : Prop} {s t : State}

theorem onward (h : Plain s t) : Onward s t where
  graph := h.graph
  size := by rw [h.size, h.symbolic]
  symbolic := by simp [h.symbolic]
  deferrals := by simp [h.deferrals]
  retained := h.retained

theorem traces (h : Plain s t) (root : NodeId) : Traces root s t :=
  { h.onward with
    reads := h.reads
    memo := fun _ hr => .inl (h.memo ▸ hr) }

theorem accounted (h : Plain s t) (hs : Accounted enough s) : Accounted enough t :=
  hs.extend h.onward (h.wellFormed hs.graph) (fun _ hname => .inl (h.dispatched ▸ hname))
    (fun _ hr => .inl (h.memo ▸ hr)) (fun _ hnames => .inl (h.deferrals ▸ hnames))
    (fun _ hn => .inl (h.symbolic ▸ hn)) fun a b hrefers => by
      -- No node was added, so the node refers to the same ones as before.
      have hlt : a.index < s.graph.size := h.size ▸ hrefers.lt_size
      rw [h.symbolic]
      exact hs.unreferenced a b (hrefers.of_evolves h.graph hlt)

/-- An event that reports nothing of the kind. -/
theorem emit (s : State) {e : Event} (hdispatched : e.dispatched? = none)
    (hdeferral : e.deferral? = none) : Plain s { s with events := s.events.push e } where
  graph := .refl _
  wellFormed h := h
  size := rfl
  memo := rfl
  symbolic := rfl
  retained := rfl
  reads := List.Subset.refl _
  dispatched := by simp [State.dispatched, hdispatched]
  deferrals := by simp [State.deferrals, hdeferral]

theorem recordRead (s : State) (id : NodeId) :
    Plain s { s with context := s.context.recordRead id } where
  graph := .refl _
  wellFormed h := h
  size := rfl
  memo := rfl
  symbolic := rfl
  retained := by unfold Context.recordRead; split <;> rfl
  reads := by unfold Context.recordRead; split <;> simp
  dispatched := rfl
  deferrals := rfl

theorem compute (s : State) (args : Arguments) (backend : Backend) :
    Plain s { s with
      rng := (args.compute backend s.rng).rng
      events := s.events ++ ((args.compute backend s.rng).reports.map Event.report).toArray } where
  graph := .refl _
  wellFormed h := h
  size := rfl
  memo := rfl
  symbolic := rfl
  retained := rfl
  reads := List.Subset.refl _
  dispatched := by
    have hreports : ∀ r ∈ (args.compute backend s.rng).reports,
        (Event.report r).dispatched? = none := by
      intro _ hr
      obtain ⟨_, _, rfl⟩ | ⟨_, _, _, rfl⟩ := Arguments.mem_compute_reports hr <;> rfl
    simpa [State.dispatched, List.filterMap_map, List.filterMap_eq_nil_iff] using hreports
  deferrals := by
    have hreports : ∀ r ∈ (args.compute backend s.rng).reports,
        (Event.report r).deferral? = none := by
      intro _ hr
      obtain ⟨_, _, rfl⟩ | ⟨_, _, _, rfl⟩ := Arguments.mem_compute_reports hr <;> rfl
    simpa [State.deferrals, List.filterMap_map, List.filterMap_eq_nil_iff] using hreports

theorem wrote (s : State) (w : Option Write) : Plain s (s.wrote w) where
  graph := by rw [wrote_graph]; exact .replay ..
  wellFormed h := by rw [wrote_graph]; exact h.replay _
  size := by simp
  memo := wrote_memo s w
  symbolic := wrote_symbolic s w
  retained := by simp
  reads := by simp
  dispatched := by cases w <;> simp [State.wrote, State.dispatched, Event.dispatched?]
  deferrals := by cases w <;> simp [State.wrote, State.deferrals, Event.deferral?]

end Plain

section Changes

variable {enough : Prop} {root : NodeId} {s : State} {g : Graph} {id copy : NodeId} {node : Node}
variable {o : Operation}

variable (root) in
/-- The state after a node was dispatched. -/
theorem Accounted.dispatch (hs : Accounted enough s) (hnode : s.graph.node? id = some node)
    (hretained : s.context.isRetained id = false) (kind : String) :
    Accounted enough { s with events := s.events.push (.report (.entered kind node.name)) } ∧
      Traces root s { s with events := s.events.push (.report (.entered kind node.name)) } := by
  have hdeferrals : State.deferrals
      { s with events := s.events.push (.report (.entered kind node.name)) } = s.deferrals := by
    simp [State.deferrals, Event.deferral?]
  have honward : Onward s
      { s with events := s.events.push (.report (.entered kind node.name)) } :=
    ⟨.refl _, rfl, List.Subset.refl _, by rw [hdeferrals]; exact List.Subset.refl _, rfl⟩
  refine ⟨hs.extend honward hs.graph (fun name hname => ?_) (fun _ hr => .inl hr)
    (fun _ hnames => .inl (hdeferrals ▸ hnames)) (fun _ hn => .inl hn) hs.unreferenced,
    { honward with
      reads := List.Subset.refl _
      memo := fun _ hr => .inl hr }⟩
  simp only [State.dispatched, Array.toList_push, List.filterMap_append, List.mem_append] at hname
  refine hname.imp_right fun hname => ⟨id, node, hnode, ?_, hretained⟩
  simpa [Event.dispatched?, eq_comm] using hname

/-- The state after an operation was left for later. -/
theorem Accounted.defer (hs : Accounted enough s) (hnode : s.graph.node? id = some node)
    (hkind : node.kind = .operation o) (hadd : s.graph.addDeferred id o = .ok (g, copy))
    {added : Node} (hadded : g.node? copy = some added) (hheld : enough → s.HeldUp o) :
    let t := { s.withCopy g copy with
      events := s.events.push (.report (.deferred node.name added.name)) }
    Accounted enough t ∧ Traces root s t ∧ t.Defers id copy := by
  intro t
  obtain ⟨hextends, hsize, hcopy, added', hadded', hkind'⟩ := Graph.addDeferred_copy hadd
  cases hadded.symm.trans hadded'
  have hnode' := hextends.node? hnode
  have hdispatched : t.dispatched = s.dispatched := by
    simp [t, State.dispatched, Event.dispatched?]
  have hdeferrals : t.deferrals = s.deferrals ++ [(node.name, added.name)] := by
    simp [t, State.deferrals, Event.deferral?]
  have honward : Onward s t :=
    { graph := .of_extends hextends
      size := by simp [t, withCopy, hsize]; omega
      symbolic := List.subset_cons_self ..
      deferrals := by rw [hdeferrals]; exact List.subset_append_left ..
      retained := rfl }
  have hdefers : t.Defers id copy := ⟨node, added, hnode', hadded, by simp [hdeferrals]⟩
  refine ⟨hs.extend honward (hs.graph.addDeferred hnode hkind hadd)
    (fun _ hname => .inl (hdispatched ▸ hname)) (fun _ hr => .inl hr) (fun names hnames => ?_)
    (fun n hn => ?_) (fun a b hrefers => ?_),
    { honward with
      reads := List.Subset.refl _
      memo := fun _ hr => .inl hr }, hdefers⟩
  · rw [hdeferrals] at hnames
    refine (List.mem_append.mp hnames).imp_right fun hnew => ?_
    exact ⟨id, copy, node, added, o, hnode', hadded, (List.mem_singleton.mp hnew).symm, hkind,
      hkind', List.mem_cons_self, fun henough => honward.heldUp (hheld henough)⟩
  · rcases List.mem_cons.mp hn with rfl | hold
    · exact .inr ⟨id, hdefers⟩
    · exact .inl hold
  · -- The copy refers to what the operation refers to, and nothing refers to the copy.
    have hold : ∃ i, s.graph.Refers i b := by
      have hlt : a.index < g.size := hrefers.lt_size
      by_cases ha : a.index < s.graph.size
      · exact ⟨a, hrefers.of_evolves honward.graph ha⟩
      · have heq : a = copy := by cases a; cases copy; simp_all; omega
        exact ⟨id, .of_operation hnode hkind (Graph.Refers.operation (heq ▸ hrefers) hadded hkind')⟩
    obtain ⟨i, hi⟩ := hold
    have hlt := Nat.lt_trans (hs.graph.lt_of_refers hi) hi.lt_size
    have hne : b ≠ copy := by rintro rfl; omega
    simpa [t, withCopy, hne] using hs.unreferenced i b hi

/-- The state after a result was remembered. -/
theorem Accounted.remember (hs : Accounted enough s) (hretained : s.context.isRetained id = false)
    {out : Output} (htraced : ∀ n ∈ out.nodes, s.Traced id n) :
    let t := s.recorded id out
    Accounted enough t ∧ Traces id s t := by
  intro t
  have honward : Onward s t :=
    ⟨.refl _, rfl, List.Subset.refl _, List.Subset.refl _, rfl⟩
  refine ⟨hs.extend honward hs.graph (fun _ hname => .inl hname) (fun r hr => ?_)
    (fun _ hnames => .inl hnames) (fun _ hn => .inl hn) hs.unreferenced,
    { honward with
      reads := List.Subset.refl _
      memo := fun r hr => ?_ }⟩
  · rcases List.mem_cons.mp hr with rfl | hold
    · exact .inr ⟨hretained, fun n hn => honward.traced (htraced n hn)⟩
    · exact .inl hold
  · rcases List.mem_cons.mp hr with rfl | hold
    · exact .inr (.refl _ id)
    · exact .inl hold

end Changes

end State

end Dataflow
