import Dataflow.Proofs.Tracing

/-!
# Two runs side by side

A second run, which starts in another state, is shown to give the same results as a first run that
succeeds. What relates the states of the two runs is left open; it has to be kept by each single
change of the state, and by the operations when they are looked up or performed.
-/

namespace Dataflow

open State

theorem Graph.watched?_eq_of_bare {g g' : Graph} {id : NodeId} {n n' : Node}
    (hn : g.node? id = some n) (hn' : g'.node? id = some n') (hbare : n'.bare = n.bare) :
    g'.watched? id = g.watched? id := by
  have hname : n'.name = n.name := Node.name_eq_of_bare hbare
  have hwatched : n'.watched = n.watched := by rw [← Node.bare_watched, hbare, Node.bare_watched]
  simp [watched?, hn, hn', hname, hwatched]

theorem Graph.watched?_eq_none {g : Graph} (h : ∀ node ∈ g.nodes, node.watched = false)
    (id : NodeId) : g.watched? id = none := by
  cases hn : g.node? id with
  | none => simp [watched?, hn]
  | some n => simp [watched?, hn, h n (Array.mem_of_getElem? hn)]

/-- How the states of two runs are related. -/
structure Simulation where
  /-- The graph that the first run has come from, and the nodes of it that may be evaluated. -/
  origin : Graph
  within : NodeId → Prop
  /-- The variables that the first run may read. -/
  readable : NodeId → Prop
  /-- What relates a state of the first run to the state of the second. -/
  rel : State → State → Prop
  /-- What relates a state of either run to its later states. -/
  step : State → State → Prop

namespace Simulation

/-- Both runs have gone on, from related states to related states. -/
structure Leads (sim : Simulation) (s s' t t' : State) : Prop where
  rel : sim.rel t t'
  left : sim.step s t
  right : sim.step s' t'

/-- What is known of every state of the first run. -/
structure Ready (sim : Simulation) (enough : Prop) (s : State) : Prop
    extends Accounted enough s where
  origin : sim.origin.Evolves s.graph

theorem Ready.later {sim : Simulation} {enough : Prop} {s t : State} (hs : sim.Ready enough s)
    (ht : Accounted enough t) (hst : Onward s t) : sim.Ready enough t :=
  { ht with origin := hs.origin.trans hst.graph }

end Simulation

/-- If the computation `x` succeeds in the state `s`, and has read only what may be read, then `x'`
gives the same result in every related state. -/
structure Simulates {α : Type} (sim : Simulation) (c : Settings) (s : State) (x x' : Eval α) :
    Prop where
  reads : s.context.reads ⊆ (x c s).2.context.reads
  result : ∀ a t s', x c s = (.ok a, t) → (∀ i ∈ t.context.reads, sim.readable i) → sim.rel s s' →
    ∃ t', x' c s' = (.ok a, t') ∧ sim.Leads s s' t t'

/-- What a simulation has to keep to. -/
structure Simulation.Lawful (sim : Simulation) (enough : Prop) (c : Settings) : Prop where
  refl : ∀ s, sim.step s s
  trans : ∀ {s t u}, sim.step s t → sim.step t u → sim.step s u
  known : ∀ id, sim.within id → id.index < sim.origin.size
  closed : ∀ a b, sim.within a → sim.origin.Refers a b → sim.within b
  steps : ∀ id, sim.within id → enough → id.index < c.maxIterations
  symbolic : ∀ {s s'}, sim.rel s s' → s'.symbolic = s.symbolic
  retained : ∀ {s s'}, sim.rel s s' → s'.context.retained = s.context.retained
  bindings : ∀ {s s'}, sim.rel s s' → s'.context.bindings = s.context.bindings
  /-- The two graphs differ in stored values only, and not in those that may be read. -/
  node : ∀ {s s'}, sim.rel s s' → ∀ {id n}, sim.within id → s.graph.node? id = some n →
    ∃ n', s'.graph.node? id = some n' ∧ n'.bare = n.bare ∧ (sim.readable id → n' = n)
  unwatched : ∀ id, sim.within id → sim.origin.watched? id = none
  report : ∀ {s s'}, sim.rel s s' → ∀ {r}, (Event.report r).write? = none →
    sim.Leads s s' { s with events := s.events.push (.report r) }
      { s' with events := s'.events.push (.report r) }
  recordRead : ∀ {s s'}, sim.rel s s' → ∀ id,
    sim.Leads s s' { s with context := s.context.recordRead id }
      { s' with context := s'.context.recordRead id }
  compute : ∀ {s id n o args}, sim.Ready enough s → sim.within id → s.graph.node? id = some n →
    n.kind = .operation o → o.op = .kernel args.kernel →
    Simulates sim c s (.compute args) (.compute args)
  /-- An operation is left for later in both runs, if at all. -/
  defer : ∀ {s id n o}, sim.Ready enough s → sim.within id → s.graph.node? id = some n →
    n.kind = .operation o → (enough → s.HeldUp o) → Simulates sim c s (.defer id o) (.defer id o)
  write : ∀ {s id n o update target v}, sim.Ready enough s → sim.within id →
    s.graph.node? id = some n → n.kind = .operation o → o.op = .control (.assign update) →
    o.operands[0]? = some target →
    Simulates sim c s (.write update target v) (.write update target v)

namespace Simulation.Lawful

variable {sim : Simulation} {enough : Prop} {c : Settings} {s s' : State}

theorem isRetained (laws : sim.Lawful enough c) (hs : sim.rel s s') (id : NodeId) :
    s'.context.isRetained id = s.context.isRetained id := by
  simp [Context.isRetained, laws.retained hs]

theorem stays (laws : sim.Lawful enough c) (hs : sim.rel s s') (id : NodeId) :
    s'.stays id = s.stays id := by
  simp [State.stays, isSymbolic, laws.symbolic hs, laws.isRetained hs]

/-- A breakpoint does not come or go while a graph evolves. -/
theorem watched?_left (laws : sim.Lawful enough c) (hs : sim.Ready enough s) {id : NodeId}
    (hid : sim.within id) : s.graph.watched? id = none := by
  obtain ⟨n, hn⟩ := Graph.exists_node?_of_lt (laws.known id hid)
  obtain ⟨m, hm, hbare⟩ := hs.origin.node? hn
  exact (Graph.watched?_eq_of_bare hn hm hbare).trans (laws.unwatched id hid)

theorem watched?_right (laws : sim.Lawful enough c) (hs : sim.Ready enough s) {id : NodeId}
    (hid : sim.within id) (hs' : sim.rel s s') : s'.graph.watched? id = none := by
  have hleft := laws.watched?_left hs hid
  obtain ⟨n, hn⟩ := Graph.exists_node?_of_lt (laws.known id hid)
  obtain ⟨m, hm, -⟩ := hs.origin.node? hn
  obtain ⟨m', hm', hbare, -⟩ := laws.node hs' hid hm
  exact (Graph.watched?_eq_of_bare hm hm' hbare).trans hleft

end Simulation.Lawful

namespace Simulates

variable {α β : Type} {sim : Simulation} {enough : Prop} {c : Settings} {s t : State} {id : NodeId}

theorem fail (e : Failure) {x' : Eval α} : Simulates sim c s (.fail e) x' where
  reads := List.Subset.refl _
  result _ _ _ h := by cases h

theorem state {f f' : State → Eval α} (hf : ∀ s', sim.rel s s' → f' s' = f' s)
    (h : Simulates sim c s (f s) (f' s)) : Simulates sim c s (Eval.state >>= f) (Eval.state >>= f')
    where
  reads := h.reads
  result a t s' hrun hreads hs' := by
    rw [Eval.state_bind_run, hf s' hs']
    exact h.result a t s' hrun hreads hs'

theorem of_eq {x x' y z : Eval α} (h : x c s = y c s) (h' : ∀ s', sim.rel s s' → x' c s' = z c s')
    (hy : Simulates sim c s y z) : Simulates sim c s x x' where
  reads := by rw [h]; exact hy.reads
  result a t s' hrun hreads hs' := by
    rw [h' s' hs']
    exact hy.result a t s' (h.symm.trans hrun) hreads hs'

theorem settings {f f' : Settings → Eval α} (h : Simulates sim c s (f c) (f' c)) :
    Simulates sim c s (Eval.settings >>= f) (Eval.settings >>= f') :=
  of_eq (y := f c) (z := f' c) rfl (fun _ _ => rfl) h

section Rules

variable (laws : sim.Lawful enough c)

include laws

theorem pure (a : α) : Simulates sim c s (pure a) (pure a) where
  reads := List.Subset.refl _
  result b t s' h _ hs' := by
    obtain ⟨hb, rfl⟩ := Prod.mk.inj h
    exact ⟨s', Prod.ext hb rfl, hs', laws.refl _, laws.refl _⟩

theorem stays {f f' : Bool → Eval α} (h : Simulates sim c s (f (s.stays id)) (f' (s.stays id))) :
    Simulates sim c s (Eval.stays id >>= f) (Eval.stays id >>= f') := by
  refine of_eq (y := f (s.stays id)) (z := f' (s.stays id)) rfl (fun s' hs' => ?_) h
  rw [← laws.stays hs' id]
  rfl

/-- After changes of the two states. -/
theorem of_moved {x x' y z : Eval α} (h : x c s = y c t)
    (hreads : s.context.reads ⊆ t.context.reads)
    (h' : ∀ s', sim.rel s s' → ∃ t', x' c s' = z c t' ∧ sim.Leads s s' t t')
    (hy : Simulates sim c t y z) : Simulates sim c s x x' where
  reads := by rw [h]; exact List.Subset.trans hreads hy.reads
  result a u s' hrun hu hs' := by
    obtain ⟨t', hrun', ht'⟩ := h' s' hs'
    obtain ⟨u', hresult, hu'⟩ := hy.result a u t' (h.symm.trans hrun) hu ht'.rel
    exact ⟨u', hrun'.trans hresult, hu'.rel, laws.trans ht'.left hu'.left,
      laws.trans ht'.right hu'.right⟩

theorem report {r : Report} (hr : (Event.report r).write? = none) {k k' : Unit → Eval α}
    (h : Simulates sim c { s with events := s.events.push (.report r) } (k ()) (k' ())) :
    Simulates sim c s (Eval.report r >>= k) (Eval.report r >>= k') :=
  of_moved laws (y := k ()) (z := k' ()) rfl (List.Subset.refl _)
    (fun _ hs' => ⟨_, rfl, laws.report hs' hr⟩) h

theorem recordRead {k k' : Unit → Eval α}
    (h : Simulates sim c { s with context := s.context.recordRead id } (k ()) (k' ())) :
    Simulates sim c s (Eval.recordRead id >>= k) (Eval.recordRead id >>= k') :=
  of_moved laws (y := k ()) (z := k' ()) rfl (Plain.recordRead s id).reads
    (fun _ hs' => ⟨_, rfl, laws.recordRead hs' id⟩) h

/-- The node that is looked up may store something else in the second run, if it may not be read. -/
theorem node (hid : sim.within id) {f f' : Node → Eval α}
    (h : ∀ n n', s.graph.node? id = some n → n'.bare = n.bare → (sim.readable id → n' = n) →
      Simulates sim c s (f n) (f' n')) :
    Simulates sim c s (Eval.node id >>= f) (Eval.node id >>= f') := by
  cases hnode : s.graph.node? id with
  | none =>
    exact of_eq (y := .fail (.noSuchNode id.index)) (z := Eval.node id >>= f')
      (Eval.bind_run_error (Eval.node_run_none hnode)) (fun _ _ => rfl) (.fail _)
  | some n =>
    have hrun : (Eval.node id >>= f) c s = f n c s := Eval.bind_run_ok (Eval.node_run_some hnode)
    refine ⟨by rw [hrun]; exact (h n n hnode rfl fun _ => rfl).reads,
      fun a t s' hresult hreads hs' => ?_⟩
    obtain ⟨n', hnode', hbare, hreadable⟩ := laws.node hs' hid hnode
    rw [Eval.bind_run_ok (Eval.node_run_some hnode')]
    exact (h n n' hnode hbare hreadable).result a t s' (hrun ▸ hresult) hreads hs'

/-- The rest of a sequence is performed in states that the beginning leads to. -/
theorem bind {x x' : Eval α} {f f' : α → Eval β} {root : NodeId}
    {P : Except Failure α → State → Prop} (hs : sim.Ready enough s) (hx : Simulates sim c s x x')
    (hu : (tracing enough root).Ensures c s x P)
    (hf : ∀ a t, sim.Ready enough t → Traces root s t → P (.ok a) t →
      Simulates sim c t (f a) (f' a)) : Simulates sim c s (x >>= f) (x' >>= f') := by
  obtain ⟨ht, hst, hP⟩ := hu hs.toAccounted
  cases hrun : x c s with
  | mk r t =>
    rw [hrun] at ht hst hP
    cases r with
    | error e =>
      have hbind : (x >>= f) c s = (.error e, t) := Eval.bind_run_error hrun
      refine ⟨by rw [hbind]; exact Traces.reads hst, fun a u s' hresult => ?_⟩
      rw [hbind] at hresult
      cases hresult
    | ok a =>
      have hbind : (x >>= f) c s = f a c t := Eval.bind_run_ok hrun
      have hrest := hf a t (hs.later ht (Traces.toOnward hst)) hst hP
      refine ⟨by rw [hbind]; exact List.Subset.trans (Traces.reads hst) hrest.reads,
        fun b u s' hresult hreads hs' => ?_⟩
      rw [hbind] at hresult
      -- What was read up to the middle has been read in the end.
      have hread : u = (f a c t).2 := by rw [hresult]
      obtain ⟨t', hrun', ht'⟩ := hx.result a t s' hrun
        (fun i hi => hreads i (hread ▸ hrest.reads hi)) hs'
      obtain ⟨u', hrest', hu'⟩ := hrest.result b u t' hresult hreads ht'.rel
      exact ⟨u', (Eval.bind_run_ok hrun').trans hrest', hu'.rel, laws.trans ht'.left hu'.left,
        laws.trans ht'.right hu'.right⟩

end Rules

end Simulates

/-! ## Operands -/

namespace Earlier

variable {earlier earlier' : Earlier} {sim : Simulation} {enough : Prop} {c : Settings}
variable {bound : Nat} {s t : State} {id r : NodeId} {node : Node} {o : Operation}

/-- The nodes below `bound` are evaluated by `earlier'` as they are by `earlier`. -/
structure Paired (earlier earlier' : Earlier) (sim : Simulation) (enough : Prop) (c : Settings)
    (bound : Nat) : Prop where
  tracked : earlier.Tracked enough c bound
  run : ∀ id s, id.index < bound → sim.within id → sim.Ready enough s →
    Simulates sim c s (earlier.run id) (earlier'.run id)
  complete : ∀ id s, id.index < bound → sim.within id → sim.Ready enough s →
    Simulates sim c s (earlier.complete id) (earlier'.complete id)

theorem within_of_refers (laws : sim.Lawful enough c) (hs : sim.Ready enough s)
    (hid : sim.within id) (hr : s.graph.Refers id r) : sim.within r :=
  laws.closed id r hid (hr.of_evolves hs.origin (laws.known id hid))

theorem within_of_reaches (laws : sim.Lawful enough c) (hs : sim.Ready enough s)
    (hid : sim.within id) (hr : s.graph.Reaches id r) : sim.within r :=
  hr.closed hid fun _ _ => within_of_refers laws hs

section Operands

-- The operands of the node `id` are evaluated in both runs.
variable (laws : sim.Lawful enough c) (h : earlier.Paired earlier' sim enough c id.index)
variable (hid : sim.within id)

include laws h hid

theorem complete_simulates (hs : sim.Ready enough s) (hr : s.graph.Refers id r) :
    Simulates sim c s (earlier.complete r) (earlier'.complete r) :=
  h.complete r s (hs.graph.lt_of_refers hr) (within_of_refers laws hs hid hr) hs

theorem resolve_simulates (hs : sim.Ready enough s) (hr : s.graph.Refers id r) :
    Simulates sim c s (earlier.resolve r) (earlier'.resolve r) :=
  .bind laws hs (complete_simulates laws h hid hs hr)
    (complete_traced h.tracked (laws.steps id hid) hr) fun _ _ _ _ _ => .pure laws _

theorem resolveAll_simulates (hs : sim.Ready enough s) {ids : List NodeId}
    (hids : ∀ r ∈ ids, s.graph.Refers id r) :
    Simulates sim c s (earlier.resolveAll ids) (earlier'.resolveAll ids) := by
  induction ids generalizing s with
  | nil => exact .pure laws _
  | cons r ids ih =>
    have hr := hids r List.mem_cons_self
    refine .bind laws hs (resolve_simulates laws h hid hs hr)
      (resolve_traced h.tracked (laws.steps id hid) hr) fun v t ht hst _ => ?_
    have hids := fun n hn => (hids n (List.mem_cons_of_mem r hn)).evolves hst.graph
    cases v with
    | none => exact .pure laws _
    | some v =>
      refine .bind laws ht (ih ht hids) (resolveAll_traced h.tracked (laws.steps id hid) hids)
        fun vs u _ _ _ => ?_
      cases vs <;> exact .pure laws _

theorem resolveOption_simulates (hs : sim.Ready enough s) {option : OptionValue}
    (hids : ∀ r ∈ option.references, s.graph.Refers id r) :
    Simulates sim c s (earlier.resolveOption option) (earlier'.resolveOption option) := by
  cases option with
  | value v => exact .pure laws _
  | dtype t => exact .pure laws _
  | node r =>
    have hr := hids r (by simp [OptionValue.references])
    exact .bind laws hs (resolve_simulates laws h hid hs hr)
      (resolve_traced h.tracked (laws.steps id hid) hr) fun _ _ _ _ _ => .pure laws _
  | nodes ids =>
    exact .bind laws hs (resolveAll_simulates laws h hid hs hids)
      (resolveAll_traced h.tracked (laws.steps id hid) hids) fun _ _ _ _ _ => .pure laws _

theorem resolveOptions_simulates (hs : sim.Ready enough s) {entries : List (String × OptionValue)}
    (hids : ∀ entry ∈ entries, ∀ r ∈ entry.2.references, s.graph.Refers id r) :
    Simulates sim c s (earlier.resolveOptions entries) (earlier'.resolveOptions entries) := by
  induction entries generalizing s with
  | nil => exact .pure laws _
  | cons entry entries ih =>
    obtain ⟨key, option⟩ := entry
    have hoption := hids _ List.mem_cons_self
    refine .bind laws hs (resolveOption_simulates laws h hid hs hoption)
      (resolveOption_traced h.tracked (laws.steps id hid) hoption) fun v t ht hst _ => ?_
    have hids := fun e he r hr => (hids e (List.mem_cons_of_mem _ he) r hr).evolves hst.graph
    cases v with
    | none => exact .pure laws _
    | some v =>
      refine .bind laws ht (ih ht hids) (resolveOptions_traced h.tracked (laws.steps id hid) hids)
        fun vs u _ _ _ => ?_
      cases vs <;> exact .pure laws _

theorem gather_simulates (hs : sim.Ready enough s) {kernel : Kernel}
    (hids : ∀ r ∈ o.references, s.graph.Refers id r) :
    Simulates sim c s (earlier.gather id kernel o) (earlier'.gather id kernel o) := by
  have hoperands : ∀ r ∈ o.operands, s.graph.Refers id r :=
    fun r hr => hids r (List.mem_append_left _ hr)
  refine .bind laws hs (resolveAll_simulates laws h hid hs hoperands)
    (resolveAll_traced h.tracked (laws.steps id hid) hoperands) fun vs t ht hst _ => ?_
  cases vs with
  | none => exact .pure laws _
  | some vs =>
    have hoptions : ∀ entry ∈ o.options.entries, ∀ r ∈ entry.2.references, t.graph.Refers id r :=
      fun entry hentry r hr =>
        (hids r (Operation.mem_references_of_entry hentry hr)).evolves hst.graph
    refine .bind laws ht (resolveOptions_simulates laws h hid ht hoptions)
      (resolveOptions_traced h.tracked (laws.steps id hid) hoptions) fun rs u _ _ _ => ?_
    cases rs with
    | none => exact .pure laws _
    | some rs =>
      refine .node laws hid fun n n' _ hbare _ => ?_
      rw [Node.dtype_eq_of_bare hbare]
      exact .pure laws _

theorem each_simulates (hs : sim.Ready enough s) {ids : List NodeId}
    (hids : ∀ r ∈ ids, s.graph.Refers id r) :
    Simulates sim c s (Eval.each earlier.complete ids) (Eval.each earlier'.complete ids) := by
  induction ids generalizing s with
  | nil => exact .pure laws _
  | cons r ids ih =>
    have hr := hids r List.mem_cons_self
    refine .bind laws hs (complete_simulates laws h hid hs hr)
      (complete_traced h.tracked (laws.steps id hid) hr) fun out t ht hst _ => ?_
    have hids := fun n hn => (hids n (List.mem_cons_of_mem r hn)).evolves hst.graph
    exact .bind laws ht (ih ht hids) (each_traced h.tracked (laws.steps id hid) hids)
      fun _ _ _ _ _ => .pure laws _

end Operands

/-- An operand that is missing is missing in both runs. -/
theorem operand_simulates {α : Type} {i : Nat} {k k' : NodeId → Eval α}
    (hk : ∀ r, o.operands[i]? = some r → Simulates sim c s (k r) (k' r)) :
    Simulates sim c s (operand o i >>= k) (operand o i >>= k') := by
  unfold operand
  split
  · rename_i r hr
    exact hk r hr
  · exact .of_eq (y := .fail _) (z := .fail _) (Eval.bind_run_error rfl)
      (fun _ _ => Eval.bind_run_error rfl) (.fail _)

/-! ## Operations -/

section Operations

variable (laws : sim.Lawful enough c) (h : earlier.Paired earlier' sim enough c id.index)
variable (hid : sim.within id) (hs : sim.Ready enough s)
variable (hnode : s.graph.node? id = some node) (hkind : node.kind = .operation o)

include laws h hid hs hnode hkind

theorem identity_simulates {i : Nat} : Simulates sim c s
    (do earlier.complete (← operand o i)) (do earlier'.complete (← operand o i)) :=
  operand_simulates fun _ hr => complete_simulates laws h hid hs
    (.of_operation hnode hkind (Operation.mem_references_of_operand hr))

theorem flowGroup_simulates : Simulates sim c s (earlier.flowGroup o) (earlier'.flowGroup o) := by
  have hids : ∀ r ∈ o.members, s.graph.Refers id r :=
    fun r hr => .of_operation hnode hkind (Operation.references_of_mem_members hr)
  exact .bind laws hs (each_simulates laws h hid hs hids)
    (each_traced h.tracked (laws.steps id hid) hids) fun _ _ _ _ _ => .pure laws _

theorem print_simulates : Simulates sim c s (earlier.print o) (earlier'.print o) := by
  refine operand_simulates fun input hinput => ?_
  have hr : s.graph.Refers id input :=
    .of_operation hnode hkind (Operation.mem_references_of_operand hinput)
  exact .bind laws hs (complete_simulates laws h hid hs hr)
    (complete_traced h.tracked (laws.steps id hid) hr) fun _ _ _ _ _ =>
    .report laws rfl (.pure laws _)

theorem assign_simulates {update : Update} (hop : o.op = .control (.assign update)) :
    Simulates sim c s (earlier.assign id o update) (earlier'.assign id o update) := by
  refine operand_simulates fun target htarget => operand_simulates fun source hsource => ?_
  have hrefers : ∀ {r}, r ∈ o.references → s.graph.Refers id r :=
    fun hr => .of_operation hnode hkind hr
  have hsource := Operation.mem_references_of_operand hsource
  have htarget' := Operation.mem_references_of_operand htarget
  -- The source is evaluated before the target, and either of them may be left for later.
  refine .bind laws hs (resolve_simulates laws h hid hs (hrefers hsource))
    (resolve_traced h.tracked (laws.steps id hid) (hrefers hsource)) fun v t ht hst hv => ?_
  have hnode := hst.graph.operation hnode hkind
  cases v with
  | none =>
    exact laws.defer ht hid hnode hkind fun henough => ⟨source, hsource, hv henough rfl⟩
  | some v =>
    dsimp only
    split
    · exact laws.write ht hid hnode hkind hop htarget
    · have hr := (hrefers htarget').evolves hst.graph
      refine .bind laws ht (resolve_simulates laws h hid ht hr)
        (resolve_traced h.tracked (laws.steps id hid) hr) fun old u hu htu hold => ?_
      have hnode := htu.graph.operation hnode hkind
      cases old with
      | none =>
        exact laws.defer hu hid hnode hkind fun henough => ⟨target, htarget', hold henough rfl⟩
      | some old =>
        dsimp only
        split
        · exact laws.write hu hid hnode hkind hop htarget
        · exact .fail _

theorem cond_simulates : Simulates sim c s (earlier.cond id o) (earlier'.cond id o) := by
  unfold cond
  dsimp only
  split
  · rename_i pred hpred
    have hmem := Operation.mem_references_of_option hpred List.mem_cons_self
    have hr : s.graph.Refers id pred := .of_operation hnode hkind hmem
    refine .bind laws hs (resolve_simulates laws h hid hs hr)
      (resolve_traced h.tracked (laws.steps id hid) hr) fun v t ht hst hv => ?_
    have hnode := hst.graph.operation hnode hkind
    cases v with
    | some v => exact identity_simulates laws h hid ht hnode hkind
    | none => exact laws.defer ht hid hnode hkind fun henough => ⟨pred, hmem, hv henough rfl⟩
  · exact identity_simulates laws h hid hs hnode hkind
  · exact .fail _

theorem perform_simulates : Simulates sim c s (earlier.perform id o) (earlier'.perform id o) := by
  unfold perform
  split
  · rename_i update hop
    exact assign_simulates laws h hid hs hnode hkind hop
  · exact flowGroup_simulates laws h hid hs hnode hkind
  · exact identity_simulates laws h hid hs hnode hkind
  · exact identity_simulates laws h hid hs hnode hkind
  · exact print_simulates laws h hid hs hnode hkind
  · exact cond_simulates laws h hid hs hnode hkind
  · exact .fail _
  · rename_i kernel hop
    have hids : ∀ r ∈ o.references, s.graph.Refers id r :=
      fun r hr => .of_operation hnode hkind hr
    refine .bind laws hs (gather_simulates laws h hid hs hids)
      (gather_traced h.tracked (laws.steps id hid) hids) fun args t ht hst hargs => ?_
    have hnode := hst.graph.operation hnode hkind
    cases args with
    | some args =>
      exact laws.compute ht hid hnode hkind (by rw [hargs.2 args rfl]; exact hop)
    | none => exact laws.defer ht hid hnode hkind fun henough => hargs.1 henough rfl

end Operations

/-! ## Running nodes -/

theorem runNode_simulates (laws : sim.Lawful enough c)
    (h : earlier.Paired earlier' sim enough c bound) (hlt : id.index ≤ bound) (hid : sim.within id)
    (hs : sim.Ready enough s)
    (hoperation : ∀ t node o, sim.Ready enough t → t.graph.node? id = some node →
      node.kind = .operation o → t.context.isRetained id = false → Simulates sim c t
        (earlier.runOperation id node.name (.operation o))
        (earlier'.runOperation id node.name (.operation o))) :
    Simulates sim c s (earlier.runNode id) (earlier'.runNode id) := by
  refine .state (fun s' hs' => by simp only [laws.isRetained hs']) ?_
  split
  · exact .pure laws _
  · rename_i hretained
    have hretained : s.context.isRetained id = false := by simpa using hretained
    refine .node laws hid fun node node' hnode hbare hreadable => ?_
    have hname : node'.name = node.name := Node.name_eq_of_bare hbare
    have hlabel : node'.kind.label = node.kind.label := by
      rw [← Node.bare_label, hbare, Node.bare_label]
    have ht : ∀ kind : String, sim.Ready enough
        { s with events := s.events.push (.report (.entered kind node.name)) } := by
      intro kind
      obtain ⟨ht, hst⟩ := hs.toAccounted.dispatch id hnode hretained kind
      exact hs.later ht hst.toOnward
    rw [hname, hlabel]
    refine .report laws rfl ?_
    -- Only a variable may differ in the second run, and only if it may not be read.
    have hsame : (∀ stored, node.kind ≠ .variable stored) → node' = node :=
      Node.eq_of_bare_eq_of_not_variable hbare
    cases hkind : node.kind with
    | literal v =>
      rw [hsame (by simp [hkind]), hkind]
      exact .pure laws _
    | reference target =>
      rw [hsame (by simp [hkind]), hkind]
      have hr : s.graph.Refers id target := ⟨node, hnode, by simp [hkind, NodeKind.references]⟩
      exact h.run target _ (Nat.lt_of_lt_of_le (hs.graph.lt_of_refers hr) hlt)
        (within_of_refers laws hs hid hr) (ht _)
    | «variable» stored =>
      cases stored with
      | none => exact .fail _
      | some v =>
        by_cases hid : sim.readable id
        · rw [hreadable hid, hkind]
          exact .recordRead laws (.pure laws _)
        · refine ⟨(Plain.recordRead _ id).reads, fun a t s' hrun hreads _ => ?_⟩
          obtain ⟨-, rfl⟩ := Prod.mk.inj hrun
          exact absurd (hreads id (Context.mem_recordRead ..)) hid
    | placeholder =>
      rw [hsame (by simp [hkind]), hkind]
      refine .state (fun s' hs' => ?_) ?_
      · simp only [Context.binding?, laws.bindings hs']
      · split
        · exact .pure laws _
        · exact .fail _
    | operation o =>
      rw [hsame (by simp [hkind]), hkind]
      exact hoperation _ node o (ht _) hnode hkind hretained

/-! ## Completing nodes -/

/-- The nodes of an output are completed in both runs. -/
structure CompletesAlike (sim : Simulation) (enough : Prop) (c : Settings) (root : NodeId)
    (complete complete' : NodeId → Eval Output) (K : NodeId → State → Prop) (s : State)
    (n : NodeId) : Prop where
  left : Output.CompletesTo (tracing enough root) c complete K s n
  both : ∀ t, sim.Ready enough t → Traces root s t → t.stays n = false →
    Simulates sim c t (complete n) (complete' n)

theorem CompletesAlike.later {root n : NodeId} {complete complete' : NodeId → Eval Output}
    {K : NodeId → State → Prop}
    (h : CompletesAlike sim enough c root complete complete' K s n) (hst : Traces root s t) :
    CompletesAlike sim enough c root complete complete' K t n where
  left := h.left.later hst
  both u hu htu := h.both u hu (hst.trans htu)

section Completing

variable (laws : sim.Lawful enough c) {root : NodeId} {complete complete' : NodeId → Eval Output}
variable {K : NodeId → State → Prop} (hlasts : ∀ k t u, Traces root t u → K k t → K k u)

include laws hlasts

mutual

theorem completeWith_simulates : ∀ (o : Output) (s : State), sim.Ready enough s →
    (∀ n ∈ o.nodes, CompletesAlike sim enough c root complete complete' K s n) →
    Simulates sim c s (o.completeWith complete) (o.completeWith complete')
  | .value v, s, _, _ => .pure laws _
  | .node id, s, hs, h => by
    refine .stays laws ?_
    split
    · exact .pure laws _
    · rename_i hstays
      exact (h id List.mem_cons_self).both s hs (.refl root s) (by simpa using hstays)
  | .list items, s, hs, h =>
    .bind laws hs (completeItemsWith_simulates items s hs h)
      (Output.completeItemsWith_ensures hlasts items s fun n hn => (h n hn).left)
      fun _ _ _ _ _ => .pure laws _

theorem completeItemsWith_simulates : ∀ (os : List Output) (s : State), sim.Ready enough s →
    (∀ n ∈ Output.nodesOfItems os, CompletesAlike sim enough c root complete complete' K s n) →
    Simulates sim c s (Output.completeItemsWith complete os)
      (Output.completeItemsWith complete' os)
  | [], s, _, _ => .pure laws _
  | o :: os, s, hs, h => by
    have hfirst := fun n hn => h n (List.mem_append_left _ hn)
    refine .bind laws hs (completeWith_simulates o s hs hfirst)
      (Output.completeWith_ensures hlasts o s fun n hn => (hfirst n hn).left)
      fun r t ht hst _ => ?_
    have hrest := fun n hn => (h n (List.mem_append_right _ hn)).later hst
    exact .bind laws ht (completeItemsWith_simulates os t ht hrest)
      (Output.completeItemsWith_ensures hlasts os t fun n hn => (hrest n hn).left)
      fun _ _ _ _ _ => .pure laws _

end

end Completing

theorem completeOutput_simulates (laws : sim.Lawful enough c)
    (h : earlier.Paired earlier' sim enough c bound) (hlt : id.index ≤ bound) (hid : sim.within id)
    (hs : sim.Ready enough s) {out : Output} (htraced : ∀ n ∈ out.nodes, s.Traced id n) :
    Simulates sim c s (out.completeWith earlier.complete) (out.completeWith earlier'.complete) := by
  refine completeWith_simulates (K := fun k t => t.Traced id k ∧ (enough → t.stays k = true)) laws
    (fun _ _ _ (hst : Traces id _ _) => lasts_traced hst) out s hs fun n hn =>
    ⟨?_, fun t ht hst hstays => ?_⟩
  · exact completesTo_traced h.tracked hlt (laws.steps id hid) (htraced n hn)
  · obtain ⟨hreaches, hback⟩ := ht.reaches_of_traced (hst.traced (htraced n hn)) hstays
    exact h.complete n t (by omega) (within_of_reaches laws ht hid hreaches) ht

theorem force_simulates (laws : sim.Lawful enough c)
    (h : earlier.Paired earlier' sim enough c bound)
    (hrun : ∀ id s, id.index ≤ bound → sim.within id → sim.Ready enough s →
      Simulates sim c s (earlier.runNode id) (earlier'.runNode id))
    {origin last : NodeId} (horigin : sim.within origin) {remaining : Nat} {current : Output}
    (hlt : last.index ≤ bound) (hlast : sim.within last) (hs : sim.Ready enough s)
    (htraced : ∀ n ∈ current.nodes, s.Traced last n) :
    Simulates sim c s (earlier.force origin remaining last current)
      (earlier'.force origin remaining last current) := by
  -- The result that one turn leaves is where the next one begins.
  induction remaining using Nat.strongRecOn generalizing last current s with
  | ind remaining ih =>
  cases current with
  | value v =>
    rw [force_value, force_value]
    exact .pure laws _
  | list items =>
    rw [force_list, force_list]
    exact completeOutput_simulates laws h hlt hlast hs htraced
  | node next =>
    rw [force_node, force_node]
    refine .stays laws ?_
    split
    · exact .pure laws _
    · rename_i hgoes
      cases remaining with
      | zero =>
        refine .settings (.node laws horigin fun n n' _ hbare _ => ?_)
        rw [Node.name_eq_of_bare hbare]
        exact .report laws rfl (.pure laws _)
      | succ remaining =>
        obtain ⟨hreaches, hback⟩ := hs.reaches_of_traced (htraced next List.mem_cons_self)
          (by simpa using (not_or.mp hgoes).2)
        have hnext := within_of_reaches laws hs hlast hreaches
        exact .bind laws hs (hrun next s (by omega) hnext hs)
          (runNode_traced h.tracked (by omega) (laws.steps next hnext))
          fun out t ht _ hout => ih remaining (by omega) (by omega) hnext ht hout

theorem completeNode_simulates (laws : sim.Lawful enough c)
    (h : earlier.Paired earlier' sim enough c bound)
    (hrun : ∀ id s, id.index ≤ bound → sim.within id → sim.Ready enough s →
      Simulates sim c s (earlier.runNode id) (earlier'.runNode id))
    (hlt : id.index ≤ bound) (hid : sim.within id) (hs : sim.Ready enough s) :
    Simulates sim c s (earlier.completeNode id) (earlier'.completeNode id) :=
  .bind laws hs (hrun id s hlt hid hs) (runNode_traced h.tracked hlt (laws.steps id hid))
    fun _ _ ht _ hfirst => .settings (force_simulates laws h hrun hid hlt hid ht hfirst)

/-! ## Running operations -/

/-- Without a breakpoint, the result that was performed is remembered, and that is all. -/
theorem runOperation_eq_ok {name : String} {out : Output} {u : State}
    (hmiss : s.memo.lookup id = none)
    (hunwatched : ∀ a t, earlier.perform id o c s = (.ok a, t) → t.graph.watched? id = none) :
    earlier.runOperation id name (.operation o) c s = (.ok out, u) ↔
      ∃ t, earlier.perform id o c s = (.ok out, t) ∧
        u = t.recorded id out := by
  cases hperform : earlier.perform id o c s with
  | mk r t =>
    cases r with
    | error e => simp [runOperation_error hmiss hperform]
    | ok a =>
      rw [runOperation_ok hmiss hperform (fire_unwatched (hunwatched a t hperform))]
      simp only [Prod.mk.injEq, Except.ok.injEq]
      constructor
      · rintro ⟨rfl, rfl⟩
        exact ⟨t, ⟨rfl, rfl⟩, rfl⟩
      · rintro ⟨_, ⟨rfl, rfl⟩, rfl⟩
        exact ⟨rfl, rfl⟩

theorem runOperation_simulates_of_hit (laws : sim.Lawful enough c) {name : String} {known : Output}
    (hknown : s.memo.lookup id = some known)
    (hknown' : ∀ s', sim.rel s s' → s'.memo.lookup id = some known) :
    Simulates sim c s (earlier.runOperation id name (.operation o))
      (earlier'.runOperation id name (.operation o)) :=
  .of_moved laws (y := pure known) (z := pure known) (runOperation_hit hknown)
    (List.Subset.refl _) (fun s' hs' => ⟨_, runOperation_hit (hknown' s' hs'), laws.report hs' rfl⟩)
    (.pure laws known)

section Running

variable (laws : sim.Lawful enough c) (htracked : earlier.Tracked enough c id.index)
variable (hid : sim.within id) (hs : sim.Ready enough s)
variable (hnode : s.graph.node? id = some node) (hkind : node.kind = .operation o)

include laws htracked hid hs hnode hkind

theorem reads_runOperation (hretained : s.context.isRetained id = false) {name : String} :
    s.context.reads ⊆ (earlier.runOperation id name (.operation o) c s).2.context.reads := by
  have hensures : (tracing enough id).Ensures c s (earlier.runOperation id name (.operation o)) _ :=
    runOperation_traced htracked (laws.steps id hid) hnode hkind hretained
  obtain ⟨-, hst, -⟩ := hensures hs.toAccounted
  exact Traces.reads hst

variable (hmiss : s.memo.lookup id = none)

include hmiss

/-- The first run performs the operation. -/
theorem exists_perform_of_runOperation {name : String} {out : Output} {u : State}
    (hrun : earlier.runOperation id name (.operation o) c s = (.ok out, u)) : ∃ t,
      earlier.perform id o c s = (.ok out, t) ∧ u = t.recorded id out ∧
        sim.Ready enough t := by
  have hready : ∀ a t, earlier.perform id o c s = (.ok a, t) → sim.Ready enough t := by
    intro a t hperform
    obtain ⟨ht, hst, -⟩ := perform_traced htracked (laws.steps id hid) hnode hkind hs.toAccounted
    rw [hperform] at ht hst
    exact hs.later ht (Traces.toOnward hst)
  obtain ⟨t, hperform, rfl⟩ := (runOperation_eq_ok hmiss fun a t hperform =>
    laws.watched?_left (hready a t hperform) hid).mp hrun
  exact ⟨t, hperform, rfl, hready out t hperform⟩

/-- What the first run performs, the second run performs as well if it does not know the result. -/
theorem runOperation_simulates_of_miss (hretained : s.context.isRetained id = false) {name : String}
    (hperform : Simulates sim c s (earlier.perform id o) (earlier'.perform id o))
    (hmiss' : ∀ s', sim.rel s s' → s'.memo.lookup id = none)
    (hremember : ∀ t t' out, sim.rel t t' → sim.Leads t t' (t.recorded id out)
      (t'.recorded id out)) :
    Simulates sim c s (earlier.runOperation id name (.operation o))
      (earlier'.runOperation id name (.operation o)) := by
  refine ⟨reads_runOperation laws htracked hid hs hnode hkind hretained,
    fun a u s' hrun hreads hs' => ?_⟩
  obtain ⟨t, ht, rfl, hready⟩ :=
    exists_perform_of_runOperation laws htracked hid hs hnode hkind hmiss hrun
  obtain ⟨t', ht', hleads⟩ := hperform.result a t s' ht hreads hs'
  have hunwatched : ∀ a u, earlier'.perform id o c s' = (.ok a, u) →
      u.graph.watched? id = none := by
    intro a u hu
    cases ht'.symm.trans hu
    exact laws.watched?_right hready hid hleads.rel
  obtain ⟨hrel, hleft, hright⟩ := hremember t t' a hleads.rel
  exact ⟨_, (runOperation_eq_ok (hmiss' s' hs') hunwatched).mpr ⟨t', ht', rfl⟩, hrel,
    laws.trans hleads.left hleft, laws.trans hleads.right hright⟩

end Running

/-! ## Induction on the nodes -/

/-- However the nodes before `id` are evaluated in the two runs, `f` succeeds in the second run as
it does in the first. -/
def Agrees (sim : Simulation) (enough : Prop) (c : Settings) (id : NodeId) (o : Operation)
    (f : Earlier → Node → Eval Output) : Prop :=
  ∀ b b' s node, id.index ≤ b → id.index ≤ b' → sim.Ready enough s →
    s.graph.node? id = some node → node.kind = .operation o → s.context.isRetained id = false →
    Simulates sim c s (f (below b) node) (f (below b') node)

/-- An operation that is performed alike in the two runs is run alike, whatever they know of it. -/
def Memoizes (sim : Simulation) (enough : Prop) (c : Settings) : Prop :=
  ∀ id o, sim.within id → Agrees sim enough c id o (fun e _ => e.perform id o) →
    Agrees sim enough c id o fun e node => e.runOperation id node.name (.operation o)

theorem below_paired (laws : sim.Lawful enough c) (hmemo : Memoizes sim enough c) (n : Nat) :
    ∀ b b', n ≤ b → n ≤ b' → (below b).Paired (below b') sim enough c n := by
  induction n with
  | zero =>
    intro b b' _ _
    exact ⟨(below_tracked enough c b).mono (Nat.zero_le b),
      fun _ _ h => absurd h (Nat.not_lt_zero _), fun _ _ h => absurd h (Nat.not_lt_zero _)⟩
  | succ n ih =>
    have hrun : ∀ b b', n ≤ b → n ≤ b' → ∀ id s, id.index ≤ n → sim.within id →
        sim.Ready enough s → Simulates sim c s ((below b).runNode id) ((below b').runNode id) := by
      intro b b' hb hb' id s hlt hid hs
      rcases Nat.lt_or_eq_of_le hlt with hlt | rfl
      · exact (ih (b + 1) (b' + 1) (by omega) (by omega)).run id s hlt hid hs
      · refine runNode_simulates laws (ih b b' hb hb') hlt hid hs fun t node o => ?_
        -- The operation is performed alike from any bounds that know of the nodes before it.
        refine hmemo id o hid (fun b b' s node hb hb' hs hnode hkind _ => ?_) b b' t node hb hb'
        exact perform_simulates laws (ih b b' hb hb') hid hs hnode hkind
    intro b b' hb hb'
    obtain ⟨b, rfl⟩ := Nat.exists_eq_add_of_le' (Nat.le_trans (Nat.le_add_left 1 n) hb)
    obtain ⟨b', rfl⟩ := Nat.exists_eq_add_of_le' (Nat.le_trans (Nat.le_add_left 1 n) hb')
    have hb : n ≤ b := by omega
    have hb' : n ≤ b' := by omega
    refine ⟨(below_tracked enough c (b + 1)).mono (by omega), fun id s hlt hid hs => ?_,
      fun id s hlt hid hs => ?_⟩
    · exact hrun b b' hb hb' id s (Nat.le_of_lt_succ hlt) hid hs
    · exact completeNode_simulates laws (ih b b' hb hb') (hrun b b' hb hb')
        (Nat.le_of_lt_succ hlt) hid hs

theorem runOperation_agrees (laws : sim.Lawful enough c) (hmemo : Memoizes sim enough c)
    (hid : sim.within id) :
    Agrees sim enough c id o fun e node => e.runOperation id node.name (.operation o) := by
  refine hmemo id o hid fun b b' s node hb hb' hs hnode hkind _ => ?_
  exact perform_simulates laws (below_paired laws hmemo id.index b b' hb hb') hid hs hnode hkind

end Earlier

namespace Eval

variable {sim : Simulation} {enough : Prop} {c : Settings} {s : State} {id : NodeId}

theorem complete_simulates (laws : sim.Lawful enough c) (hmemo : Earlier.Memoizes sim enough c)
    (hid : sim.within id) (hs : sim.Ready enough s) :
    Simulates sim c s (complete id) (complete id) :=
  (Earlier.below_paired laws hmemo (id.index + 1) _ _ (Nat.le_refl _) (Nat.le_refl _)).complete id s
    (Nat.lt_succ_self _) hid hs

end Eval

end Dataflow
