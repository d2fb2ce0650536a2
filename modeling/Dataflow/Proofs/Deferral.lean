import Dataflow.Proofs.Session
import Dataflow.Proofs.Tracing

/-!
# Nothing is left for later without a reason

In a session in which the same nodes are retained throughout, with as many steps as there are nodes
in the end, retained nodes are the only reason for an operation to be left for later. They are never
dispatched themselves, and whatever is left unevaluated comes from them.
-/

namespace Dataflow

variable (lib : Library Rng)

namespace State

/-! ## Sessions -/

section Sessions

variable {enough : Prop} {c : Settings} {s t : State}

theorem accounted_start {g : Graph} (hg : g.WellFormed) (context : Context) (config : Config)
    (spare : UInt64) : Accounted enough (.start lib g context config spare) where
  graph := hg
  dispatched := by simp [start, dispatched]
  performed := by simp [start]
  traced := by simp [start]
  deferred := by simp [start, deferrals]
  symbolic := by simp [start]
  unreferenced := by simp [start]

theorem Onward.with_context {context : Context} (h : context.retained = s.context.retained) :
    Onward s { s with context } :=
  ⟨.refl _, rfl, List.Subset.refl _, List.Subset.refl _, h⟩

theorem Accounted.with_context (hs : Accounted enough s) {context : Context}
    (h : context.retained = s.context.retained) : Accounted enough { s with context } :=
  hs.extend (.with_context h) hs.graph (fun _ hname => .inl hname) (fun _ hr => .inl hr)
    (fun _ hnames => .inl hnames) (fun _ hn => .inl hn) hs.unreferenced

/-- The regime of calls that retain the same nodes. -/
def accounting (enough : Prop) : Regime where
  inv := Accounted enough
  step := Onward
  refl := Onward.refl
  trans := Onward.trans

theorem accounting_of_tracing {α : Type} {root : NodeId} {x : Eval α}
    {Q : Except Failure α → State → Prop} (h : (tracing enough root).Ensures c s x Q) :
    (accounting enough).Ensures c s x (OnResult fun _ _ => True) := by
  intro hs
  obtain ⟨ht, hst, -⟩ := h hs
  refine ⟨ht, Traces.toOnward hst, ?_⟩
  cases (x c s).1 <;> trivial

theorem call_accounted (call : Call)
    (hsteps : enough → ∀ id ∈ call.ids, id.index < c.maxIterations) :
    (accounting enough).Ensures c s call.eval (OnResult fun _ _ => True) :=
  call.eval_ensures
    (fun id hid _ => accounting_of_tracing (Eval.run_traced fun henough => hsteps henough id hid))
    (fun id hid _ =>
      accounting_of_tracing (Eval.complete_traced fun henough => hsteps henough id hid))
    s

/-- Induction on the calls of the session. -/
theorem after_accounted {session : Session} (hs : Accounted enough s)
    (hcontexts : ∀ entry ∈ session, entry.1.retained = s.context.retained)
    (hsteps : enough → ∀ entry ∈ session, ∀ id ∈ entry.2.ids, id.index < c.maxIterations) :
    Accounted enough (s.after c session) ∧ Onward s (s.after c session) := by
  induction session generalizing s with
  | nil => exact ⟨hs, .refl s⟩
  | cons first rest ih =>
    obtain ⟨context, call⟩ := first
    have hcontext := hcontexts _ List.mem_cons_self
    obtain ⟨hcall, honward, -⟩ := call_accounted call (c := c)
      (fun henough => hsteps henough _ List.mem_cons_self) (hs.with_context hcontext)
    have hfirst := (Onward.with_context hcontext).trans honward
    obtain ⟨hrest, honward'⟩ := ih hcall
      (fun entry hentry => (hcontexts entry (List.mem_cons_of_mem _ hentry)).trans
        hfirst.retained.symm)
      fun henough entry hentry => hsteps henough entry (List.mem_cons_of_mem _ hentry)
    exact ⟨hrest, hfirst.trans honward'⟩

end Sessions

/-! ## Deferrals -/

/-- Among the calls of the session, the node `id` was evaluated completely, to `out`, which led to
the state `t`. -/
def Yields (s : State) (c : Settings) (session : Session) (id : NodeId) (out : Output)
    (t : State) : Prop :=
  ∃ before context rest, session = before ++ (context, .complete id) :: rest ∧
    Eval.complete id c { s.after c before with context } = (.ok out, t)

/-- What is left in the output of a complete evaluation, and how the evaluation goes on from
there. -/
theorem Yields.traced {c : Settings} {session : Session} {s t : State} {id : NodeId}
    {out : Output} (h : s.Yields c session id out t) (hs : Accounted True s)
    (hcontexts : ∀ entry ∈ session, entry.1.retained = s.context.retained)
    (hsteps : ∀ entry ∈ session, ∀ id ∈ entry.2.ids, id.index < c.maxIterations) :
    Accounted True t ∧ Onward s t ∧ ∀ n ∈ out.nodes, t.Traced id n ∧ t.stays n = true := by
  obtain ⟨before, context, rest, rfl, hrun⟩ := h
  have hbefore : ∀ entry ∈ before, entry ∈ before ++ (context, .complete id) :: rest :=
    fun _ hentry => List.mem_append_left _ hentry
  have hlast : (context, .complete id) ∈ before ++ (context, .complete id) :: rest :=
    List.mem_append_right _ List.mem_cons_self
  obtain ⟨hu, hsu⟩ := after_accounted (c := c) hs
    (fun entry hentry => hcontexts entry (hbefore _ hentry))
    fun _ entry hentry => hsteps entry (hbefore _ hentry)
  have hcontext := (hcontexts _ hlast).trans hsu.retained.symm
  have hid := hsteps _ hlast id List.mem_cons_self
  obtain ⟨ht, hut, hout⟩ := Eval.complete_traced (c := c) (fun _ => hid) (hu.with_context hcontext)
  simp only [hrun, onResult_ok] at ht hut hout
  exact ⟨ht, hsu.trans ((Onward.with_context hcontext).trans (Traces.toOnward hut)),
    fun n hn => ⟨(hout n hn).1, (hout n hn).2 trivial⟩⟩

theorem Accounted.not_dispatched {enough : Prop} {s : State} (hs : Accounted enough s)
    (hperformed : s.performed = s.memo) {id : NodeId} {node : Node}
    (hnode : s.graph.node? id = some node) (hretained : s.context.isRetained id = true) :
    node.name ∉ s.dispatched ∧ s.timesPerformed id = 0 := by
  constructor
  · intro hname
    obtain ⟨m, node', hnode', hname', hactive⟩ := hs.dispatched _ hname
    -- The name is that of the retained node only.
    obtain rfl := hs.graph.names m id node' node hnode' hnode hname'
    exact Bool.false_ne_true (hactive.symm.trans hretained)
  · rw [timesPerformed, hperformed]
    refine List.count_eq_zero.mpr fun hmem => ?_
    obtain ⟨r, hr, rfl⟩ := List.mem_map.mp hmem
    exact Bool.false_ne_true ((hs.performed r hr).symm.trans hretained)

/-- Where nothing is retained, nothing is held. -/
theorem not_held {s : State} (h : s.context.retained = []) (id : NodeId) : ¬ s.Held id := by
  rintro ⟨r, hr, -⟩
  simp [Context.isRetained, h] at hr

/-- In a session that retains the same nodes throughout, a retained node is never dispatched, and a
node is left for later only if it reaches a retained one. What is left in the output of a complete
evaluation is a retained node that is reached, the node itself if it is a copy, or the copy of a
node that is reached. So if nothing is retained, every complete evaluation gives a value, and no
node is ever added. -/
theorem deferrals_lead_to_retained {g : Graph} (hg : g.WellFormed) (context : Context)
    (config : Config) (spare : UInt64) {c : Settings} {session : Session}
    (hcontexts : ∀ entry ∈ session, entry.1.retained = context.retained)
    (hids : ∀ entry ∈ session, ∀ id ∈ entry.2.ids,
      id.index < ((start lib g context config spare).after c session).graph.size)
    (hsteps : ((start lib g context config spare).after c session).graph.size ≤ c.maxIterations) :
    let s := start lib g context config spare
    let t := s.after c session
    (∀ id node, context.isRetained id = true → t.graph.node? id = some node →
      node.name ∉ t.dispatched ∧ t.timesPerformed id = 0) ∧
    (∀ m n, t.Defers m n → ∃ r, context.isRetained r = true ∧ t.graph.Reaches m r) ∧
    (∀ n ∈ t.symbolic, (∃ m, t.Defers m n) ∧
      ∃ r, context.isRetained r = true ∧ t.graph.Reaches n r) ∧
    (∀ id out u, s.Yields c session id out u → ∀ n ∈ out.nodes,
      (context.isRetained n = true ∧ u.graph.Reaches id n) ∨
      (n ∈ u.symbolic ∧ (n = id ∨ ∃ m, u.graph.Reaches id m ∧ u.Defers m n))) ∧
    (context.retained = [] → t.graph.size = g.size ∧
      ∀ id out u, s.Yields c session id out u → out.toValue?.isSome = true) := by
  intro s t
  have hids : ∀ entry ∈ session, ∀ id ∈ entry.2.ids, id.index < c.maxIterations :=
    fun entry hentry id hid => Nat.lt_of_lt_of_le (hids entry hentry id hid) hsteps
  have hs : Accounted True s := accounted_start lib hg context config spare
  obtain ⟨ht, hst⟩ := after_accounted (c := c) hs hcontexts fun _ => hids
  obtain ⟨hcoherent, -⟩ :=
    after_growth (c := c) session (coherent_start lib hg context config spare)
  have hheld : ∀ {id}, t.Held id → ∃ r, context.isRetained r = true ∧ t.graph.Reaches id r := by
    rintro id ⟨r, hr, hreaches⟩
    exact ⟨r, (hst.isRetained r).symm.trans hr, hreaches⟩
  refine ⟨fun id node hretained hnode => ?_, fun m n hdefers => ?_,
    fun n hn => ⟨ht.symbolic n hn, ?_⟩, fun id out u hyields n hn => ?_, fun hnone => ⟨?_, ?_⟩⟩
  · exact ht.not_dispatched hcoherent.performed hnode ((hst.isRetained id).trans hretained)
  · exact hheld (ht.held_of_defers trivial hdefers)
  · exact hheld (ht.held_of_symbolic trivial hn)
  · obtain ⟨hu, hsu, hout⟩ := hyields.traced hs hcontexts hids
    obtain ⟨htraced, hstays⟩ := hout n hn
    exact (hu.retained_or_copy htraced hstays).imp_left
      (And.imp_left (hsu.isRetained n).symm.trans)
  · -- Only copies are added, and there are none.
    have hsymbolic : t.symbolic = [] := List.eq_nil_iff_forall_not_mem.mpr fun n hn =>
      not_held (hst.retained.trans hnone) n (ht.held_of_symbolic trivial hn)
    have hsize : t.graph.size + 0 = g.size + t.symbolic.length := hst.size
    simpa [hsymbolic] using hsize
  · intro id out u hyields
    obtain ⟨hu, hsu, hout⟩ := hyields.traced hs hcontexts hids
    refine Output.toValue?_isSome.mpr (List.eq_nil_iff_forall_not_mem.mpr fun n hn => ?_)
    exact not_held (hsu.retained.trans hnone) id
      (hu.held_of_traced trivial (hout n hn).1 (hout n hn).2)

/-- A negation of a retained node is left for later, and so is its copy when it is run again. -/
theorem deferrals_lead_to_retained_negate :
    let g := Graph.ofSteps [.placeholder "x" .int32 none,
      .operation "y" ⟨.kernel (.unary .negate), [⟨0⟩], .empty⟩]
    let context := Context.empty.retain ⟨0⟩
    let session : Session := [(context, .complete ⟨1⟩), (context, .runAll [⟨2⟩, ⟨0⟩])]
    let t := (State.start .standard g context .standard 0).after ⟨32, .cpu⟩ session
    t.symbolic = [⟨2⟩] ∧ t.deferrals = [("y", "negate_deferred")] ∧ t.timesPerformed ⟨0⟩ = 0 ∧
      ∀ n ∈ t.symbolic, (∃ m, t.Defers m n) ∧
        ∃ r, context.isRetained r = true ∧ t.graph.Reaches n r := by
  intro g context session t
  have hcontexts : ∀ entry ∈ session, entry.1.retained = context.retained := by decide
  have h := deferrals_lead_to_retained .standard (g := g) (Graph.built_ofSteps _).wellFormed context
    .standard 0 (c := ⟨32, .cpu⟩) hcontexts (by decide) (by decide)
  exact ⟨rfl, rfl, (h.1 ⟨0⟩ _ rfl rfl).2, h.2.2.1⟩

end State

end Dataflow
