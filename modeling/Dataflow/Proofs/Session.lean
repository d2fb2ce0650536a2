import Dataflow.Proofs.Preservation

/-!
# Sessions

An evaluator is used for one call after another, each with a context of its own, and a call that
fails leaves the state as far as it got. Whatever the calls are, every operation takes effect once.
-/

namespace Dataflow

variable (lib : Library Rng)

inductive Call where
  | run (id : NodeId)
  | runAll (ids : List NodeId)
  | complete (id : NodeId)
  | completeAll (ids : List NodeId)
  | completeOutput (o : Output)

def Call.eval : Call → Eval Output
  | .run id => Eval.run id
  | .runAll ids => Eval.runAll ids
  | .complete id => Eval.complete id
  | .completeAll ids => Eval.completeAll ids
  | .completeOutput o => Eval.completeOutput o

/-- The nodes that a call is about. -/
def Call.ids : Call → List NodeId
  | .run id | .complete id => [id]
  | .runAll ids | .completeAll ids => ids
  | .completeOutput o => o.nodes

/-- A call keeps to every regime that running and completing its nodes keep to, and fails only as
they do. -/
theorem Call.eval_outcome {R : Regime} {c : Settings} {E : Failure → State → Prop} (call : Call)
    (hrun : ∀ id ∈ call.ids, ∀ t, R.Ensures c t (Eval.run id) (OnOutcome (fun _ _ => True) E))
    (hcomplete : ∀ id ∈ call.ids, ∀ t,
      R.Ensures c t (Eval.complete id) (OnOutcome (fun _ _ => True) E))
    (s : State) : R.Ensures c s call.eval (OnOutcome (fun _ _ => True) E) := by
  -- Several nodes are evaluated one after another, whether run or completed.
  have heach : ∀ (f : NodeId → Eval Output) (ids : List NodeId),
      (∀ id ∈ ids, ∀ t, R.Ensures c t (f id) (OnOutcome (fun _ _ => True) E)) →
      R.Ensures c s (do return Output.list (← Eval.each f ids))
        (OnOutcome (fun _ _ => True) E) := by
    intro f ids hf
    refine (Regime.Ensures.eachOutcome (P := fun _ _ => True) (fun _ _ _ _ _ => trivial) ids s
      fun id hid t _ => hf id hid t).bindOutcome fun _ _ _ _ _ => ?_
    exact .pure fun _ => trivial
  cases call with
  | run id => exact hrun id List.mem_cons_self s
  | runAll ids => exact heach Eval.run ids hrun
  | complete id => exact hcomplete id List.mem_cons_self s
  | completeAll ids => exact heach Eval.complete ids hcomplete
  | completeOutput o =>
    refine (Output.completeWith_outcome (K := fun _ _ => True) (fun _ _ _ _ _ => trivial) o s
      fun n hn t _ _ => ?_).conseq (by rintro (_ | _) _ _ _ h; exacts [h, trivial])
    split
    · trivial
    · refine (hcomplete n hn t).conseq ?_
      rintro (_ | _) _ _ _ h
      exacts [h, fun _ _ => trivial]

theorem Call.eval_ensures {R : Regime} {c : Settings} (call : Call)
    (hrun : ∀ id ∈ call.ids, ∀ t, R.Ensures c t (Eval.run id) (OnResult fun _ _ => True))
    (hcomplete : ∀ id ∈ call.ids, ∀ t, R.Ensures c t (Eval.complete id) (OnResult fun _ _ => True))
    (s : State) : R.Ensures c s call.eval (OnResult fun _ _ => True) := by
  simp only [onResult_eq] at hrun hcomplete ⊢
  exact call.eval_outcome hrun hcomplete s

/-- Calls one after another, each with the context that the caller supplies. -/
abbrev Session := List (Context × Call)

namespace State

/-- The state after a call, which may have succeeded or failed. -/
def call (s : State) (c : Settings) (context : Context) (call : Call) : State :=
  (call.eval c { s with context }).2

def after (s : State) (c : Settings) : Session → State
  | [] => s
  | (context, call) :: rest => (s.call c context call).after c rest

/-! ## Growth -/

/-- The regime of a session: contexts come and go, so any node may be idle. -/
def growth : Regime where
  inv := Coherent fun _ => True
  step := Grows
  refl := Grows.refl
  trans := Grows.trans

theorem growth_of_coherence {α : Type} {c : Settings} {s : State} {x : Eval α} {bound : Nat}
    {Q : Except Failure α → State → Prop}
    (h : (coherence (fun _ => True) bound).Ensures c s x Q) :
    growth.Ensures c s x (OnResult fun _ _ => True) := by
  intro hs
  obtain ⟨hinv, hstep, -⟩ := h hs
  refine ⟨hinv, (Step.toLater hstep).toGrows, ?_⟩
  cases (x c s).1 <;> trivial

theorem call_growth {c : Settings} {s : State} (call : Call) :
    growth.Ensures c s call.eval (OnResult fun _ _ => True) :=
  call.eval_ensures (fun id _ _ => growth_of_coherence (Eval.run_ensures id))
    (fun id _ _ => growth_of_coherence (Eval.complete_ensures id)) s

theorem Coherent.with_context {s : State} (hs : Coherent (fun _ => True) s) (context : Context) :
    Coherent (fun _ => True) { s with context } :=
  ⟨hs.graph, hs.once, hs.operations, hs.left, hs.symbolic, fun _ _ => trivial, hs.performed⟩

theorem Grows.with_context {s t : State} (context : Context) (h : Grows { s with context } t) :
    Grows s t :=
  ⟨h.memo, h.symbolic, h.writes, h.observed⟩

/-- Induction on the calls of the session. -/
theorem after_growth {c : Settings} (session : Session) {s : State}
    (hs : Coherent (fun _ => True) s) :
    Coherent (fun _ => True) (s.after c session) ∧ Grows s (s.after c session) := by
  induction session generalizing s with
  | nil => exact ⟨hs, Grows.refl s⟩
  | cons first rest ih =>
    obtain ⟨context, call⟩ := first
    obtain ⟨hcall, hgrows, -⟩ := call_growth (c := c) call (hs.with_context context)
    obtain ⟨hrest, hgrows'⟩ := ih hcall
    exact ⟨hrest, (Grows.with_context context hgrows).trans hgrows'⟩

theorem coherent_start {g : Graph} (hg : g.WellFormed) (context : Context) (config : Config)
    (spare : UInt64) : Coherent (fun _ => True) (.start lib g context config spare) where
  graph := hg
  once := List.nodup_nil
  operations := by simp [start]
  left := by simp [start]
  symbolic := by simp [start]
  retained := fun _ _ => trivial
  performed := rfl

/-! ## Building and evaluating by turns -/

end State

/-- A graph that building steps and evaluations lead to, in any order. Some of them may have
failed. -/
inductive Graph.Reached : Graph → Prop
  | empty : Reached .empty
  | built {g : Graph} (hg : Reached g) (step : BuildStep) : Reached (g.take step).2
  | evaluated {g : Graph} (hg : Reached g) (lib : Library Rng) (context : Context)
      (config : Config) (spare : UInt64) (c : Settings) (session : Session) :
      Reached ((State.start lib g context config spare).after c session).graph

namespace Graph

theorem Built.reached {g : Graph} (hg : g.Built) : g.Reached := by
  induction hg with
  | empty => exact .empty
  | step _ step ih => exact .built ih step

theorem Reached.wellFormed {g : Graph} (hg : g.Reached) : g.WellFormed := by
  induction hg with
  | empty => exact .empty
  | built _ step ih => exact (takes _ step).wellFormed ih
  | evaluated _ lib context config spare c session ih =>
    exact (State.after_growth session (State.coherent_start lib ih context config spare)).1.graph

end Graph

namespace State

/-! ## Operations take effect once -/

/-- How often an operation was performed with a result. -/
def timesPerformed (s : State) (id : NodeId) : Nat := (s.performed.map Prod.fst).count id

/-- An operation with a result is not performed again. -/
theorem Coherent.timesPerformed_le_one {idle : NodeId → Prop} {s : State} (hs : Coherent idle s)
    (id : NodeId) : s.timesPerformed id ≤ 1 := by
  rw [timesPerformed, hs.performed]
  exact List.nodup_iff_count_le_one.mp hs.once id

/-- How often the name of a node comes up among the names of the watched nodes with results. -/
theorem count_watched {s : State} (hs : Coherent (fun _ => True) s) {id : NodeId} {node : Node}
    (hnode : s.graph.node? id = some node) :
    s.watched.count node.name = if node.watched then s.timesPerformed id else 0 := by
  -- No other node has the name, so each report under it is one of this node.
  have hwatched : ∀ i, s.graph.watched? i = some node.name ↔ i = id ∧ node.watched = true := by
    intro i
    constructor
    · intro hi
      obtain ⟨n, hn, hname⟩ := Option.bind_eq_some_iff.mp hi
      split at hname
      · rename_i hflag
        have heq := hs.graph.names i id n node hn hnode (by simpa using hname)
        subst heq
        cases hnode.symm.trans hn
        exact ⟨rfl, hflag⟩
      · cases hname
    · rintro ⟨rfl, hflag⟩
      simp [Graph.watched?, hnode, hflag]
  rw [watched, timesPerformed, hs.performed, List.count_filterMap, List.countP_reverse, List.count,
    List.countP_map]
  cases hflag : node.watched with
  | true =>
    rw [if_pos rfl]
    refine List.countP_congr fun r _ => ?_
    simpa [hflag] using hwatched r.1
  | false =>
    rw [if_neg Bool.false_ne_true, List.countP_eq_zero]
    intro r _
    simpa [hflag] using hwatched r.1

variable {lib} in
/-- What was reported since the start, and what has become of the graph. -/
theorem accounts_of_start {g : Graph} {context : Context} {config : Config} {spare : UInt64}
    {s : State} (h : Grows (.start lib g context config spare) s) :
    s.reportedWrites = s.writes ∧ s.graph.Extends (g.replay s.reportedWrites) ∧
      s.observed.Perm s.watched := by
  obtain ⟨ws, hreported, hwrites, hgraph⟩ := h.writes
  obtain ⟨ns, ms, hns, hms, hperm⟩ := h.observed
  -- Nothing was reported at the start, and there were no results.
  have hreported : s.reportedWrites = ws := hreported
  have hwrites : s.writes = ws := hwrites
  have hns : s.observed = ns := hns
  have hms : s.watched = ms := hms
  subst hreported hns hms
  exact ⟨hwrites.symm, hgraph, hperm⟩

/-- An operation with a result is looked up when it is run. -/
theorem run_again {c : Settings} {s : State} (hs : Coherent (fun _ => True) s) {id : NodeId}
    {result : Output} (hmem : (id, result) ∈ s.memo) (hretained : s.context.isRetained id = false) :
    ∃ e e', Eval.run id c s =
      (.ok result, { s with events := (s.events.push e).push e' }) := by
  obtain ⟨node, o, hnode, hkind⟩ := hs.operations id result hmem
  refine ⟨.report (.entered node.kind.label node.name), .report (.remembered node.name), ?_⟩
  show (Earlier.below id.index).runNode id c s = _
  rw [Earlier.runNode_operation hretained hnode hkind]
  exact Earlier.runOperation_hit (lookup_of_mem hs.once hmem)

/-- However an evaluator was used, every operation was performed with a result once at most, and all
these results were remembered, and no others. The breakpoint of an operation was reported as often,
and the variables were written as often as assignments were performed with a value, in the same
order. Running an operation once more that was performed gives the same result, and changes nothing
but what is reported. -/
theorem operations_take_effect_once {g : Graph} (hg : g.Built) (context : Context)
    (config : Config) (spare : UInt64) (c : Settings) (session : Session) :
    let s := (State.start lib g context config spare).after c session
    (∀ id, s.timesPerformed id ≤ 1) ∧ s.performed = s.memo ∧
    (∀ id node, s.graph.node? id = some node →
      s.observed.count node.name = if node.watched then s.timesPerformed id else 0) ∧
    s.reportedWrites = s.writes ∧
    s.graph.Extends (g.replay s.reportedWrites) ∧
    ∀ id result, (id, result) ∈ s.performed → ∀ (later : Session) (context : Context),
      context.isRetained id = false →
      let t := { s.after c later with context }
      ∃ e e', Eval.run id c t = (.ok result, { t with events := (t.events.push e).push e' }) := by
  intro s
  obtain ⟨hs, hgrows⟩ := after_growth (c := c) session
    (coherent_start lib hg.wellFormed context config spare)
  obtain ⟨hwrites, hgraph, hobserved⟩ := accounts_of_start hgrows
  refine ⟨hs.timesPerformed_le_one, hs.performed, ?_, hwrites, hgraph, ?_⟩
  · intro id node hnode
    rw [hobserved.count_eq, count_watched hs hnode]
  · intro id result hperformed later context hretained
    obtain ⟨ht, hst⟩ := after_growth (c := c) later hs
    have hmem : (id, result) ∈ s.memo := hs.performed ▸ hperformed
    exact run_again (ht.with_context context) (hst.memo.subset hmem) hretained

/-- An assignment with a breakpoint that was run twice, with a call in vain in between. -/
theorem operations_take_effect_once_assign :
    let g := Graph.ofSteps [.variable "v" .int32 (some (.scalar (.int 0))),
      .constant "one" (.scalar (.int 1)),
      .operation "set" ⟨.control (.assign .set), [⟨0⟩, ⟨1⟩], .empty⟩, .watch ⟨2⟩]
    let s := (State.start .standard g .empty .standard 0).after ⟨32, .cpu⟩
      [(.empty, .complete ⟨2⟩), (.empty, .run ⟨7⟩), (.empty, .runAll [⟨0⟩, ⟨2⟩])]
    s.performed = [(⟨2⟩, .value (.scalar (.int 1)))] ∧ s.timesPerformed ⟨2⟩ ≤ 1 ∧
      s.reportedWrites = s.writes :=
  have h := operations_take_effect_once .standard (Graph.built_ofSteps _) .empty .standard 0
    ⟨32, .cpu⟩ _
  ⟨rfl, h.1 ⟨2⟩, h.2.2.2.1⟩

end State

end Dataflow
