import Dataflow.Proofs.Arena
import Dataflow.Proofs.Branching
import Dataflow.Proofs.Kinds

/-!
# Declared element types

The element type of a node is declared when the node is added, and its value is computed much
later, from operands of any kind. A comparison, a count or a position has an element type of its
own, and its node declares that one; a cast, or an array that is filled, is told what the node
declares.
-/

namespace Dataflow

variable (lib : Library Rng)

open State

/-! ## What is declared -/

namespace Graph

variable {g : Graph} {o : Operation} {kernel : Kernel} {d : DType}

theorem resultDType_of_ownDType? (hop : o.op = .kernel kernel)
    (hown : kernel.ownDType? = some d) : g.resultDType o = d := by
  unfold resultDType
  rw [hop]
  cases kernel with
  | binary op =>
    cases op with
    | comparison op => exact Option.some.inj hown
    | arithmetic op => cases hown
  | shape | rank | argmax => exact Option.some.inj hown
  | _ => cases hown

theorem Declares.dtype_eq {dtype : DType} {shape : Option Shape}
    (h : g.Declares dtype shape (.operation o)) : dtype = g.resultDType o := by
  cases h
  rfl

/-- A node with a kernel that has an element type of its own declares it. -/
theorem Reached.dtype_of_ownDType? (hg : g.Reached) {id : NodeId} {node : Node}
    (hfound : g.node? id = some node) (hkind : node.kind = .operation o)
    (hop : o.op = .kernel kernel) (hown : kernel.ownDType? = some d) : node.dtype = d := by
  have hdeclared : g.Operations fun dtype o => ∀ kernel d, o.op = .kernel kernel →
      kernel.ownDType? = some d → dtype = d :=
    hg.operations fun hdeclares kernel d hop hown =>
      hdeclares.dtype_eq.trans (resultDType_of_ownDType? hop hown)
  exact hdeclared id node o hfound hkind kernel d hop hown

end Graph

/-! ## What is computed -/

namespace Earlier

variable {earlier : Earlier} {c : Settings} {s t : State} {id : NodeId} {o : Operation}

/-- Values that are found are those that the nodes have one after another. -/
theorem each_of_resolveAll {ids : List NodeId} {vs : List Value}
    (h : earlier.resolveAll ids c s = (.ok (some vs), t)) :
    ∃ outs, Eval.each earlier.complete ids c s = (.ok outs, t) ∧
      Output.itemsToValues? outs = some vs := by
  induction ids generalizing s vs with
  | nil =>
    cases h
    exact ⟨[], rfl, rfl⟩
  | cons id ids ih =>
    obtain ⟨v, u, hv, h⟩ := Eval.bind_run_eq_ok.mp h
    cases v with
    | none => cases h
    | some v =>
      obtain ⟨rest, w, hrest, h⟩ := Eval.bind_run_eq_ok.mp h
      cases rest with
      | none => cases h
      | some rest =>
        cases h
        obtain ⟨out, hout, hvalue⟩ := resolve_eq_ok.mp hv
        obtain ⟨outs, houts, hvalues⟩ := ih hrest
        refine ⟨out :: outs, Eval.bind_run_eq_ok.mpr ⟨out, u, hout, ?_⟩, ?_⟩
        · exact Eval.bind_run_eq_ok.mpr ⟨outs, t, houts, rfl⟩
        · rw [Output.itemsToValues?, hvalue, hvalues]
          rfl

theorem gather_eq_ok {kernel : Kernel} {args : Arguments}
    (h : earlier.gather id kernel o c s = (.ok (some args), t)) :
    ∃ u node, earlier.resolveAll o.operands c s = (.ok (some args.operands), u) ∧
      t.graph.node? id = some node ∧ args.kernel = kernel ∧ args.dtype = node.dtype := by
  obtain ⟨operands, u, hoperands, h⟩ := Eval.bind_run_eq_ok.mp h
  cases operands with
  | none => cases h
  | some operands =>
    obtain ⟨options, v, hoptions, h⟩ := Eval.bind_run_eq_ok.mp h
    cases options with
    | none => cases h
    | some options =>
      obtain ⟨node, w, hnode, h⟩ := Eval.bind_run_eq_ok.mp h
      cases h
      rw [Eval.node_run] at hnode
      obtain ⟨hfound, rfl⟩ := Prod.mk.inj hnode
      exact ⟨u, node, hoperands, Graph.node_eq_ok.mp hfound, rfl, rfl⟩

/-- A kernel is computed from what was gathered, or left for later if something is missing. -/
theorem perform_kernel_eq_ok {kernel : Kernel} (hop : o.op = .kernel kernel) {out : Output}
    (h : earlier.perform id o c s = (.ok out, t)) :
    ∃ args u, earlier.gather id kernel o c s = (.ok args, u) ∧
      match args with
      | some args => ∃ v, out = .value v ∧ (args.compute c.backend u.rng).outcome = .ok v
      | none => Eval.defer id o c u = (.ok out, t) := by
  rw [perform, hop] at h
  obtain ⟨args, u, hgather, h⟩ := Eval.bind_run_eq_ok.mp h
  refine ⟨args, u, hgather, ?_⟩
  cases args with
  | none => exact h
  | some args =>
    have hcompute : Eval.compute args c u = (.ok out, t) := h
    rw [Eval.compute_run] at hcompute
    obtain ⟨v, hv, hout⟩ := Except.map_eq_ok.mp (congrArg Prod.fst hcompute)
    exact ⟨v, hout.symm, hv⟩

theorem force_of_stays {origin last next : NodeId} {remaining : Nat}
    (hstays : s.stays next = true) :
    earlier.force origin remaining last (.node next) c s = (.ok (.node next), s) := by
  rw [force_node]
  refine (Eval.bind_run_ok (t := s) (a := s.stays next) rfl).trans ?_
  rw [if_pos (.inr hstays)]
  rfl

end Earlier

namespace State

variable {c : Settings} {s t : State} {id : NodeId} {node : Node} {o : Operation}

theorem complete_whole (hs : Coherent (fun _ => True) s) :
    Eval.complete id c s = Earlier.whole.completeNode id c s :=
  Earlier.eq_of_consults (Earlier.completeNode_consults hs)

/-- The breakpoint of an operation goes on from the state that it finds. -/
theorem fire_advances (hs : Coherent (fun _ => True) s) {result : Output}
    (hstays : ∀ n ∈ result.nodes, s.stays n = true) :
    ∃ u, Earlier.whole.fire id o result c s = (.ok (), u) ∧ Advances s u := by
  -- The operands that the breakpoint looks at are evaluated, and the result is at rest.
  have hfire : advancing.Ensures c s (Earlier.whole.fire id o result) fun r _ => r = .ok () := by
    refine Earlier.fire_keeps (fun t events ht => ?_) (fun _ _ _ input _ _ _ _ => ?_) fun n hn => ?_
    · exact ⟨advancing_inv.mpr ((advancing_inv.mp ht).with_events events), .with_events t events⟩
    · exact complete_advances input
    · intro t _ hst
      have hstays := Advances.stays hst (hstays n hn)
      exact (if_pos hstays).mpr trivial
  obtain ⟨-, hadvances, hr⟩ := hfire (advancing_inv.mpr hs)
  exact ⟨_, Prod.ext hr rfl, hadvances⟩

theorem gather_evolves (hs : Coherent (fun _ => True) s) (hfound : s.graph.node? id = some node)
    (hkind : node.kind = .operation o) {kernel : Kernel} {r : Except Failure (Option Arguments)}
    (hrun : Earlier.whole.gather id kernel o c s = (r, t)) : s.graph.Evolves t.graph := by
  have hensures : (coherence (fun _ => True) id.index).Ensures c s
      (Earlier.whole.gather id kernel o) _ :=
    Earlier.gather_ensures Earlier.asking_sound (hs.graph.lt_of_operation hfound hkind)
  obtain ⟨-, hstep, -⟩ := hensures hs
  rw [hrun] at hstep
  have hstep : Step id.index s t := hstep
  exact hstep.graph

theorem runOperation_advances (hs : Coherent (fun _ => True) s)
    (hfound : s.graph.node? id = some node) (hkind : node.kind = .operation o)
    (hmiss : s.memo.lookup id = none) {name : String} {out : Output}
    (hperform : Earlier.whole.perform id o c s = (.ok out, t))
    (hstays : ∀ n ∈ out.nodes, t.stays n = true) :
    ∃ u, Earlier.whole.runOperation id name (.operation o) c s = (.ok out, u) ∧ Advances t u := by
  obtain ⟨-, hok⟩ := Earlier.perform_ends Earlier.asking_sound hs hfound hkind hmiss hperform
  obtain ⟨hremembered, -⟩ := hok out rfl
  obtain ⟨u, hfire, hadvances⟩ : ∃ u, Earlier.whole.fire id o out c _ = (.ok (), u) ∧ _ :=
    fire_advances hremembered hstays
  refine ⟨u, Earlier.runOperation_ok hmiss hperform hfire, ?_⟩
  exact (Advances.remember t id out).trans hadvances

/-- Running a kernel comes to the value that is computed from its arguments, or to a node that stays
if one of them has no value. -/
theorem runOperation_kernel (hs : Coherent (fun _ => True) s)
    (hfound : s.graph.node? id = some node) (hkind : node.kind = .operation o)
    (hmiss : s.memo.lookup id = none) {kernel : Kernel} (hop : o.op = .kernel kernel)
    {name : String} {out : Output}
    (hrun : Earlier.whole.runOperation id name (.operation o) c s = (.ok out, t)) :
    ∃ args u, Earlier.whole.gather id kernel o c s = (.ok args, u) ∧
      match args with
      | some args => ∃ v, out = .value v ∧ (args.compute c.backend u.rng).outcome = .ok v
      | none => ∃ n, out = .node n ∧ t.stays n = true := by
  cases hperform : Earlier.whole.perform id o c s with
  | mk r w =>
    cases r with
    | error e => cases (Earlier.runOperation_error hmiss hperform).symm.trans hrun
    | ok result =>
      -- What the breakpoint does after that changes neither the result nor which nodes stay.
      have hafter : (∀ n ∈ result.nodes, w.stays n = true) →
          ∃ u, Earlier.whole.runOperation id name (.operation o) c s = (.ok result, u) ∧
            Advances w u := runOperation_advances hs hfound hkind hmiss hperform
      obtain ⟨args, u, hgather, hresult⟩ := Earlier.perform_kernel_eq_ok hop hperform
      refine ⟨args, u, hgather, ?_⟩
      cases args with
      | some args =>
        obtain ⟨v, rfl, hv⟩ := hresult
        obtain ⟨t', hrun', -⟩ := hafter nofun
        cases hrun'.symm.trans hrun
        exact ⟨v, rfl, hv⟩
      | none =>
        have hfound' := (gather_evolves hs hfound hkind hgather).operation hfound hkind
        obtain ⟨n, w', hdefer, hn⟩ := Eval.defer_run_ok c hfound' o
        obtain ⟨hresult, rfl⟩ := Prod.mk.inj (hresult.symm.trans hdefer)
        cases hresult
        obtain ⟨t', hrun', hadvances⟩ := hafter fun m hm => by
          cases List.mem_singleton.mp hm
          exact stays_iff.mpr (.inl hn)
        cases hrun'.symm.trans hrun
        exact ⟨n, rfl, stays_iff.mpr (.inl (hadvances.symbolic hn))⟩

/-- A kernel that is evaluated to a value was computed from arguments that all have a value. -/
theorem exists_gathered (hs : Coherent (fun _ => True) s) (hfound : s.graph.node? id = some node)
    (hkind : node.kind = .operation o) (hmiss : s.memo.lookup id = none) {kernel : Kernel}
    (hop : o.op = .kernel kernel) {v : Value}
    (hrun : Eval.complete id c s = (.ok (.value v), t)) :
    ∃ args u, Earlier.whole.gather id kernel o c (s.entered node) = (.ok (some args), u) ∧
      (args.compute c.backend u.rng).outcome = .ok v := by
  cases hretained : s.context.isRetained id with
  | true => cases (Eval.complete_retained hretained).symm.trans hrun
  | false =>
    rw [complete_whole hs] at hrun
    obtain ⟨first, w, hfirst, hforce⟩ := Eval.bind_run_eq_ok.mp hrun
    have hentered : Coherent (fun _ => True) (s.entered node) := hs.with_events _
    obtain ⟨args, u, hgather, hargs⟩ := runOperation_kernel hentered hfound hkind hmiss hop
      ((Earlier.runNode_operation hretained hfound hkind).symm.trans hfirst)
    rw [Eval.settings_bind_run] at hforce
    -- A value ends the evaluation, and a node that stays is not gone on from.
    cases args with
    | some args =>
      obtain ⟨v', rfl, hv⟩ := hargs
      rw [Earlier.force_value] at hforce
      cases hforce
      exact ⟨args, u, hgather, hv⟩
    | none =>
      obtain ⟨n, rfl, hstays⟩ := hargs
      cases (Earlier.force_of_stays hstays).symm.trans hforce

/-- The operands of a kernel that is evaluated to a value have values, one after another, and it is
computed from these with the element type that its node declares. -/
theorem exists_operands (hs : Coherent (fun _ => True) s) (hfound : s.graph.node? id = some node)
    (hkind : node.kind = .operation o) (hmiss : s.memo.lookup id = none) {kernel : Kernel}
    (hop : o.op = .kernel kernel) {v : Value}
    (hrun : (Eval.complete id c s).1 = .ok (.value v)) :
    ∃ (args : Arguments) (outs : List Output) (rng : Source Rng),
      (Eval.completeAll o.operands c s).1 = .ok (.list outs) ∧
      Output.itemsToValues? outs = some args.operands ∧ args.kernel = kernel ∧
      args.dtype = node.dtype ∧ (args.compute c.backend rng).outcome = .ok v := by
  obtain ⟨args, u, hgather, hv⟩ := exists_gathered hs hfound hkind hmiss hop (Prod.ext hrun rfl)
  obtain ⟨w, node', hoperands, hfound', hkernel, hdtype⟩ := Earlier.gather_eq_ok hgather
  have hentered : Coherent (fun _ => True) (s.entered node) := hs.with_events _
  have hevolves := gather_evolves hentered hfound hkind hgather
  cases (hevolves.operation hfound hkind).symm.trans hfound'
  obtain ⟨outs, houts, hvalues⟩ := Earlier.each_of_resolveAll hoperands
  -- The run has reported the node before, which only adds to the log.
  obtain ⟨events, hlog⟩ := (Eval.IgnoresLog.each Eval.complete_ignoresLog o.operands).exists_events
    c s (s.entered node).events
  have hfirst : (Eval.each Eval.complete o.operands c s).1 = .ok outs :=
    (congrArg Prod.fst (hlog.symm.trans houts)).trans rfl
  refine ⟨args, outs, u.rng, ?_, hvalues, hkernel, hdtype, hv⟩
  exact congrArg Prod.fst (Eval.bind_run_ok (Prod.ext hfirst rfl))

end State

/-! ## Evaluations from scratch -/

/-- A kernel whose results have an element type that is known beforehand keeps to what its node
declares: if a fresh evaluator comes to a value then the operands, evaluated one after another, have
values as well, and casting the result to the declared element type changes nothing, as long as the
lengths of all arrays in the operands and their depths fit an `int32`. -/
theorem Graph.Reached.declared_dtype_of_value {g : Graph} (hg : g.Reached) (context : Context)
    (config : Config) (spare : UInt64) (c : Settings) {id : NodeId} {node : Node} {o : Operation}
    {kernel : Kernel} {v : Value} (hfound : g.node? id = some node)
    (hkind : node.kind = .operation o) (hop : o.op = .kernel kernel)
    (hsettles : kernel.settlesDType = true)
    (hrun : (Eval.complete id c (.start lib g context config spare)).1 = .ok (.value v)) :
    ∃ outs ws, (Eval.completeAll o.operands c (.start lib g context config spare)).1 =
        .ok (.list outs) ∧ Output.itemsToValues? outs = some ws ∧
      ((∀ w ∈ ws, w.Within 0x80000000) → v.cast node.dtype = .ok v) := by
  obtain ⟨args, outs, rng, houts, hws, hkernel, hdtype, hv⟩ :=
    State.exists_operands (coherent_start lib hg.wellFormed context config spare) hfound hkind rfl
      hop hrun
  refine ⟨outs, args.operands, houts, hws, fun hwithin => ?_⟩
  have hown : ∀ d, args.kernel.ownDType? = some d → args.dtype = d := fun d hd =>
    hdtype.trans (hg.dtype_of_ownDType? hfound hkind hop (hkernel ▸ hd))
  rw [← hdtype]
  exact args.cast_compute (hkernel ▸ hsettles) hown hwithin hv

/-- The position of the larger row in each column, of a kernel that is asked for strings. -/
theorem Graph.Reached.declared_dtype_of_value_argmax :
    let g := Graph.ofSteps [
      .constant "m" (.array [.array [.scalar (.int 4), .scalar (.int 1)],
        .array [.scalar (.int 2), .scalar (.int 3)]]),
      .operation "peaks" ⟨.kernel .argmax, [⟨0⟩], ⟨[("dtype", .dtype .string)]⟩⟩]
    let v := Value.array [.scalar (.int 0), .scalar (.int 1)]
    (g.node? ⟨1⟩).map (·.dtype) = some .int32 ∧
      (Eval.complete ⟨1⟩ ⟨32, .cpu⟩ (.start .standard g .empty .standard 0)).1 = .ok (.value v) ∧
      v.cast .int32 = .ok v := by
  intro g v
  have hrun : (Eval.complete ⟨1⟩ ⟨32, .cpu⟩ (.start .standard g .empty .standard 0)).1 =
      .ok (.value v) := rfl
  obtain ⟨outs, ws, houts, hws, hcast⟩ := Graph.Reached.declared_dtype_of_value .standard
    (Graph.built_ofSteps _).reached .empty .standard 0 ⟨32, .cpu⟩ (g := g) rfl rfl rfl rfl hrun
  refine ⟨rfl, hrun, hcast ?_⟩
  cases houts
  cases hws
  exact List.forall_mem_singleton.mpr ⟨by decide, by decide⟩

end Dataflow
