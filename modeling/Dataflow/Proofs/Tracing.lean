import Dataflow.Proofs.Denotation
import Dataflow.Proofs.Provenance

/-!
# Evaluations are accounted for

If every node before a node is evaluated so that what is left of it can be traced back, then so is
the node. An operation is left for later only when an operand has no value, and with enough steps an
operand has no value only if it reaches a retained node.
-/

namespace Dataflow

open State

/-! ## Steps on the state -/

theorem State.Plain.ensures {α : Type} {enough : Prop} {root : NodeId} {c : Settings} {s : State}
    {x : Eval α} {Q : Except Failure α → State → Prop} (h : Plain s (x c s).2)
    (hQ : Q (x c s).1 (x c s).2) : (tracing enough root).Ensures c s x Q :=
  fun hs => ⟨h.accounted hs, h.traces root, hQ⟩

namespace Eval

variable {enough : Prop} {root : NodeId} {c : Settings} {s : State} {id : NodeId} {node : Node}
variable {o : Operation}

theorem report_traced {r : Report} (hdispatched : (Event.report r).dispatched? = none)
    (hdeferral : (Event.report r).deferral? = none) :
    (tracing enough root).Ensures c s (report r) (OnResult fun _ _ => True) :=
  Plain.ensures (.emit s hdispatched hdeferral) trivial

theorem compute_traced {args : Arguments} : (tracing enough root).Ensures c s (compute args)
    (OnResult fun out _ => out.nodes = []) := by
  refine Plain.ensures ?_ ?_
  · rw [compute_run]
    exact .compute s args c.backend
  · rw [compute_run]
    cases (args.compute c.backend s.rng).outcome with
    | ok v => exact Output.nodes_value v
    | error e => trivial

theorem write_traced {update : Update} {target : NodeId} {v : Value} :
    (tracing enough root).Ensures c s (write update target v)
      (OnResult fun out _ => out.nodes = []) := by
  intro hs
  cases hstore : s.graph.store target v with
  | error e =>
    rw [write_run_error hstore]
    exact ⟨hs, Traces.refl root s, trivial⟩
  | ok r =>
    obtain ⟨g, w⟩ := r
    obtain ⟨n, hn, -⟩ := hs.graph.store_eq hstore update
    rw [write_run update hs.graph hstore hn]
    have hplain := Plain.wrote s (some (update, n.name, w))
    exact ⟨hplain.accounted hs, hplain.traces root, Output.nodes_value w⟩

/-- A node that is left for later stands for itself if it is a copy, and else a copy stands for
it. -/
theorem defer_traced (hnode : s.graph.node? id = some node) (hkind : node.kind = .operation o)
    (hheld : enough → s.HeldUp o) : (tracing enough id).Ensures c s (defer id o)
      (OnResult fun out t => ∀ n ∈ out.nodes, t.Traced id n) := by
  intro hs
  cases hsymbolic : s.isSymbolic id with
  | true =>
    rw [defer_run_symbolic hsymbolic]
    refine ⟨hs, Traces.refl id s, fun n hn => ?_⟩
    cases List.mem_singleton.mp hn
    exact .self (stays_iff.mpr (.inl (by simpa [isSymbolic] using hsymbolic)))
  | false =>
    obtain ⟨g, copy, hadd⟩ := Graph.exists_addDeferred hnode o
    obtain ⟨hextends, -, -, added, hadded, -⟩ := Graph.addDeferred_copy hadd
    rw [defer_run_of_nodes hsymbolic hadd (hextends.node? hnode) hadded]
    obtain ⟨ht, hst, hdefers⟩ := hs.defer hnode hkind hadd hadded hheld
    refine ⟨ht, hst, fun n hn => ?_⟩
    cases List.mem_singleton.mp hn
    exact .inr ⟨id, .refl _ id, hdefers⟩

end Eval

/-! ## Operands -/

namespace Earlier

/-- What is left of the nodes below `bound` can be traced back to them. If there are `enough` steps
for a node, what is left of it when it is evaluated completely stays as it is. -/
abbrev Tracked (earlier : Earlier) (enough : Prop) (c : Settings) (bound : Nat) : Prop :=
  earlier.Satisfies bound
    (fun id s x => (enough → id.index < c.maxIterations) → (tracing enough id).Ensures c s x
      (OnResult fun out t => ∀ n ∈ out.nodes, t.Traced id n))
    (fun id s x => (enough → id.index < c.maxIterations) → (tracing enough id).Ensures c s x
      (OnResult fun out t => ∀ n ∈ out.nodes, t.Traced id n ∧ (enough → t.stays n = true)))

variable {earlier : Earlier} {enough : Prop} {c : Settings} {bound : Nat}
variable {s t : State} {id r : NodeId} {node : Node} {o : Operation}

/-- What is left of a node that `id` reaches may be left of `id`. -/
theorem ensures_from {x : Eval Output} (hr : s.graph.Reaches id r)
    (h : (tracing enough r).Ensures c s x
      (OnResult fun out t => ∀ n ∈ out.nodes, t.Traced r n ∧ (enough → t.stays n = true))) :
    (tracing enough id).Ensures c s x
      (OnResult fun out t => ∀ n ∈ out.nodes, t.Traced id n ∧ (enough → t.stays n = true)) := by
  apply (tracing_from h hr).conseq
  rintro (_ | out) t ht hst hout
  · trivial
  · exact fun n hn => ⟨.trans (Accounted.graph ht) (hr.evolves hst.graph) (hout n hn).1,
      (hout n hn).2⟩

/-- A node that is left of `id` and does not stay as it is lies further back. -/
theorem completesTo_traced (h : earlier.Tracked enough c bound) (hid : id.index ≤ bound)
    (hsteps : enough → id.index < c.maxIterations) {n : NodeId} (hn : s.Traced id n) :
    Output.CompletesTo (tracing enough id) c earlier.complete
      (fun k t => t.Traced id k ∧ (enough → t.stays k = true)) s n := by
  intro t ht hst
  have hn := Onward.traced hst.toOnward hn
  split
  · rename_i hstays
    exact ⟨hn, fun _ => hstays⟩
  · rename_i hstays
    obtain ⟨hreaches, hlt⟩ := Accounted.reaches_of_traced ht hn (by simpa using hstays)
    exact ensures_from hreaches (h.complete n t (by omega) fun henough =>
      Nat.lt_trans hlt (hsteps henough))

theorem lasts_traced {k : NodeId} (hst : (tracing enough r).step s t)
    (hk : s.Traced id k ∧ (enough → s.stays k = true)) :
    t.Traced id k ∧ (enough → t.stays k = true) :=
  ⟨hst.traced hk.1, fun henough => hst.stays (hk.2 henough)⟩

theorem completeOutput_traced (h : earlier.Tracked enough c bound) (hid : id.index ≤ bound)
    (hsteps : enough → id.index < c.maxIterations) {out : Output}
    (htraced : ∀ n ∈ out.nodes, s.Traced id n) :
    (tracing enough id).Ensures c s (out.completeWith earlier.complete)
      (OnResult fun out t => ∀ n ∈ out.nodes, t.Traced id n ∧ (enough → t.stays n = true)) :=
  Output.completeWith_ensures (K := fun k t => t.Traced id k ∧ (enough → t.stays k = true))
    (fun _ _ _ => lasts_traced) out s fun n hn => completesTo_traced h hid hsteps (htraced n hn)

section Operands

-- The operands of the node `id`, for which there are enough steps, are evaluated.
variable (h : earlier.Tracked enough c id.index) (hsteps : enough → id.index < c.maxIterations)

include h hsteps

theorem complete_traced (hr : s.graph.Refers id r) :
    (tracing enough id).Ensures c s (earlier.complete r)
      (OnResult fun out t => ∀ n ∈ out.nodes, t.Traced r n ∧ (enough → t.stays n = true)) := by
  refine .of_inv fun hs => ?_
  have hlt := Accounted.graph hs |>.lt_of_refers hr
  exact tracing_from (h.complete r s hlt fun henough => Nat.lt_trans hlt (hsteps henough))
    (.of_refers hr)

theorem resolve_traced (hr : s.graph.Refers id r) :
    (tracing enough id).Ensures c s (earlier.resolve r)
      (OnResult fun found t => enough → found = none → t.Held r) := by
  refine (complete_traced h hsteps hr).bindResult fun out t _ _ hout => ?_
  refine .pure fun ht henough hnone => ?_
  -- An output without a value has a node left in it.
  have hnodes : out.nodes ≠ [] := by
    intro hnil
    have hsome := Output.toValue?_isSome.mpr hnil
    rw [hnone] at hsome
    cases hsome
  obtain ⟨n, hn⟩ := List.exists_mem_of_ne_nil _ hnodes
  exact Accounted.held_of_traced ht henough (hout n hn).1 ((hout n hn).2 henough)

theorem resolveAll_traced {ids : List NodeId} (hids : ∀ r ∈ ids, s.graph.Refers id r) :
    (tracing enough id).Ensures c s (earlier.resolveAll ids)
      (OnResult fun found t => enough → found = none → ∃ r ∈ ids, t.Held r) := by
  induction ids generalizing s with
  | nil => exact .pure fun _ _ hnone => by cases hnone
  | cons r ids ih =>
    refine (resolve_traced h hsteps (hids r List.mem_cons_self)).bindResult fun v t _ hst hv => ?_
    cases v with
    | none => exact .pure fun _ henough _ => ⟨r, List.mem_cons_self, hv henough rfl⟩
    | some v =>
      refine (ih fun n hn => (hids n (List.mem_cons_of_mem r hn)).evolves hst.graph).bindResult ?_
      intro vs u _ _ hvs
      cases vs with
      | none =>
        refine .pure fun _ henough _ => ?_
        obtain ⟨n, hn, hheld⟩ := hvs henough rfl
        exact ⟨n, List.mem_cons_of_mem r hn, hheld⟩
      | some vs => exact .pure fun _ _ hnone => by cases hnone

theorem resolveOption_traced {option : OptionValue}
    (hids : ∀ r ∈ option.references, s.graph.Refers id r) :
    (tracing enough id).Ensures c s (earlier.resolveOption option)
      (OnResult fun found t => enough → found = none → ∃ r ∈ option.references, t.Held r) := by
  cases option with
  | value v => exact .pure fun _ _ hnone => by cases hnone
  | dtype t => exact .pure fun _ _ hnone => by cases hnone
  | node r =>
    have hr : r ∈ (OptionValue.node r).references := by simp [OptionValue.references]
    refine (resolve_traced h hsteps (hids r hr)).bindResult fun v t _ _ hv => ?_
    refine .pure fun _ henough hnone => ⟨r, hr, hv henough ?_⟩
    exact Option.map_eq_none_iff.mp hnone
  | nodes ids =>
    refine (resolveAll_traced h hsteps hids).bindResult fun vs t _ _ hvs => ?_
    exact .pure fun _ henough hnone => hvs henough (Option.map_eq_none_iff.mp hnone)

theorem resolveOptions_traced {entries : List (String × OptionValue)}
    (hids : ∀ entry ∈ entries, ∀ r ∈ entry.2.references, s.graph.Refers id r) :
    (tracing enough id).Ensures c s (earlier.resolveOptions entries)
      (OnResult fun found t => enough → found = none →
        ∃ entry ∈ entries, ∃ r ∈ entry.2.references, t.Held r) := by
  induction entries generalizing s with
  | nil => exact .pure fun _ _ hnone => by cases hnone
  | cons entry entries ih =>
    obtain ⟨key, option⟩ := entry
    refine (resolveOption_traced h hsteps (hids _ List.mem_cons_self)).bindResult ?_
    intro v t _ hst hv
    cases v with
    | none => exact .pure fun _ henough _ => ⟨_, List.mem_cons_self, hv henough rfl⟩
    | some v =>
      refine (ih fun e he r hr =>
        (hids e (List.mem_cons_of_mem _ he) r hr).evolves hst.graph).bindResult ?_
      intro vs u _ _ hvs
      cases vs with
      | none =>
        refine .pure fun _ henough _ => ?_
        obtain ⟨e, he, hheld⟩ := hvs henough rfl
        exact ⟨e, List.mem_cons_of_mem _ he, hheld⟩
      | some vs => exact .pure fun _ _ hnone => by cases hnone

/-- The arguments of a kernel are missing only if one of its operands is held. -/
theorem gather_traced {kernel : Kernel} (hids : ∀ r ∈ o.references, s.graph.Refers id r) :
    (tracing enough id).Ensures c s (earlier.gather id kernel o) (OnResult fun found t =>
      (enough → found = none → t.HeldUp o) ∧ ∀ args, found = some args → args.kernel = kernel) := by
  refine (resolveAll_traced h hsteps fun r hr => hids r (List.mem_append_left _ hr)).bindResult ?_
  intro vs t _ hst hvs
  cases vs with
  | none =>
    refine .pure fun _ => ⟨fun henough _ => ?_, fun _ hargs => by cases hargs⟩
    obtain ⟨r, hr, hheld⟩ := hvs henough rfl
    exact ⟨r, List.mem_append_left _ hr, hheld⟩
  | some vs =>
    refine (resolveOptions_traced h hsteps fun entry hentry r hr =>
      (hids r (Operation.mem_references_of_entry hentry hr)).evolves hst.graph).bindResult ?_
    intro rs u _ _ hrs
    cases rs with
    | none =>
      refine .pure fun _ => ⟨fun henough _ => ?_, fun _ hargs => by cases hargs⟩
      obtain ⟨entry, hentry, r, hr, hheld⟩ := hrs henough rfl
      exact ⟨r, Operation.mem_references_of_entry hentry hr, hheld⟩
    | some rs =>
      refine Eval.node_ensures.bindResult fun n v _ _ _ => ?_
      refine .pure fun _ => ⟨fun _ hnone => ?_, fun args hargs => ?_⟩
      · cases hnone
      · cases hargs
        rfl

/-! ## Operations -/

/-- What is left of an operand may be left of the operation. -/
theorem passed_traced (hr : s.graph.Refers id r) :
    (tracing enough id).Ensures c s (earlier.complete r)
      (OnResult fun out t => ∀ n ∈ out.nodes, t.Traced id n) := by
  apply (complete_traced h hsteps hr).conseq
  rintro (_ | out) t ht hst hout
  · trivial
  · exact fun n hn => Traced.trans (Accounted.graph ht)
      (.of_refers (hr.evolves hst.graph)) (hout n hn).1

theorem identity_traced {i : Nat} (hids : ∀ r ∈ o.references, s.graph.Refers id r) :
    (tracing enough id).Ensures c s (do earlier.complete (← operand o i))
      (OnResult fun out t => ∀ n ∈ out.nodes, t.Traced id n) := by
  refine operand_ensures.bindResult fun r t _ hst hr => ?_
  exact passed_traced h hsteps
    ((hids r (Operation.mem_references_of_operand hr)).evolves hst.graph)

theorem each_traced {ids : List NodeId} (hids : ∀ r ∈ ids, s.graph.Refers id r) :
    (tracing enough id).Ensures c s (Eval.each earlier.complete ids)
      (OnResult fun rs t => ∀ out ∈ rs, ∀ n ∈ out.nodes, t.Traced id n) :=
  Regime.Ensures.each (fun _ _ _ hst hout n hn => (Traces.toOnward hst).traced (hout n hn)) ids s
    fun r hr _ hst => passed_traced h hsteps ((hids r hr).evolves hst.graph)

theorem flowGroup_traced (hids : ∀ r ∈ o.references, s.graph.Refers id r) :
    (tracing enough id).Ensures c s (earlier.flowGroup o)
      (OnResult fun out t => ∀ n ∈ out.nodes, t.Traced id n) := by
  refine (each_traced h hsteps fun r hr =>
    hids r (Operation.references_of_mem_members hr)).bindResult fun rs t _ _ hrs => ?_
  refine .pure fun _ n hn => ?_
  obtain ⟨out, hout, hn⟩ := Output.mem_nodes_list.mp hn
  exact hrs out hout n hn

/-- A printed operand is passed on as it is. -/
theorem print_traced (hids : ∀ r ∈ o.references, s.graph.Refers id r) :
    (tracing enough id).Ensures c s (earlier.print o)
      (OnResult fun out t => ∀ n ∈ out.nodes, t.Traced id n) := by
  refine operand_ensures.bindResult fun input t _ hst hinput => ?_
  have hrefers := (hids input (Operation.mem_references_of_operand hinput)).evolves
    hst.graph
  refine (complete_traced h hsteps hrefers).bindResult fun shown u _ htu _ => ?_
  refine (Eval.report_traced rfl rfl).bindResult fun _ v _ huv _ => ?_
  refine .pure fun hv n hn => ?_
  cases List.mem_singleton.mp hn
  exact .of_refers (Accounted.graph hv)
    (hrefers.evolves (htu.graph.trans huv.graph))

theorem assign_traced {update : Update} (hnode : s.graph.node? id = some node)
    (hkind : node.kind = .operation o) :
    (tracing enough id).Ensures c s (earlier.assign id o update)
      (OnResult fun out t => ∀ n ∈ out.nodes, t.Traced id n) := by
  have hwrite : ∀ {t : State} {target : NodeId} {v : Value},
      (tracing enough id).Ensures c t (.write update target v)
        (OnResult fun out u => ∀ n ∈ out.nodes, u.Traced id n) := by
    intro t target v
    apply Eval.write_traced.conseq
    rintro (_ | out) u _ _ hnodes
    · trivial
    · simp [show out.nodes = [] from hnodes]
  refine operand_ensures.bindResult fun target t _ hst htarget => ?_
  refine operand_ensures.bindResult fun source u _ htu hsource => ?_
  have hsu : s.graph.Evolves u.graph := (hst.graph.trans htu.graph)
  have hrefers : ∀ r ∈ o.references, u.graph.Refers id r :=
    fun r hr => .of_operation (hsu.operation hnode hkind) hkind hr
  have hsource := Operation.mem_references_of_operand hsource
  have htarget := Operation.mem_references_of_operand htarget
  -- The source comes first, and the target is evaluated only if its old value is needed.
  refine (resolve_traced h hsteps (hrefers source hsource)).bindResult fun v w _ huw hv => ?_
  have huw := huw.graph
  have hw := (hsu.trans huw).operation hnode hkind
  cases v with
  | none => exact Eval.defer_traced hw hkind fun henough => ⟨source, hsource, hv henough rfl⟩
  | some v =>
    dsimp only
    split
    · exact hwrite
    · refine (resolve_traced h hsteps ((hrefers target htarget).evolves huw)).bindResult ?_
      intro old x _ hwx hold
      cases old with
      | none =>
        exact Eval.defer_traced (hwx.graph.operation hw hkind) hkind
          fun henough => ⟨target, htarget, hold henough rfl⟩
      | some old =>
        dsimp only
        split
        · exact hwrite
        · exact .fail fun _ => trivial

theorem cond_traced (hnode : s.graph.node? id = some node) (hkind : node.kind = .operation o) :
    (tracing enough id).Ensures c s (earlier.cond id o)
      (OnResult fun out t => ∀ n ∈ out.nodes, t.Traced id n) := by
  have hids : ∀ r ∈ o.references, s.graph.Refers id r :=
    fun r hr => .of_operation hnode hkind hr
  unfold cond
  dsimp only
  split
  · rename_i pred hpred
    have hmem := Operation.mem_references_of_option hpred List.mem_cons_self
    refine (resolve_traced h hsteps (hids pred hmem)).bindResult fun v t _ hst hv => ?_
    have hst := hst.graph
    cases v with
    | some v => exact identity_traced h hsteps fun r hr => (hids r hr).evolves hst
    | none =>
      exact Eval.defer_traced (hst.operation hnode hkind) hkind
        fun henough => ⟨pred, hmem, hv henough rfl⟩
  · exact identity_traced h hsteps hids
  · exact .fail fun _ => trivial

theorem perform_traced (hnode : s.graph.node? id = some node) (hkind : node.kind = .operation o) :
    (tracing enough id).Ensures c s (earlier.perform id o)
      (OnResult fun out t => ∀ n ∈ out.nodes, t.Traced id n) := by
  have hids : ∀ r ∈ o.references, s.graph.Refers id r :=
    fun r hr => .of_operation hnode hkind hr
  unfold perform
  split
  · exact assign_traced h hsteps hnode hkind
  · exact flowGroup_traced h hsteps hids
  · exact identity_traced h hsteps hids
  · exact identity_traced h hsteps hids
  · exact print_traced h hsteps hids
  · exact cond_traced h hsteps hnode hkind
  · exact .fail fun _ => trivial
  · refine (gather_traced h hsteps hids).bindResult fun args t _ hst hargs => ?_
    cases args with
    | some args =>
      apply Eval.compute_traced.conseq
      rintro (_ | out) u _ _ hnodes
      · trivial
      · simp [show out.nodes = [] from hnodes]
    | none =>
      exact Eval.defer_traced (hst.graph.operation hnode hkind) hkind
        fun henough => hargs.1 henough rfl

/-! ## Breakpoints -/

theorem observe_traced {i : Nat} (hids : ∀ r ∈ o.references, s.graph.Refers id r) :
    (tracing enough id).Ensures c s (earlier.observe o i) (OnResult fun _ _ => True) := by
  unfold observe
  split
  · exact .pure fun _ => trivial
  · rename_i input hinput
    split
    · refine .state ?_
      split <;> exact .pure fun _ => trivial
    · have hr := hids input (Operation.mem_references_of_operand hinput)
      refine (complete_traced h hsteps hr).attempt.bind (fun r t _ _ _ => ?_) ?_
      · cases r <;> exact .pure fun _ => trivial
      · exact fun _ _ _ _ _ => trivial

theorem fire_traced (hids : ∀ r ∈ o.references, s.graph.Refers id r) {result : Output}
    (htraced : ∀ n ∈ result.nodes, s.Traced id n) :
    (tracing enough id).Ensures c s (earlier.fire id o result) (OnResult fun _ _ => True) := by
  unfold fire
  refine .state ?_
  split
  · exact .pure fun _ => trivial
  · rename_i node hnode
    split
    · refine (observe_traced h hsteps hids).bindResult fun a t _ hst _ => ?_
      refine (observe_traced h hsteps fun r hr => (hids r hr).evolves hst.graph).bindResult ?_
      intro b u _ htu _
      -- For the report, the result is completed.
      have hresult : ∀ n ∈ result.nodes, u.Traced id n :=
        fun n hn => htu.traced (hst.traced (htraced n hn))
      refine (completeOutput_traced h (Nat.le_refl _) hsteps hresult).attempt.bind
        (fun shown v _ _ _ => ?_) fun _ _ _ _ _ => trivial
      exact Plain.ensures (.emit v rfl rfl) trivial
    · exact .pure fun _ => trivial

/-! ## Running operations -/

theorem runOperation_traced (hnode : s.graph.node? id = some node)
    (hkind : node.kind = .operation o) (hretained : s.context.isRetained id = false)
    {name : String} :
    (tracing enough id).Ensures c s (earlier.runOperation id name (.operation o))
      (OnResult fun out t => ∀ n ∈ out.nodes, t.Traced id n) := by
  rw [runOperation_eq]
  refine .state ?_
  split
  · rename_i known hlookup
    refine .of_inv fun hs => ?_
    have htraced := Accounted.traced hs _ (mem_of_lookup hlookup)
    refine (Eval.report_traced rfl rfl).bindResult fun _ t _ hst _ => ?_
    exact .pure fun _ n hn => (Traces.toOnward hst).traced (htraced n hn)
  · refine (perform_traced h hsteps hnode hkind).attempt.bind (fun r t _ hst hr => ?_) ?_
    · obtain ⟨_, ⟨⟩, hr⟩ := hr
      have hnode' := hst.graph.operation hnode hkind
      cases r with
      | error e =>
        exact .of_eq (y := .fail (t.graph.wrap id e)) (Eval.bind_run_ok (Eval.inContext_run id e))
          (.fail fun _ => trivial)
      | ok out =>
        have hr : ∀ n ∈ out.nodes, t.Traced id n := hr
        refine Regime.Ensures.bindResult
          (P := fun _ u => u = t.recorded id out) (fun ht => ?_) ?_
        · obtain ⟨hu, htu⟩ := Accounted.remember ht ((hst.isRetained id).trans hretained) hr
          exact ⟨hu, htu, rfl⟩
        · rintro _ u _ htu rfl
          refine (fire_traced h hsteps ?_ ?_).bindResult fun _ v _ huv _ => ?_
          · exact fun r hr => .of_operation (htu.graph.operation hnode' hkind) hkind hr
          · exact fun n hn => htu.traced (hr n hn)
          · exact .pure fun _ n hn => huv.traced (htu.traced (hr n hn))
    · rintro e t _ _ ⟨_, habsurd, _⟩
      cases habsurd

end Operands

/-! ## Running and completing nodes -/

theorem runNode_traced (h : earlier.Tracked enough c bound) (hid : id.index ≤ bound)
    (hsteps : enough → id.index < c.maxIterations) :
    (tracing enough id).Ensures c s (earlier.runNode id)
      (OnResult fun out t => ∀ n ∈ out.nodes, t.Traced id n) := by
  refine .state ?_
  split
  · rename_i hretained
    refine .pure fun _ n hn => ?_
    cases List.mem_singleton.mp hn
    exact .self (stays_iff.mpr (.inr hretained))
  · rename_i hretained
    have hretained : s.context.isRetained id = false := by simpa using hretained
    refine Eval.node_ensures.bindResult fun node t _ hst ⟨hts, hnode⟩ => ?_
    subst hts
    refine Regime.Ensures.bindResult (P := fun _ _ => True) (fun ht => ?_) fun _ u hu htu _ => ?_
    · obtain ⟨hu, htu⟩ := Accounted.dispatch _ ht hnode hretained node.kind.label
      exact ⟨hu, htu, trivial⟩
    split
    · exact .pure fun _ => by simp
    · rename_i target hkind
      have hrefers : u.graph.Refers id target :=
        Graph.Refers.evolves ⟨node, hnode, by simp [hkind, NodeKind.references]⟩ htu.graph
      have hlt := Accounted.graph hu |>.lt_of_refers hrefers
      apply (tracing_from (h.run target u (by omega) fun henough =>
        Nat.lt_trans hlt (hsteps henough)) (.of_refers hrefers)).conseq
      rintro (_ | out) v hv huv hout
      · trivial
      · exact fun n hn => Traced.trans (Accounted.graph hv)
          (.of_refers (hrefers.evolves huv.graph)) (hout n hn)
    · exact .fail fun _ => trivial
    · refine Regime.Ensures.bindResult (P := fun _ _ => True)
        (Plain.ensures (.recordRead u id) trivial) fun _ v _ _ _ => .pure fun _ => by simp
    · refine .state ?_
      split
      · exact .pure fun _ => by simp
      · exact .fail fun _ => trivial
    · rename_i hkind
      exact runOperation_traced (h.mono hid) hsteps (htu.graph.operation hnode hkind) hkind
        ((htu.isRetained id).trans hretained)

/-- A node that is left of `last` and is not run in turn stays as it is. -/
theorem stays_of_traced {last next : NodeId} (hs : Accounted enough s) (h : s.Traced last next)
    (hstop : next = last ∨ s.stays next = true) : s.stays next = true := by
  rcases hstop with rfl | hstays
  · by_contra hnot
    obtain ⟨-, hlt⟩ := hs.reaches_of_traced h (by simpa using hnot)
    exact Nat.lt_irrefl _ hlt
  · exact hstays

/-- A node that is run in turn lies before the last one. So if there are as many steps left as nodes
before the last one, what is left in the end stays as it is. -/
theorem force_traced (h : earlier.Tracked enough c bound) {origin last : NodeId} {remaining : Nat}
    {current : Output} (hlast : last.index ≤ bound)
    (hsteps : enough → last.index < c.maxIterations) (hremaining : enough → last.index ≤ remaining)
    (htraced : ∀ n ∈ current.nodes, s.Traced last n) :
    (tracing enough last).Ensures c s (earlier.force origin remaining last current)
      (OnResult fun out t => ∀ n ∈ out.nodes, t.Traced last n ∧ (enough → t.stays n = true)) := by
  induction remaining using Nat.strongRecOn generalizing last current s with
  | ind remaining ih =>
  cases current with
  | value v =>
    rw [force_value]
    exact .pure fun _ => by simp
  | list items =>
    rw [force_list]
    exact completeOutput_traced h hlast hsteps htraced
  | node next =>
    have hnext := htraced next List.mem_cons_self
    rw [force_node]
    refine .stays ?_
    split
    · rename_i hstop
      exact .pure fun hs => by simpa using ⟨hnext, fun _ => stays_of_traced hs hnext hstop⟩
    · rename_i hgoes
      refine .of_inv fun hs => ?_
      obtain ⟨hreaches, hlt⟩ :=
        Accounted.reaches_of_traced hs hnext (by simpa using (not_or.mp hgoes).2)
      cases remaining with
      | zero =>
        refine .settings (Eval.node_ensures.bindResult fun _ t _ hst _ => ?_)
        refine (Eval.report_traced rfl rfl).bindResult fun _ u _ htu _ => .pure fun _ n hn => ?_
        cases List.mem_singleton.mp hn
        -- The steps have run out, so there were not enough of them.
        exact ⟨htu.traced (hst.traced hnext), fun henough => by have := hremaining henough; omega⟩
      | succ remaining =>
        have hsteps' : enough → next.index < c.maxIterations :=
          fun henough => Nat.lt_trans hlt (hsteps henough)
        refine (tracing_from (runNode_traced h (by omega) hsteps') hreaches).bindResult ?_
        intro out t _ hst hout
        have hremaining' : enough → next.index ≤ remaining := by
          intro henough
          have := hremaining henough
          omega
        exact ensures_from (hreaches.evolves hst.graph)
          (ih remaining (by omega) (by omega) hsteps' hremaining' hout)

theorem completeNode_traced (h : earlier.Tracked enough c bound) (hid : id.index ≤ bound)
    (hsteps : enough → id.index < c.maxIterations) :
    (tracing enough id).Ensures c s (earlier.completeNode id)
      (OnResult fun out t => ∀ n ∈ out.nodes, t.Traced id n ∧ (enough → t.stays n = true)) := by
  refine (runNode_traced h hid hsteps).bindResult fun first t _ _ hfirst => ?_
  refine .settings (force_traced h hid hsteps (fun henough => ?_) hfirst)
  have := hsteps henough
  omega

theorem below_tracked (enough : Prop) (c : Settings) (bound : Nat) :
    (below bound).Tracked enough c bound :=
  below_satisfies (fun _ h _ _ hid =>
    ⟨fun hsteps => runNode_traced h hid hsteps, fun hsteps => completeNode_traced h hid hsteps⟩)
    bound

end Earlier

namespace Eval

variable {enough : Prop} {c : Settings} {s : State} {id : NodeId}

theorem run_traced (hsteps : enough → id.index < c.maxIterations) :
    (tracing enough id).Ensures c s (run id)
      (OnResult fun out t => ∀ n ∈ out.nodes, t.Traced id n) :=
  (Earlier.below_tracked enough c (id.index + 1)).run id s (Nat.lt_succ_self _) hsteps

theorem complete_traced (hsteps : enough → id.index < c.maxIterations) :
    (tracing enough id).Ensures c s (complete id)
      (OnResult fun out t => ∀ n ∈ out.nodes, t.Traced id n ∧ (enough → t.stays n = true)) :=
  (Earlier.below_tracked enough c (id.index + 1)).complete id s (Nat.lt_succ_self _) hsteps

end Eval

end Dataflow
