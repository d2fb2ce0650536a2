import Dataflow.Proofs.Arena
import Dataflow.Proofs.Blame
import Dataflow.Proofs.Stability

/-!
# Internal failures

Operations are added with as many operands as they take, on nodes that are there, and each is
performed by the kernel or the control that it names. So no evaluation ends with a failure that says
otherwise.
-/

namespace Dataflow

variable (lib : Library Rng)

open State

theorem Operation.Updates.exists_of_error {o : Operation} {V : NodeId → Value → Prop}
    {update : Update} {f : Fault} (h : o.Updates V update (.error f)) :
    ∃ op old v, Value.binary op old v = .error f := by
  generalize hr : (Except.error f : Except Fault Value) = r at h
  cases h with
  | set => cases hr
  | apply => exact ⟨_, _, _, rfl⟩

/-- A failure that an operation within its arity is refused with speaks of no internal mistake. -/
theorem Operation.Refuses.isInternal {o : Operation} {V : NodeId → Value → Prop} {e : Failure}
    (h : o.Refuses V e) (harity : e.isArity = false) : e.isInternal = false := by
  cases h with
  | operand => cases harity
  | update hop hupdates =>
    obtain ⟨op, old, v, hfault⟩ := hupdates.exists_of_error
    exact (Value.binary_proper op old v).error _ hfault
  | pred => rfl
  | gradients => rfl

/-- The conduct of failures that come from outside: from the values and the options that were
given. -/
def Conduct.external : Conduct where
  inv s := s.graph.WithinArity
  gives
    | _, .ok out, s => ∀ n ∈ out.nodes, s.stays n = true ∨ ∃ node, s.graph.node? n = some node
    | id, .error e, s => s.graph.node? id = none ∨ e.rootCause.isInternal = false
  left n s := s.stays n = true ∨ ∃ node, s.graph.node? n = some node

namespace Conduct

variable {c : Settings}

/-- The last step of an operation fails for the sake of its operands only. -/
theorem Performing.isInternal (hbackend : c.backend.Proper) {id : NodeId} {node : Node}
    {o : Operation} {s t : State} {y : Eval Output} {e : Failure}
    (h : external.Performing c id node o s y) (hrun : y c s = (.error e, t)) :
    e.rootCause.isInternal = false := by
  have harity : o.WithinArity := h.inv id node o h.found h.kind
  have hthere : ∀ r ∈ o.references, ∃ n, s.graph.node? r = some n := fun r hr =>
    Graph.exists_node?_of_lt (Nat.lt_trans (h.coherent.graph.lt_of_operation h.found h.kind r hr)
      (Graph.lt_size_of_node? h.found))
  have hroot : ∀ {e : Failure}, e.isWrapped = false → e.isInternal = false →
      e.rootCause.isInternal = false := fun hwrapped hinternal => by
    rwa [Failure.rootCause_of_isWrapped hwrapped]
  -- All operands are there, and there are as many as the operation takes.
  cases h.last with
  | @failed r _ hr hgives =>
    cases hrun
    obtain ⟨n, hn⟩ := hthere r hr
    exact hgives.1.resolve_left (by simp [hn])
  | refused hrefused hneeded =>
    cases hrun
    have hinternal := hrefused.isInternal (hneeded harity)
    cases hrefused <;> exact hinternal
  | @computed kernel _ args hop hnode hargs =>
    rw [Eval.compute_run] at hrun
    have houtcome := Except.map_eq_error.mp (congrArg Prod.fst hrun)
    have hrefuses := (Arguments.owns_compute c.backend _).error e houtcome
    refine hroot hrefuses.isWrapped (hrefuses.isInternal hbackend ?_)
    rw [Arguments.op, hargs.kernel, ← hop, ← hargs.operands.length_eq]
    exact harity.1
  | @written update target v hop htarget hv =>
    have houtcome := (Eval.write_outcome h.coherent.graph update v).symm.trans
      (congrArg Prod.fst hrun)
    have hstore := Except.map_eq_error.mp houtcome
    obtain ⟨hnone, -⟩ | ⟨n, -, rfl | ⟨f, hcast, rfl⟩⟩ := Graph.store_eq_error hstore
    · obtain ⟨n, hn⟩ := hthere target (Operation.mem_references_of_operand htarget)
      cases hnone.symm.trans hn
    · rfl
    · exact (v.cast_proper n.dtype).error f hcast
  | deferred =>
    obtain ⟨n, u, hdefer, -⟩ := Eval.defer_run_ok c h.found o
    cases hdefer.symm.trans hrun
  | passed => cases hrun
  | grouped => cases hrun
  | printed => cases hrun

theorem external_lawful (hbackend : c.backend.Proper) : external.Lawful c where
  alike h hs := by
    show Graph.WithinArity _
    rw [h.graph]
    exact hs
  leaves h := h
  lasts hst h := h.imp hst.stays hst.exists_node?
  retained _ hretained n hn := by
    cases List.mem_singleton.mp hn
    exact .inl (stays_iff.mpr (.inr hretained))
  missing _ _ hnone := .inl hnone
  leaf hs hactive hnode h := by
    cases h with
    | literal => simp [external]
    | initialized => simp [external]
    | bound => simp [external]
    | uninitialized => exact .inr rfl
    | unbound => exact .inr rfl
  reference {id node target r s} hs hactive hnode hkind h := by
    cases r with
    | ok out => exact h
    | error e =>
      have hlt := hs.1.graph.lt_of_reference hnode hkind
      obtain ⟨n, hn⟩ :=
        Graph.exists_node?_of_lt (Nat.lt_trans hlt (Graph.lt_size_of_node? hnode))
      exact .inr (h.resolve_left (by simp [hn]))
  remembered hs hmem n hn := .inr (hs.1.exists_node?_of_left hmem hn)
  failed {id node o y s e t} h hrun := by
    refine .inr ?_
    rw [Graph.rootCause_wrap]
    exact h.isInternal hbackend hrun
  performed h hrun hcoherent := by
    have hgraph := Graph.WithinArity.stable.changes (h.changes hrun) h.found h.kind h.inv
    exact ⟨hgraph, fun n hn => .inr (hcoherent.exists_node?_of_left List.mem_cons_self hn)⟩
  later _ _ _ h := h
  blocked {id n e s t} hleft hstays hst h := by
    obtain ⟨node, hnode⟩ := hst.exists_node? (hleft.resolve_left (by simp [hstays]))
    exact .inr (h.resolve_left (by simp [hnode]))

end Conduct

namespace State

/-- Whatever was evaluated before, a call for nodes that are there does not fail for an internal
reason, on a backend that does not make up such faults itself. -/
theorem failures_external {g : Graph} (hg : g.Reached) (context : Context) (config : Config)
    (spare : UInt64) (c : Settings) (hbackend : c.backend.Proper) (session : Session)
    (context' : Context) (call : Call) (e : Failure) (t : State)
    (hids : ∀ id ∈ call.ids,
      id.index < ((State.start lib g context config spare).after c session).graph.size)
    (hrun : call.eval c { (State.start lib g context config spare).after c session with
      context := context' } = (.error e, t)) :
    e.rootCause.isInternal = false := by
  have laws := Conduct.external_lawful hbackend
  obtain ⟨hs, harity⟩ := laws.after (fun _ _ h => h) session
    ⟨coherent_start lib hg.wellFormed context config spare, hg.withinArity⟩
  have hgives : ∀ id ∈ call.ids, ∀ (r : Except Failure Output) u, Conduct.external.gives id r u →
      OnOutcome (fun _ _ => True) (fun e u =>
        (∃ id ∈ call.ids, u.graph.node? id = none) ∨ e.rootCause.isInternal = false) r u := by
    rintro id hid (e | out) u hgives
    · exact hgives.imp_left fun hnone => ⟨id, hid, hnone⟩
    · trivial
  obtain ⟨-, hst, hfailure⟩ := call.eval_outcome
    (fun id hid u => (Eval.run_conducted laws id).conseq fun r v _ _ h => hgives id hid r v h)
    (fun id hid u => (Eval.complete_conducted laws id).conseq fun r v _ _ h => hgives id hid r v h)
    _ ⟨hs.with_context context', harity⟩
  rw [hrun] at hst hfailure
  refine hfailure.resolve_left fun ⟨id, hid, hnone⟩ => ?_
  obtain ⟨n, hn⟩ := Advances.exists_node? hst (Graph.exists_node?_of_lt (hids id hid))
  cases hnone.symm.trans hn

/-- A copy that was left for later fails for want of a value of its placeholder. -/
theorem failures_external_copy :
    let g := Graph.ofSteps [.placeholder "x" .int32 none,
      .operation "y" ⟨.kernel (.unary .negate), [⟨0⟩], .empty⟩]
    let s := (State.start .standard g .empty .standard 0).after ⟨32, .cpu⟩
      [(Context.empty.retain ⟨0⟩, .complete ⟨1⟩)]
    ∃ e t, Call.eval (.complete ⟨2⟩) ⟨32, .cpu⟩ { s with context := .empty } = (.error e, t) ∧
      e.rootCause = .missingPlaceholder "x" ∧ e.rootCause.isInternal = false := by
  intro g s
  have hids : ∀ id ∈ (Call.complete ⟨2⟩).ids, id.index < s.graph.size := by
    intro id hid
    cases List.mem_singleton.mp hid
    exact Nat.lt_succ_self 2
  exact ⟨_, _, rfl, rfl, failures_external .standard (Graph.built_ofSteps _).reached .empty
    .standard 0 ⟨32, .cpu⟩ Backend.cpu_proper [(Context.empty.retain ⟨0⟩, .complete ⟨1⟩)] .empty
    (.complete ⟨2⟩) _ _ hids rfl⟩

end State

end Dataflow
