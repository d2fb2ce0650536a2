import Dataflow.Proofs.Session

/-!
# Completing once more

A complete evaluation stops when it has run as many nodes as it is allowed to. Every node that is
run in turn lies before the one that was run last, so with as many steps as there are nodes this
never happens. What is left in the result then stays as it is, and completing it once more changes
nothing.
-/

namespace Dataflow

variable (lib : Library Rng)

open State

/-! ## Enough steps -/

namespace Earlier

/-- If there are enough steps for the nodes below `bound`, evaluating them completely leaves nothing
that could be run any more. -/
abbrev Finishing (earlier : Earlier) (c : Settings) (bound : Nat) : Prop :=
  earlier.Satisfies bound (fun _ _ _ => True) fun id s x => id.index < c.maxIterations →
    (coherence (fun _ => True) (id.index + 1)).Ensures c s x (OnResult fun out t => t.Finished out)

variable {earlier : Earlier} {c : Settings} {bound : Nat} {s : State} {id : NodeId}

/-- A node that is left of `last` and is not run in turn stays as it is. This goes for `last` too,
which is left of itself only if it is a copy or retained. -/
theorem stays_of_spared {last next : NodeId} (h : s.Spared (fun _ => True) last.index next)
    (hstop : next = last ∨ s.stays next = true) : s.stays next = true := by
  rcases hstop with rfl | hstays
  · by_contra hnot
    exact absurd (lt_of_spared h (by simpa using hnot)) (Nat.lt_irrefl _)
  · exact hstays

theorem completeList_finishes (hfinish : earlier.Finishing c bound) (hid : id.index ≤ bound)
    (hsteps : id.index < c.maxIterations) {items : List Output}
    (hspared : ∀ n ∈ (Output.list items).nodes, s.Spared (fun _ => True) id.index n) :
    (coherence (fun _ => True) (id.index + 1)).Ensures c s
      ((Output.list items).completeWith earlier.complete)
      (OnResult fun out t => t.Finished out) := by
  refine Output.completeWith_ensures (K := fun k t => t.stays k = true)
    (fun _ _ _ hstep hk => (Step.toLater hstep).stays hk) (.list items) s fun n hn t _ hst => ?_
  split
  · assumption
  · rename_i hstays
    -- A node that does not stay lies before `id`, and there are enough steps for it as well.
    have hlt := lt_of_spared ((Step.toLater hst).spared (hspared n hn)) (by simpa using hstays)
    exact coherence_mono (hfinish.complete n t (by omega) (by omega)) (by omega)

/-- A node that is run in turn lies before the last one, so the steps do not run out if there are as
many left as nodes before the last one. -/
theorem force_finishes (hsound : earlier.Sound (fun _ => True) c bound)
    (hfinish : earlier.Finishing c bound) {origin last : NodeId} {remaining : Nat}
    {current : Output} (hlast : last.index ≤ bound) (hsteps : last.index < c.maxIterations)
    (hremaining : last.index ≤ remaining)
    (hspared : ∀ n ∈ current.nodes, s.Spared (fun _ => True) last.index n) :
    (coherence (fun _ => True) (last.index + 1)).Ensures c s
      (earlier.force origin remaining last current) (OnResult fun out t => t.Finished out) := by
  -- Every turn is at a node before the last one, so nodes run out before turns do.
  induction remaining using Nat.strongRecOn generalizing last current s with
  | ind remaining ih =>
  cases current with
  | value v =>
    rw [force_value]
    exact .pure fun _ => by simp [Finished]
  | list items =>
    rw [force_list]
    exact completeList_finishes hfinish hlast hsteps hspared
  | node next =>
    have hnext := hspared next List.mem_cons_self
    rw [force_node]
    refine .stays ?_
    split
    · rename_i hstop
      exact .pure fun _ => by simpa [Finished] using stays_of_spared hnext hstop
    · rename_i hgoes
      have hlt := lt_of_spared hnext (by simpa using (not_or.mp hgoes).2)
      cases remaining with
      | zero => omega
      | succ remaining =>
        refine (coherence_mono (runNode_ensures hsound (by omega)) (by omega)).bindResult ?_
        intro out t _ _ hrests
        exact coherence_mono (ih remaining (by omega) (by omega) (by omega) (by omega)
          hrests.spared) (by omega)

theorem completeNode_finishes (hsound : earlier.Sound (fun _ => True) c bound)
    (hfinish : earlier.Finishing c bound) (hid : id.index ≤ bound)
    (hsteps : id.index < c.maxIterations) :
    (coherence (fun _ => True) (id.index + 1)).Ensures c s (earlier.completeNode id)
      (OnResult fun out t => t.Finished out) := by
  refine (runNode_ensures hsound hid).bindResult fun first t _ _ hfirst => ?_
  exact .settings (force_finishes hsound hfinish hid hsteps (by omega) hfirst.spared)

theorem below_finishing (c : Settings) (bound : Nat) : (below bound).Finishing c bound :=
  below_satisfies (fun bound h _ _ hid =>
    ⟨trivial, completeNode_finishes (below_sound _ c bound) h hid⟩) bound

end Earlier

theorem Eval.complete_finishes {c : Settings} {s : State} {id : NodeId}
    (hsteps : id.index < c.maxIterations) :
    (coherence (fun _ => True) (id.index + 1)).Ensures c s (Eval.complete id)
      (OnResult fun out t => t.Finished out) :=
  (Earlier.below_finishing c (id.index + 1)).complete id s (Nat.lt_succ_self _) hsteps

/-! ## Finished evaluations -/

namespace State

/-- However an evaluator was used before: with as many steps as there are nodes in the end, a
complete evaluation leaves only copies and retained nodes in its result, and completing that result
once more gives the same and changes nothing at all. -/
theorem completeOutput_of_complete {g : Graph} (hg : g.WellFormed) (first : Context)
    (config : Config) (spare : UInt64) {c : Settings} (session : Session) (context : Context)
    {id : NodeId} {out : Output} {t : State}
    (hid : id.index < ((start lib g first config spare).after c session).graph.size)
    (hrun : Eval.complete id c { (start lib g first config spare).after c session with context } =
      (.ok out, t)) (hsteps : t.graph.size ≤ c.maxIterations) :
    (∀ n ∈ out.nodes, t.isSymbolic n = true ∨ context.isRetained n = true) ∧
      Eval.completeOutput out c t = (.ok out, t) := by
  obtain ⟨hs, -⟩ := after_growth (c := c) session (coherent_start lib hg first config spare)
  have hs := hs.with_context context
  obtain ⟨-, hstep, -⟩ := Eval.complete_ensures (c := c) id hs
  simp only [hrun] at hstep
  have hlt : id.index < c.maxIterations :=
    Nat.lt_of_lt_of_le hid (Nat.le_trans hstep.graph.size_le hsteps)
  obtain ⟨-, -, hfinished⟩ := Eval.complete_finishes hlt hs
  simp only [hrun, onResult_ok] at hfinished
  refine ⟨fun n hn => ?_, Output.completeWith_of_finished out hfinished⟩
  refine (stays_iff.mp (hfinished n hn)).imp (fun hsymbolic => ?_) (hstep.isRetained n ▸ ·)
  simpa [isSymbolic] using hsymbolic

/-- A group that was evaluated while both of its members were retained, and is completed when only
the second one still is. -/
theorem completeOutput_of_complete_group :
    let g := Graph.ofSteps [.placeholder "x" .int32 none, .placeholder "y" .int32 none,
      .operation "both" ⟨.control .flowGroup, [], ⟨[("values", .nodes [⟨0⟩, ⟨1⟩])]⟩⟩]
    let context := (Context.empty.bind "x" (.scalar (.int 3))).retain ⟨1⟩
    let s := (State.start .standard g .empty .standard 0).after ⟨32, .cpu⟩
      [(context.retain ⟨0⟩, .complete ⟨2⟩)]
    let out := Output.list [.value (.scalar (.int 3)), .node ⟨1⟩]
    let t := (Eval.complete ⟨2⟩ ⟨32, .cpu⟩ { s with context }).2
    s.memo = [(⟨2⟩, .list [.node ⟨0⟩, .node ⟨1⟩])] ∧
      (∀ n ∈ out.nodes, t.isSymbolic n = true ∨ context.isRetained n = true) ∧
      Eval.completeOutput out ⟨32, .cpu⟩ t = (.ok out, t) := by
  intro g context s out t
  have hrun : Eval.complete ⟨2⟩ ⟨32, .cpu⟩ { s with context } = (.ok out, t) := rfl
  exact ⟨rfl, completeOutput_of_complete .standard (Graph.built_ofSteps _).wellFormed .empty
    .standard 0 [(context.retain ⟨0⟩, .complete ⟨2⟩)] context (by decide) hrun (by decide)⟩

end State

end Dataflow
