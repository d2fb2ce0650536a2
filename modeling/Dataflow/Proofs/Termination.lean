import Dataflow.Proofs.Consulting

/-!
# Termination

A call returns if it makes finitely many calls, each of which returns, and comes to a result.
Nothing in the recursion itself says that evaluations do: they come to an end since a node refers to
earlier nodes only, and since a node that is left in a result lies before the one that left it or
stays as it is. How many nodes one evaluation may run does not matter.
-/

namespace Dataflow

variable (lib : Library Rng)

open State

/-! ## Calls that return -/

/-- Performed from the state `s`, the call returns with the outcome and the last state `r`, by calls
that are nested `depth` deep at most. The answers to the calls that it makes are what these return
with, and it comes to the same whatever else is answered. -/
inductive Returns (c : Settings) :
    (depth : Nat) → Request → (s : State) → (r : Except Failure Output × State) → Prop
  | intro {depth : Nat} {q : Request} {s : State} {answer : Replies}
      {calls : List (Request × State)}
      (hcalls : ∀ call ∈ calls, Returns c depth call.1 call.2 (answer call.1 c call.2))
      (hrelies : ReliesOn c s calls answer q.once) : Returns c (depth + 1) q s (q.once answer c s)

/-! ## How deep calls are nested -/

namespace Request

/-- A call in a coherent state for which `depth` is deep enough. A loop goes on from a node before
the one that it was at, whichever turn it is. -/
def Within (idle : NodeId → Prop) (depth : Nat) (q : Request) (s : State) : Prop :=
  Coherent idle s ∧
    match q with
    | .run id => 3 * id.index + 1 ≤ depth
    | .complete id => 3 * id.index + 3 ≤ depth
    | .output o => 1 ≤ depth ∧ ∀ n ∈ o.nodes, 3 * n.index + 4 ≤ depth
    | .force origin _ last current => 3 * last.index + 2 ≤ depth ∧ last.index ≤ origin.index ∧
        ∀ n ∈ current.nodes, s.Spared idle last.index n

variable {idle : NodeId → Prop} {c : Settings} {bound depth : Nat} {s : State} {q : Request}

theorem Before.within (h : q.Before idle bound s) (hle : 3 * bound ≤ depth) :
    q.Within idle depth s := by
  obtain ⟨hs, hq⟩ := h
  refine ⟨hs, ?_⟩
  cases q with
  | run id | complete id => dsimp only at hq ⊢; omega
  | output o | force origin remaining last current => exact hq.elim

/-- One turn of the loop runs one node at most, and leaves the rest to the next turn. -/
theorem force_consults {origin last : NodeId} {remaining : Nat} {current : Output}
    (h : (force origin remaining last current).Within idle (depth + 1) s) :
    Consults c (Within idle depth) s fun answer =>
      (force origin remaining last current).once answer := by
  obtain ⟨hs, hdepth, hle, hspared⟩ := h
  cases current with
  | value v => exact .const
  | list items =>
    have hitems : Consults c (Before idle last.index) s fun answer =>
        (Output.list items).completeWith (Earlier.asking answer).complete :=
      Earlier.completeWith_consults _ hs fun n hn => (hspared n hn).descends
    exact hitems.mono fun _ _ h => h.within (by omega)
  | node next =>
    refine .stays ?_
    split
    · exact .const
    · rename_i hgoes
      simp only [not_or, Bool.not_eq_true] at hgoes
      have hlt := Earlier.lt_of_spared (hspared next List.mem_cons_self) hgoes.2
      cases remaining with
      | zero => exact .const
      | succ remaining =>
        have hrun : (run next).Within idle depth s := ⟨hs, by dsimp only; omega⟩
        refine .bindEnsures hs (.ask hrun) (Eval.run_ensures next) fun out t ht _ hout => ?_
        exact .ask ⟨ht, by omega, by omega, hout.spared⟩

/-- A call makes calls only for which a depth less by one is enough. -/
theorem once_consults (h : q.Within idle (depth + 1) s) :
    Consults c (Within idle depth) s fun answer => q.once answer := by
  cases q with
  | run id =>
    obtain ⟨hs, hdepth⟩ := h
    exact (Earlier.runNode_consults hs).mono fun _ _ h => h.within (by omega)
  | complete id =>
    obtain ⟨hs, hdepth⟩ := h
    have hrun : (run id).Within idle depth s := ⟨hs, by dsimp only; omega⟩
    refine .bindEnsures hs (.ask hrun) (Eval.run_ensures id) fun first t ht _ hfirst => ?_
    exact .settings (.ask ⟨ht, by omega, Nat.le_refl _, hfirst.spared⟩)
  | output o =>
    obtain ⟨hs, -, hnodes⟩ := h
    have houtput : Consults c (Before idle (depth / 3)) s fun answer =>
        o.completeWith (Earlier.asking answer).complete :=
      Earlier.completeWith_consults o hs fun n hn => by
        have := hnodes n hn
        exact .inr (by omega)
    exact houtput.mono fun _ _ h => h.within (by omega)
  | force origin remaining last current => exact force_consults h

/-! ## Every call returns -/

theorem once_eval_force {origin last : NodeId} {remaining : Nat} {current : Output}
    (h : (force origin remaining last current).Within idle depth s) :
    (force origin remaining last current).once eval c s =
      (force origin remaining last current).eval c s := by
  obtain ⟨hs, -, hle, hspared⟩ := h
  cases current with
  | value v => cases remaining <;> rfl
  | list items =>
    have hitems : Consults c (Before idle last.index) s fun answer =>
        (Output.list items).completeWith (Earlier.asking answer).complete :=
      Earlier.completeWith_consults _ hs fun n hn => (hspared n hn).descends
    have heq := Earlier.eq_of_consults (hitems.mono fun _ _ h => h.mono hle)
    cases remaining <;> exact heq.symm
  | node next =>
    rw [eval, Earlier.force_node]
    show (if next = last ∨ s.stays next = true then _ else _ : Eval Output) c s =
      (if next = last ∨ s.stays next = true then _ else _ : Eval Output) c s
    split
    · rfl
    · rename_i hgoes
      simp only [not_or, Bool.not_eq_true] at hgoes
      have hlt := Earlier.lt_of_spared (hspared next List.mem_cons_self) hgoes.2
      cases remaining with
      | zero => rfl
      | succ remaining =>
        exact Eval.bind_run_congr _ (Earlier.runNode_below hs (by omega)).symm

/-- What the evaluator answers is what one pass through the body makes of its answers. -/
theorem once_eval (h : q.Within idle depth s) : q.once eval c s = q.eval c s := by
  cases q with
  | run id => exact (Earlier.eq_of_consults (Earlier.runNode_consults h.1)).symm
  | complete id | output o => rfl
  | force origin remaining last current => exact once_eval_force h

/-- Induction on the depth. -/
theorem returns (h : q.Within idle depth s) : Returns c depth q s (q.eval c s) := by
  induction depth generalizing q s with
  | zero =>
    obtain ⟨-, hq⟩ := h
    cases q <;> simp at hq
  | succ depth ih =>
    rw [← once_eval h]
    obtain ⟨calls, hcalls, hrelies⟩ := once_consults h
    exact .intro (fun call hcall => ih (hcalls call hcall)) hrelies

end Request

namespace State

/-- Whatever was built and evaluated before, with calls that failed, copies that were added and
results of other contexts, every node is run and evaluated completely by finitely many calls, and so
is what is left in any output. How deep the calls are nested depends on the nodes alone, however
many nodes one evaluation may run. -/
theorem evaluations_return {g : Graph} (hg : g.Reached) (context : Context) (config : Config)
    (spare : UInt64) (c : Settings) (session : Session) (context' : Context) :
    let s := { (State.start lib g context config spare).after c session with context := context' }
    (∀ id, Returns c (3 * id.index + 1) (.run id) s (Eval.run id c s)) ∧
    (∀ id, Returns c (3 * id.index + 3) (.complete id) s (Eval.complete id c s)) ∧
    ∀ o : Output, ∃ depth, Returns c depth (.output o) s (Eval.completeOutput o c s) := by
  intro s
  have hs : Coherent (fun _ => True) s :=
    ((after_growth (c := c) session
      (coherent_start lib hg.wellFormed context config spare)).1).with_context context'
  refine ⟨fun id => Request.returns ⟨hs, Nat.le_refl _⟩,
    fun id => Request.returns ⟨hs, Nat.le_refl _⟩, fun o => ?_⟩
  -- The deepest of the nodes of the output decides.
  let depths := o.nodes.map fun n => 3 * n.index + 4
  refine ⟨1 + depths.max?.getD 0, Request.returns ⟨hs, by simp, fun n hn => ?_⟩⟩
  have hmem : 3 * n.index + 4 ∈ depths := List.mem_map.mpr ⟨n, hn, rfl⟩
  exact Nat.le_add_left_of_le (List.le_max?_getD_of_mem hmem)

/-- A value that two prints hand through, where a million nodes may be run, after a call in vain. -/
theorem evaluations_return_printed :
    let g := Graph.ofSteps [.constant "x" (.scalar (.int 3)),
      .operation "show" ⟨.control .print, [⟨0⟩], .empty⟩,
      .operation "again" ⟨.control .print, [⟨1⟩], .empty⟩]
    let c : Settings := ⟨1000000, .cpu⟩
    let s := { (State.start .standard g .empty .standard 0).after c [(.empty, .run ⟨7⟩)] with
      context := .empty }
    (Eval.complete ⟨2⟩ c s).1 = .ok (.value (.scalar (.int 3))) ∧
      Returns c 7 (.run ⟨2⟩) s (Eval.run ⟨2⟩ c s) ∧
      Returns c 9 (.complete ⟨2⟩) s (Eval.complete ⟨2⟩ c s) :=
  have h := evaluations_return .standard (Graph.built_ofSteps _).reached .empty .standard 0
    ⟨1000000, .cpu⟩ [(.empty, .run ⟨7⟩)] .empty
  ⟨rfl, h.1 ⟨2⟩, h.2.1 ⟨2⟩⟩

end State

end Dataflow
