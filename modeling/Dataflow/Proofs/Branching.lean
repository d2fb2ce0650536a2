import Dataflow.Proofs.Assignment
import Dataflow.Proofs.FixedPoint
import Dataflow.Proofs.Silence

/-!
# Branches

A conditional evaluates its condition, and after that one of its two operands. Running it is no more
than that: neither its breakpoint nor the operand that was not chosen evaluates anything.
-/

namespace Dataflow

variable (lib : Library Rng)

open State

namespace Earlier

variable (earlier : Earlier)

/-! ## Choosing a branch -/

/-- The value of the condition, unless it stays unevaluated. -/
def condition (o : Operation) : Eval (Option Value) :=
  match o.options.get? "pred" with
  | some (.node pred) => earlier.resolve pred
  | some (.value v) => pure (some v)
  | _ => .fail (.invalidOption o.op "pred" .missing)

/-- What is left to do of a conditional that has looked at its condition. -/
def proceed (id : NodeId) (o : Operation) : Option Value → Eval Output
  | none => .defer id o
  | some v => do earlier.complete (← operand o (if v.allTruthy then 0 else 1))

variable {earlier} {id : NodeId} {o : Operation}

theorem cond_eq : earlier.cond id o = earlier.condition o >>= earlier.proceed id o := by
  unfold cond condition
  cases o.options.get? "pred" with
  | none => rfl
  | some option =>
    cases option with
    | node pred =>
      refine bind_congr fun v => ?_
      cases v <;> rfl
    | _ => rfl

theorem IgnoresLog.condition (h : earlier.IgnoresLog) (o : Operation) :
    (earlier.condition o).IgnoresLog := by
  unfold Earlier.condition
  split
  · exact h.resolve _
  · exact .pure _
  · exact .fail _

theorem whole_ignoresLog : whole.IgnoresLog := ⟨Eval.run_ignoresLog, Eval.complete_ignoresLog⟩

end Earlier

namespace State

variable {c : Settings} {s : State} {id yes no : NodeId} {node : Node} {o : Operation}

theorem condition_advances :
    advancing.Ensures c s (Earlier.whole.condition o) fun _ _ => True := by
  unfold Earlier.condition
  split
  · exact resolve_advances _
  · exact .pure fun _ => trivial
  · exact .fail fun _ => trivial

/-- A conditional that has no result yet and is not retained. -/
structure Choice (s : State) (id : NodeId) (node : Node) (o : Operation) (yes no : NodeId) :
    Prop where
  found : s.graph.node? id = some node
  kind : node.kind = .operation o
  op : o.op = .control .cond
  yes : o.operands[0]? = some yes
  no : o.operands[1]? = some no
  fresh : s.memo.lookup id = none
  active : s.context.isRetained id = false

/-- The operand that a condition calls for. -/
def branch (v : Value) (yes no : NodeId) : NodeId := if v.allTruthy then yes else no

theorem Choice.operand (h : s.Choice id node o yes no) (v : Value) :
    o.operands[if v.allTruthy then 0 else 1]? = some (branch v yes no) := by
  unfold branch
  split
  · exact h.yes
  · exact h.no

theorem Choice.proceed_eq {earlier : Earlier} (h : s.Choice id node o yes no) (v : Value) :
    earlier.proceed id o (some v) = earlier.complete (branch v yes no) := by
  rw [Earlier.proceed, Earlier.operand, h.operand, pure_bind]

/-- Running an operation that has to be performed. -/
theorem run_operation (hs : Coherent (fun _ => True) s) (hfound : s.graph.node? id = some node)
    (hkind : node.kind = .operation o) (hactive : s.context.isRetained id = false) :
    Eval.run id c s = Earlier.whole.runOperation id node.name (.operation o) c (s.entered node) :=
  (Earlier.eq_of_consults (Earlier.runNode_consults hs)).trans
    (Earlier.runNode_operation hactive hfound hkind)

/-- With enough steps for all nodes, nothing is left in the result of the branch that could be run
any more. -/
theorem Choice.finishes (hs : Coherent (fun _ => True) s) (h : s.Choice id node o yes no)
    (hsteps : (Eval.run id c s).2.graph.size ≤ c.maxIterations) {v : Value} {t : State}
    (ht : Coherent (fun _ => True) t) {out : Output} {u : State}
    (hrun : Eval.complete (branch v yes no) c t = (.ok out, u)) : u.Finished out := by
  have hlt : (branch v yes no).index < id.index :=
    hs.graph.lt_of_operation h.found h.kind _ (Operation.mem_references_of_operand (h.operand v))
  have hid : id.index < s.graph.size := Graph.lt_size_of_node? h.found
  obtain ⟨-, hstep, -⟩ := Eval.run_ensures (c := c) id hs
  have hsize := hstep.graph.size_le
  have hbelow : (branch v yes no).index < c.maxIterations := by omega
  obtain ⟨-, -, hfinished⟩ := Eval.complete_finishes hbelow ht
  rwa [hrun, onResult_ok] at hfinished

/-- Performing a conditional is evaluating its condition, and then the operand that it calls for,
whatever is reported before. -/
theorem Choice.perform (h : s.Choice id node o yes no) {v : Value} {t : State}
    (hcondition : Earlier.whole.condition o c s = (.ok (some v), t)) (events : Array Event) :
    let r := Eval.complete (branch v yes no) c t
    ∃ events', Earlier.whole.perform id o c { s with events } =
      (r.1, { r.2 with events := events' }) := by
  have hperform : Earlier.whole.perform id o =
      Earlier.whole.condition o >>= Earlier.whole.proceed id o := by
    rw [← Earlier.cond_eq, Earlier.perform, h.op]
  obtain ⟨events₁, hcondition'⟩ :=
    (Earlier.whole_ignoresLog.condition o).exists_events c s events
  rw [hcondition] at hcondition'
  obtain ⟨events₂, hbranch⟩ :=
    (Eval.complete_ignoresLog (branch v yes no)).exists_events c t events₁
  refine ⟨events₂, ?_⟩
  rw [hperform, Eval.bind_run_ok hcondition', h.proceed_eq]
  exact hbranch

/-- However an evaluator was used, running a conditional without a result that is not retained is
evaluating the operand that its condition calls for, once the condition has a value and if there are
enough steps for all nodes. It comes to the same, or fails with the same error in the context of the
conditional, and the state is the same but for the log and for the result of the conditional, which
is remembered. -/
theorem branches_once {g : Graph} (hg : g.Reached) (context : Context) (config : Config)
    (spare : UInt64) (c : Settings) (session : Session) (context' : Context) {id yes no : NodeId}
    {node : Node} {o : Operation}
    (h : Choice { (State.start lib g context config spare).after c session with
      context := context' } id node o yes no) {v : Value} {t : State} :
    let s := { (State.start lib g context config spare).after c session with context := context' }
    let r := Eval.complete (branch v yes no) c t
    Earlier.whole.condition o c s = (.ok (some v), t) →
    (Eval.run id c s).2.graph.size ≤ c.maxIterations →
    (∀ out, r.1 = .ok out → ∃ events,
      Eval.run id c s = (.ok out, { r.2.recorded id out with events })) ∧
    ∀ e, r.1 = .error e → ∃ events,
      Eval.run id c s = (.error (r.2.graph.wrap id e), { r.2 with events }) := by
  intro s r hcondition hsteps
  have hs : Coherent (fun _ => True) s :=
    coherent_after lib hg context config spare c session context'
  have ht : Coherent (fun _ => True) t := by
    have hinv := (condition_advances (c := c) (o := o) (advancing_inv.mpr hs)).1
    rw [hcondition] at hinv
    exact advancing_inv.mp hinv
  have hmiss : (s.entered node).memo.lookup id = none := h.fresh
  have hcontrol : o.op.isControl = true := by rw [h.op]; rfl
  -- The condition was looked at from `s`; the run has reported the node before, which only adds to
  -- the log.
  obtain ⟨events, hperform⟩ := h.perform hcondition (s.entered node).events
  have hperform : Earlier.whole.perform id o c (s.entered node) = (r.1, { r.2 with events }) :=
    hperform
  rw [run_operation hs h.found h.kind h.active]
  refine ⟨fun out hout => ?_, fun e he => ?_⟩
  · -- A result that leaves nothing to be run gives a breakpoint nothing to do but to observe.
    have hfinished : r.2.Finished out := h.finishes hs hsteps ht (Prod.ext hout rfl)
    rw [hout] at hperform
    obtain ⟨events', hrun⟩ := Earlier.runOperation_control hcontrol hmiss hperform hfinished
    exact ⟨events', hrun⟩
  · rw [he] at hperform
    exact ⟨events, Earlier.runOperation_error hmiss hperform⟩

/-- A branch that writes is chosen, and its conditional has a breakpoint. The other branch has no
value. -/
theorem branches_once_watched :
    let g := Graph.ofSteps [.variable "v" .int32 (some (.scalar (.int 0))),
      .constant "one" (.scalar (.int 1)), .constant "flag" (.scalar (.bool true)),
      .operation "set" ⟨.control (.assign .set), [⟨0⟩, ⟨1⟩], .empty⟩,
      .placeholder "x" .int32 none,
      .operation "choose" ⟨.control .cond, [⟨3⟩, ⟨4⟩], ⟨[("pred", .node ⟨2⟩)]⟩⟩, .watch ⟨5⟩]
    let c : Settings := ⟨32, .cpu⟩
    let s := { (State.start .standard g .empty .standard 0).after c [] with context := .empty }
    let r := Eval.run ⟨5⟩ c s
    ∃ node o t, Choice s ⟨5⟩ node o ⟨3⟩ ⟨4⟩ ∧ node.watched = true ∧
      Earlier.whole.condition o c s = (.ok (some (.scalar (.bool true))), t) ∧
      r.2.graph.size ≤ c.maxIterations ∧ r.1 = .ok (.value (.scalar (.int 1))) ∧
      r.2.graph = (Eval.complete ⟨3⟩ c t).2.graph ∧
      r.2.memo.map Prod.fst = [⟨5⟩, ⟨3⟩] := by
  intro g c s r
  have h : Choice s ⟨5⟩ _ _ ⟨3⟩ ⟨4⟩ := ⟨rfl, rfl, rfl, rfl, rfl, rfl, rfl⟩
  obtain ⟨hok, -⟩ := branches_once .standard (Graph.built_ofSteps _).reached .empty .standard 0 c []
    .empty h rfl (by decide)
  obtain ⟨events, hrun⟩ := hok (.value (.scalar (.int 1))) rfl
  have hrun : r = _ := hrun
  refine ⟨_, _, _, h, rfl, rfl, by decide, ?_, ?_, ?_⟩
  · rw [hrun]
  · rw [hrun]
    rfl
  · rw [hrun]
    rfl

end State

end Dataflow
