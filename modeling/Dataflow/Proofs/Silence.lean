import Dataflow.Proofs.Preservation

/-!
# The log is not read

Evaluations write reports and observations to the log and never look at it. Whatever was logged
before, an evaluation comes to the same outcome, and to the same state up to the log.
-/

namespace Dataflow

/-- Whatever was logged before, the computation does the same and goes on logging. -/
structure Eval.IgnoresLog {α : Type} (x : Eval α) : Prop where
  exists_events : ∀ c s events, ∃ events',
    x c { s with events } = ((x c s).1, { (x c s).2 with events := events' })

namespace Eval.IgnoresLog

variable {α β : Type} {x : Eval α}

theorem pure (a : α) : (pure a : Eval α).IgnoresLog := ⟨fun _ _ events => ⟨events, rfl⟩⟩

theorem fail (e : Failure) : (fail e : Eval α).IgnoresLog := ⟨fun _ _ events => ⟨events, rfl⟩⟩

theorem ofExcept (r : Except Failure α) : (ofExcept r).IgnoresLog := by
  cases r with
  | ok a => exact pure a
  | error e => exact fail e

theorem bind {f : α → Eval β} (hx : x.IgnoresLog) (hf : ∀ a, (f a).IgnoresLog) :
    (x >>= f).IgnoresLog where
  exists_events c s events := by
    obtain ⟨events', hx⟩ := hx.exists_events c s events
    cases hrun : x c s with
    | mk r t =>
      rw [hrun] at hx
      cases r with
      | ok a =>
        rw [bind_run_ok hx, bind_run_ok hrun]
        exact (hf a).exists_events c t events'
      | error e =>
        rw [bind_run_error hx, bind_run_error hrun]
        exact ⟨events', rfl⟩

theorem attempt (hx : x.IgnoresLog) : x.attempt.IgnoresLog where
  exists_events c s events := by
    obtain ⟨events', hx⟩ := hx.exists_events c s events
    exact ⟨events', by rw [attempt_run, attempt_run, hx]⟩

theorem settings : settings.IgnoresLog := ⟨fun _ _ events => ⟨events, rfl⟩⟩

/-- The state may be looked at, but not the log in it. -/
theorem state {f : State → Eval α} (hlog : ∀ s events, f { s with events } = f s)
    (hf : ∀ s, (f s).IgnoresLog) : (state >>= f).IgnoresLog where
  exists_events c s events := by
    rw [state_bind_run, state_bind_run, hlog]
    exact (hf s).exists_events c s events

theorem modify {f : State → State}
    (h : ∀ s events, ∃ events', f { s with events } = { f s with events := events' }) :
    (modify f).IgnoresLog where
  exists_events _ s events := by
    obtain ⟨events', h⟩ := h s events
    exact ⟨events', Prod.ext rfl h⟩

theorem emit (e : Event) : (emit e).IgnoresLog := modify fun _ events => ⟨events.push e, rfl⟩

theorem report (r : Report) : (report r).IgnoresLog := emit _

theorem node (id : NodeId) : (node id).IgnoresLog := state (fun _ _ => rfl) fun _ => ofExcept _

theorem stays (id : NodeId) : (stays id).IgnoresLog := state (fun _ _ => rfl) fun _ => pure _

theorem onGraph (x : Building α) : (onGraph x).IgnoresLog := ⟨fun _ _ events => ⟨events, rfl⟩⟩

theorem recordRead (id : NodeId) : (recordRead id).IgnoresLog :=
  modify fun _ events => ⟨events, rfl⟩

theorem notePerformed (id : NodeId) (result : Output) : (notePerformed id result).IgnoresLog :=
  modify fun _ events => ⟨events, rfl⟩

theorem remember (id : NodeId) (result : Output) : (remember id result).IgnoresLog :=
  modify fun _ events => ⟨events, rfl⟩

theorem inContext (id : NodeId) (e : Failure) : (inContext id e).IgnoresLog := by
  unfold Eval.inContext
  split
  · exact pure e
  · refine state (fun _ _ => rfl) fun s => ?_
    dsimp only
    split
    · exact pure _
    · exact pure _

theorem defer (id : NodeId) (o : Operation) : (defer id o).IgnoresLog := by
  refine state (fun _ _ => rfl) fun s => ?_
  split
  · exact pure _
  · refine (onGraph _).bind fun copy => ?_
    refine (modify fun _ events => ⟨events, rfl⟩).bind fun _ => ?_
    exact (node id).bind fun n => (node copy).bind fun n' => (report _).bind fun _ => pure _

theorem write (update : Update) (target : NodeId) (v : Value) :
    (write update target v).IgnoresLog :=
  (onGraph _).bind fun _ => (node target).bind fun _ => (report _).bind fun _ => pure _

theorem compute (args : Arguments) : (compute args).IgnoresLog := by
  refine settings.bind fun c => state (fun _ _ => rfl) fun s => ?_
  refine (modify fun _ events => ⟨_, rfl⟩).bind fun _ => ?_
  exact (ofExcept _).bind fun _ => pure _

theorem each {f : α → Eval β} (hf : ∀ a, (f a).IgnoresLog) (xs : List α) :
    (each f xs).IgnoresLog := by
  induction xs with
  | nil => exact pure []
  | cons x xs ih => exact (hf x).bind fun _ => ih.bind fun _ => pure _

end Eval.IgnoresLog

/-! ## Completing an output -/

namespace Output

variable {complete : NodeId → Eval Output}

mutual

theorem completeWith_ignoresLog (h : ∀ id, (complete id).IgnoresLog) :
    ∀ o : Output, (o.completeWith complete).IgnoresLog
  | .value v => .pure _
  | .node id => by
    refine (Eval.IgnoresLog.stays id).bind fun b => ?_
    split
    · exact .pure _
    · exact h id
  | .list items => (completeItemsWith_ignoresLog h items).bind fun _ => .pure _

theorem completeItemsWith_ignoresLog (h : ∀ id, (complete id).IgnoresLog) :
    ∀ os : List Output, (completeItemsWith complete os).IgnoresLog
  | [] => .pure _
  | o :: os => (completeWith_ignoresLog h o).bind fun _ =>
      (completeItemsWith_ignoresLog h os).bind fun _ => .pure _

end

end Output

namespace Earlier

/-- Nodes are evaluated without a look at the log. -/
structure IgnoresLog (earlier : Earlier) : Prop where
  run : ∀ id, (earlier.run id).IgnoresLog
  complete : ∀ id, (earlier.complete id).IgnoresLog

namespace IgnoresLog

variable {earlier : Earlier} (h : earlier.IgnoresLog)

include h

/-! ## Operands -/

theorem resolve (id : NodeId) : (earlier.resolve id).IgnoresLog :=
  (h.complete id).bind fun _ => .pure _

theorem resolveAll (ids : List NodeId) : (earlier.resolveAll ids).IgnoresLog := by
  induction ids with
  | nil => exact .pure _
  | cons id ids ih =>
    refine (h.resolve id).bind fun v => ?_
    cases v with
    | none => exact .pure _
    | some v =>
      refine ih.bind fun vs => ?_
      cases vs <;> exact .pure _

theorem resolveOption (option : OptionValue) : (earlier.resolveOption option).IgnoresLog := by
  cases option with
  | value v => exact .pure _
  | dtype t => exact .pure _
  | node id => exact (h.resolve id).bind fun _ => .pure _
  | nodes ids => exact (h.resolveAll ids).bind fun _ => .pure _

theorem resolveOptions (entries : List (String × OptionValue)) :
    (earlier.resolveOptions entries).IgnoresLog := by
  induction entries with
  | nil => exact .pure _
  | cons entry entries ih =>
    obtain ⟨key, option⟩ := entry
    refine (h.resolveOption option).bind fun r => ?_
    cases r with
    | none => exact .pure _
    | some r =>
      refine ih.bind fun rs => ?_
      cases rs <;> exact .pure _

theorem gather (id : NodeId) (kernel : Kernel) (o : Operation) :
    (earlier.gather id kernel o).IgnoresLog := by
  refine (h.resolveAll _).bind fun operands => ?_
  cases operands with
  | none => exact .pure _
  | some operands =>
    refine (h.resolveOptions _).bind fun options => ?_
    cases options with
    | none => exact .pure _
    | some options => exact (Eval.IgnoresLog.node id).bind fun _ => .pure _

omit h in
theorem operand (o : Operation) (i : Nat) : (Earlier.operand o i).IgnoresLog := by
  unfold Earlier.operand
  split
  · exact .pure _
  · exact .fail _

/-! ## Operations -/

theorem assign (id : NodeId) (o : Operation) (update : Update) :
    (earlier.assign id o update).IgnoresLog := by
  refine (operand o 0).bind fun target => (operand o 1).bind fun source => ?_
  refine (h.resolve source).bind fun v => ?_
  cases v with
  | none => exact .defer id o
  | some v =>
    dsimp only
    split
    · exact .write update target v
    · refine (h.resolve target).bind fun old => ?_
      cases old with
      | none => exact .defer id o
      | some old =>
        dsimp only
        split
        · exact .write update target _
        · exact .fail _

theorem flowGroup (o : Operation) : (earlier.flowGroup o).IgnoresLog :=
  (Eval.IgnoresLog.each h.complete _).bind fun _ => .pure _

theorem print (o : Operation) : (earlier.print o).IgnoresLog :=
  (operand o 0).bind fun input => (h.complete input).bind fun _ =>
    (Eval.IgnoresLog.report _).bind fun _ => .pure _

theorem cond (id : NodeId) (o : Operation) : (earlier.cond id o).IgnoresLog := by
  have hbranch (pred : Value) :
      (Earlier.operand o (if pred.allTruthy then 0 else 1) >>= earlier.complete).IgnoresLog :=
    (operand o _).bind h.complete
  unfold Earlier.cond
  dsimp only
  split
  · refine (h.resolve _).bind fun v => ?_
    cases v with
    | none => exact .defer id o
    | some v => exact hbranch v
  · exact hbranch _
  · exact .fail _

theorem perform (id : NodeId) (o : Operation) : (earlier.perform id o).IgnoresLog := by
  unfold Earlier.perform
  split
  · exact h.assign id o _
  · exact h.flowGroup o
  · exact (operand o 0).bind h.complete
  · exact (operand o 0).bind h.complete
  · exact h.print o
  · exact h.cond id o
  · exact .fail _
  · refine (h.gather id _ o).bind fun args => ?_
    cases args with
    | none => exact .defer id o
    | some args => exact .compute args

theorem execute (id : NodeId) (o : Operation) : (earlier.execute id o).IgnoresLog :=
  (h.perform id o).bind fun result => (Eval.IgnoresLog.notePerformed id result).bind fun _ =>
    .pure _

theorem observe (o : Operation) (i : Nat) : (earlier.observe o i).IgnoresLog := by
  unfold Earlier.observe
  split
  · exact .pure _
  · split
    · refine .state (fun _ _ => rfl) fun s => ?_
      split <;> exact .pure _
    · refine (h.complete _).attempt.bind fun r => ?_
      split <;> exact .pure _

theorem fire (id : NodeId) (o : Operation) (result : Output) :
    (earlier.fire id o result).IgnoresLog := by
  refine .state (fun _ _ => rfl) fun s => ?_
  split
  · exact .pure _
  · split
    · refine (h.observe o 0).bind fun a => (h.observe o 1).bind fun b => ?_
      exact (Output.completeWith_ignoresLog h.complete result).attempt.bind fun _ => .emit _
    · exact .pure _

theorem runOperation (id : NodeId) (name : String) (kind : NodeKind) :
    (earlier.runOperation id name kind).IgnoresLog := by
  refine .state (fun _ _ => rfl) fun s => ?_
  split
  · exact (Eval.IgnoresLog.report _).bind fun _ => .pure _
  · split
    · refine (h.execute id _).attempt.bind fun r => ?_
      cases r with
      | error e => exact (Eval.IgnoresLog.inContext id e).bind fun _ => .fail _
      | ok result =>
        exact (Eval.IgnoresLog.remember id result).bind fun _ =>
          (h.fire id _ result).bind fun _ => .pure _
    · exact .fail _

/-! ## Nodes -/

theorem runNode (id : NodeId) : (earlier.runNode id).IgnoresLog := by
  refine .state (fun _ _ => rfl) fun s => ?_
  split
  · exact .pure _
  · refine (Eval.IgnoresLog.node id).bind fun node => (Eval.IgnoresLog.report _).bind fun _ => ?_
    split
    · exact .pure _
    · exact h.run _
    · exact .fail _
    · exact (Eval.IgnoresLog.recordRead id).bind fun _ => .pure _
    · refine .state (fun _ _ => rfl) fun s => ?_
      split
      · exact .pure _
      · exact .fail _
    · exact h.runOperation id _ _

theorem force (origin : NodeId) : ∀ (remaining : Nat) (last : NodeId) (current : Output),
    (earlier.force origin remaining last current).IgnoresLog
  | remaining, last, .value v => by
    rw [force_value]
    exact .pure _
  | remaining, last, .list items => by
    rw [force_list]
    exact Output.completeWith_ignoresLog h.complete _
  | remaining, last, .node next => by
    rw [force_node]
    refine (Eval.IgnoresLog.stays next).bind fun b => ?_
    split
    · exact .pure _
    · cases remaining with
      | zero =>
        exact Eval.IgnoresLog.settings.bind fun _ => (Eval.IgnoresLog.node origin).bind fun _ =>
          (Eval.IgnoresLog.report _).bind fun _ => .pure _
      | succ remaining =>
        exact (h.runNode next).bind fun current => force origin remaining next current

theorem completeNode (id : NodeId) : (earlier.completeNode id).IgnoresLog :=
  (h.runNode id).bind fun first => Eval.IgnoresLog.settings.bind fun _ => h.force id _ id first

end IgnoresLog

theorem below_ignoresLog (n : Nat) : (below n).IgnoresLog := by
  -- Evaluations of later nodes are made of those of earlier nodes.
  induction n with
  | zero => exact ⟨fun _ => .fail _, fun _ => .fail _⟩
  | succ n ih => exact ⟨ih.runNode, ih.completeNode⟩

end Earlier

namespace Eval

theorem run_ignoresLog (id : NodeId) : (run id).IgnoresLog :=
  (Earlier.below_ignoresLog (id.index + 1)).run id

/-- Whatever was logged before, a complete evaluation does the same. -/
theorem complete_ignoresLog (id : NodeId) : (complete id).IgnoresLog :=
  (Earlier.below_ignoresLog (id.index + 1)).complete id

end Eval

end Dataflow
