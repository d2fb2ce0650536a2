import Dataflow.Evaluation.Evaluator
import Dataflow.Proofs.Coherence

/-!
# Evaluation keeps states coherent

If the nodes before a node are evaluated coherently, then so is the node. The lemmas follow the
definition of an evaluation, from the operands of an operation to the nodes below a bound.
-/

namespace Dataflow

open State

/-! ## Steps on the state -/

/-- A computation reports only which reductions and which products it takes. -/
theorem Arguments.mem_compute_reports {γ : Type} {args : Arguments} {backend : Backend}
    {rng : Source γ} {r : Report} (hr : r ∈ (args.compute backend rng).reports) :
    (∃ axis how, r = .reducing axis how) ∨ ∃ a b name, r = .multiplying a b name := by
  unfold compute at hr
  cases hkernel : args.kernel <;> simp [hkernel] at hr
  case reduce how =>
    unfold reduce at hr
    split at hr <;> simp at hr
    obtain ⟨axis, -, rfl⟩ := hr
    exact .inl ⟨_, _, rfl⟩
  case matmul =>
    unfold matmul at hr
    dsimp only at hr
    split at hr <;> simp at hr
    exact .inr ⟨_, _, _, hr⟩

theorem Arguments.compute_reports {γ : Type} (args : Arguments) (backend : Backend)
    (rng : Source γ) :
    ∀ r ∈ (args.compute backend rng).reports, (Event.report r).write? = none := by
  intro r hr
  obtain ⟨axis, how, rfl⟩ | ⟨a, b, name, rfl⟩ := mem_compute_reports hr <;> rfl

namespace Eval

variable {idle : NodeId → Prop} {c : Settings} {s : State} {bound : Nat}
variable {id : NodeId} {node : Node} {o : Operation} {g : Graph}

theorem defer_run_symbolic (h : s.isSymbolic id = true) :
    defer id o c s = (.ok (.node id), s) := by
  simp [defer, h]

theorem onGraph_run_ok {α : Type} {x : Building α} {a : α} (h : s.graph.outcome x = .ok (g, a)) :
    onGraph x c s = (.ok a, { s with graph := g }) := by
  simp only [onGraph, Graph.outcome_eq_ok.mp h]

theorem node?_of_addDeferred {copy : NodeId} (hadd : s.graph.addDeferred id o = .ok (g, copy)) :
    (∃ node, g.node? id = some node) ∧ ∃ node, g.node? copy = some node := by
  obtain ⟨node, hnode, -⟩ := Graph.addDeferred_eq_ok.mp hadd
  obtain ⟨hextends, -, -, added, hadded, -⟩ := Graph.addDeferred_copy hadd
  exact ⟨⟨node, hextends.node? hnode⟩, added, hadded⟩

theorem defer_run_of_nodes {copy : NodeId} {origin added : Node}
    (hsymbolic : s.isSymbolic id = false) (hadd : s.graph.addDeferred id o = .ok (g, copy))
    (horigin : g.node? id = some origin)
    (hadded : g.node? copy = some added) :
    defer id o c s = (.ok (.node copy), { s.withCopy g copy with
      events := s.events.push (.report (.deferred origin.name added.name)) }) := by
  unfold defer
  rw [state_bind_run, hsymbolic, if_neg Bool.false_ne_true]
  apply (bind_run_ok (onGraph_run_ok hadd)).trans
  apply (bind_run_ok (modify_run _)).trans
  apply (bind_run_ok (node_run_some horigin)).trans
  exact bind_run_ok (node_run_some hadded)

theorem defer_run {copy : NodeId} (hsymbolic : s.isSymbolic id = false)
    (hadd : s.graph.addDeferred id o = .ok (g, copy)) :
    ∃ r, (Event.report r).write? = none ∧ defer id o c s = (.ok (.node copy),
      { s.withCopy g copy with events := s.events.push (.report r) }) := by
  obtain ⟨⟨origin, horigin⟩, added, hadded⟩ := node?_of_addDeferred hadd
  exact ⟨_, rfl, defer_run_of_nodes hsymbolic hadd horigin hadded⟩

/-- An operation that is there can be left for later. -/
theorem defer_run_ok (c : Settings) (hnode : s.graph.node? id = some node) (o : Operation) :
    ∃ n t, defer id o c s = (.ok (.node n), t) ∧ n ∈ t.symbolic := by
  cases hsymbolic : s.isSymbolic id with
  | true => exact ⟨id, s, defer_run_symbolic hsymbolic, by simpa [isSymbolic] using hsymbolic⟩
  | false =>
    obtain ⟨g, copy, hadd⟩ := Graph.exists_addDeferred hnode o
    obtain ⟨r, -, hrun⟩ := defer_run (c := c) hsymbolic hadd
    exact ⟨copy, _, hrun, List.mem_cons_self⟩

theorem write_run_error {update : Update} {v : Value} {e : Failure}
    (hstore : s.graph.store id v = .error e) : write update id v c s = (.error e, s) := by
  have hrun : onGraph (.store id v) c s = (.error e, s) := by
    simp only [onGraph, Graph.on_store_of_error hstore]
  exact bind_run_error hrun

theorem write_run (update : Update) {v w : Value} (hs : s.graph.WellFormed)
    (hstore : s.graph.store id v = .ok (g, w)) (hnode : s.graph.node? id = some node) :
    write update id v c s = (.ok (.value w), s.wrote (some (update, node.name, w))) := by
  obtain ⟨node', hnode', hg⟩ := hs.store_eq hstore update
  cases hnode.symm.trans hnode'
  -- The name in the report is looked up after the write, which does not change names.
  obtain ⟨m, hm, hbare⟩ := (Graph.Evolves.replay s.graph [(update, node.name, w)]).node? hnode
  have hname : m.name = node.name := Node.name_eq_of_bare hbare
  unfold write
  apply (bind_run_ok (onGraph_run_ok hstore)).trans
  apply (bind_run_ok (node_run_some (hg ▸ hm))).trans
  rw [hname]
  dsimp only at hg
  rw [hg]
  rfl

theorem defer_context (hnode : s.graph.node? id = some node) :
    (defer id o c s).2.context = s.context := by
  cases hsymbolic : s.isSymbolic id with
  | true => rw [defer_run_symbolic hsymbolic]
  | false =>
    obtain ⟨g, copy, hadd⟩ := Graph.exists_addDeferred hnode o
    obtain ⟨r, -, hrun⟩ := defer_run (c := c) hsymbolic hadd
    rw [hrun]
    rfl

/-- A write ends as storing the value does. -/
theorem write_outcome (hs : s.graph.WellFormed) (update : Update) (v : Value) :
    (write update id v c s).1 = (fun r => .value r.2) <$> s.graph.store id v := by
  cases hstore : s.graph.store id v with
  | error e => rw [write_run_error hstore, Except.map_error]
  | ok r =>
    obtain ⟨node, hnode, -⟩ := hs.store_eq hstore update
    rw [write_run update hs hstore hnode, Except.map_ok]

theorem write_context (hs : s.graph.WellFormed) {update : Update} {v : Value} :
    (write update id v c s).2.context = s.context := by
  cases hstore : s.graph.store id v with
  | error e => rw [write_run_error hstore]
  | ok r =>
    obtain ⟨node, hnode, -⟩ := hs.store_eq hstore update
    rw [write_run update hs hstore hnode, wrote_context]

theorem compute_run (args : Arguments) : compute args c s =
    (Output.value <$> (args.compute c.backend s.rng).outcome,
      { s with
        rng := (args.compute c.backend s.rng).rng
        events := s.events ++
          ((args.compute c.backend s.rng).reports.map Event.report).toArray }) := by
  refine (settings_bind_run _).trans ((state_bind_run _).trans ?_)
  apply (bind_run_ok (modify_run _)).trans
  cases (args.compute c.backend s.rng).outcome <;> rfl

theorem inContext_run (id : NodeId) (e : Failure) :
    inContext id e c s = (.ok (s.graph.wrap id e), s) := by
  unfold inContext Graph.wrap
  split
  · rfl
  · rw [state_bind_run]
    cases s.graph.node? id <;> rfl

theorem report_ensures {r : Report} (h : (Event.report r).write? = none) :
    (coherence idle bound).Ensures c s (report r) (OnResult fun _ _ => True) := by
  intro hs
  have hquiet := Quiet.report s h
  exact ⟨hquiet.coherent hs, hquiet.step, trivial⟩

theorem recordRead_ensures :
    (coherence idle bound).Ensures c s (recordRead id) (OnResult fun _ _ => True) := by
  intro hs
  have hquiet := Quiet.recordRead s id
  exact ⟨hquiet.coherent hs, hquiet.step, trivial⟩

theorem node_ensures {R : Regime} : R.Ensures c s (Eval.node id)
    (OnResult fun node t => t = s ∧ s.graph.node? id = some node) := by
  cases hnode : s.graph.node? id with
  | none => exact .of_eq (y := .fail _) (node_run_none hnode) (.fail fun _ => trivial)
  | some node => exact .of_eq (y := pure node) (node_run_some hnode) (.pure fun _ => ⟨rfl, rfl⟩)

theorem compute_ensures {args : Arguments} : (coherence idle bound).Ensures c s (compute args)
    (OnResult fun out _ => ∃ v, out = .value v) := by
  have hquiet := Quiet.reports s (args.compute c.backend s.rng).rng _
    (args.compute_reports c.backend s.rng)
  intro hs
  rw [compute_run]
  refine ⟨hquiet.coherent hs, hquiet.step, ?_⟩
  cases (args.compute c.backend s.rng).outcome with
  | ok v => exact ⟨v, rfl⟩
  | error e => trivial

/-- Deferring an operation adds a copy of it, unless the operation is a copy itself. -/
theorem defer_ensures (hnode : s.graph.node? id = some node) (hkind : node.kind = .operation o) :
    (coherence idle bound).Ensures c s (defer id o)
      (OnResult fun out t => ∃ copy ∈ t.symbolic, out = .node copy) := by
  intro hs
  cases hsymbolic : s.isSymbolic id with
  | true =>
    rw [defer_run_symbolic hsymbolic]
    exact ⟨hs, Step.refl bound s, id, by simpa [isSymbolic] using hsymbolic, rfl⟩
  | false =>
    obtain ⟨g, copy, hadd⟩ := Graph.exists_addDeferred hnode o
    obtain ⟨r, hr, hrun⟩ := defer_run (c := c) hsymbolic hadd
    rw [hrun]
    have hquiet := Quiet.report (s.withCopy g copy) hr
    exact ⟨hquiet.coherent (hs.withCopy hnode hkind hadd),
      (step_withCopy hs hadd bound).trans hquiet.step, _, List.mem_cons_self, rfl⟩

end Eval

/-! ## Outputs -/

/-- Every node that is left in the output stays as it is. -/
def State.Finished (s : State) (out : Output) : Prop := ∀ n ∈ out.nodes, s.stays n = true

namespace Output

variable {R : Regime} {c : Settings} {complete : NodeId → Eval Output}
variable {K : NodeId → State → Prop}

theorem completeWith_node_run (id : NodeId) (s : State) :
    (Output.node id).completeWith complete c s =
      if s.stays id then (.ok (.node id), s) else complete id c s := by
  cases h : s.stays id <;> simp [completeWith, Eval.stays, h]

section Finished

variable {s : State}

mutual

/-- Completing a finished output performs nothing. -/
theorem completeWith_of_finished :
    ∀ o : Output, s.Finished o → o.completeWith complete c s = (.ok o, s)
  | .value _, _ => rfl
  | .node id, h => (completeWith_node_run id s).trans (if_pos (h id List.mem_cons_self))
  | .list items, h => (Eval.bind_run_ok (completeItemsWith_of_finished items h)).trans rfl

theorem completeItemsWith_of_finished : ∀ os : List Output,
    (∀ n ∈ nodesOfItems os, s.stays n = true) → completeItemsWith complete os c s = (.ok os, s)
  | [], _ => rfl
  | o :: os, h => by
    have hfirst := completeWith_of_finished o fun n hn => h n (List.mem_append_left _ hn)
    have hrest := completeItemsWith_of_finished os fun n hn => h n (List.mem_append_right _ hn)
    exact (Eval.bind_run_ok hfirst).trans ((Eval.bind_run_ok hrest).trans rfl)

end

end Finished

/-- In a state after `s`, the node stays as it is and has the property `K`, or the nodes that are
left of it have that property. -/
def CompletesTo (R : Regime) (c : Settings) (complete : NodeId → Eval Output)
    (K : NodeId → State → Prop) (s : State) (n : NodeId) : Prop :=
  ∀ t, R.inv t → R.step s t →
    if t.stays n then K n t
    else R.Ensures c t (complete n) (OnResult fun r u => ∀ k ∈ r.nodes, K k u)

theorem CompletesTo.later {s t : State} {n : NodeId} (h : CompletesTo R c complete K s n)
    (hst : R.step s t) : CompletesTo R c complete K t n :=
  fun u hu htu => h u hu (R.trans hst htu)

mutual

/-- What holds of the nodes that are left of each node, and lasts, holds of all nodes that are left
in the end; what holds of the failure of a node holds of the failure of the whole. -/
theorem completeWith_outcome {E : Failure → State → Prop}
    (hlasts : ∀ k t u, R.step t u → K k t → K k u) :
    ∀ (o : Output) (s : State),
      (∀ n ∈ o.nodes, ∀ t, R.inv t → R.step s t →
        if t.stays n then K n t
        else R.Ensures c t (complete n) (OnOutcome (fun r u => ∀ k ∈ r.nodes, K k u) E)) →
      R.Ensures c s (o.completeWith complete) (OnOutcome (fun r u => ∀ k ∈ r.nodes, K k u) E)
  | .value v, s, _ => .pure fun _ => by simp [OnOutcome]
  | .node id, s, h => by
    intro hs
    have hid := h id List.mem_cons_self s hs (R.refl s)
    rw [completeWith_node_run]
    split at hid
    · rename_i hstays
      rw [if_pos hstays]
      exact ⟨hs, R.refl s, by simpa [OnOutcome] using hid⟩
    · rename_i hstays
      rw [if_neg hstays]
      exact hid hs
  | .list items, s, h => by
    refine (completeItemsWith_outcome hlasts items s h).bindOutcome fun rs t _ _ hrs => ?_
    refine .pure fun _ k hk => ?_
    obtain ⟨r, hr, hk⟩ := mem_nodes_list.mp hk
    exact hrs r hr k hk

theorem completeItemsWith_outcome {E : Failure → State → Prop}
    (hlasts : ∀ k t u, R.step t u → K k t → K k u) :
    ∀ (os : List Output) (s : State),
      (∀ n ∈ nodesOfItems os, ∀ t, R.inv t → R.step s t →
        if t.stays n then K n t
        else R.Ensures c t (complete n) (OnOutcome (fun r u => ∀ k ∈ r.nodes, K k u) E)) →
      R.Ensures c s (completeItemsWith complete os)
        (OnOutcome (fun rs u => ∀ r ∈ rs, ∀ k ∈ r.nodes, K k u) E)
  | [], s, _ => .pure fun _ => by simp [OnOutcome]
  | o :: os, s, h => by
    refine (completeWith_outcome hlasts o s fun n hn =>
      h n (List.mem_append_left _ hn)).bindOutcome fun r t _ hst hr => ?_
    refine (completeItemsWith_outcome hlasts os t fun n hn u hu htu =>
      h n (List.mem_append_right _ hn) u hu (R.trans hst htu)).bindOutcome fun rs u _ htu hrs => ?_
    refine .pure fun _ r' hr' k hk => ?_
    rcases List.mem_cons.mp hr' with rfl | hr'
    · exact hlasts k t u htu (hr k hk)
    · exact hrs r' hr' k hk

end

theorem completeWith_ensures (hlasts : ∀ k t u, R.step t u → K k t → K k u) (o : Output)
    (s : State) (h : ∀ n ∈ o.nodes, CompletesTo R c complete K s n) :
    R.Ensures c s (o.completeWith complete) (OnResult fun r u => ∀ k ∈ r.nodes, K k u) := by
  simp only [CompletesTo, onResult_eq] at h ⊢
  exact completeWith_outcome hlasts o s h

theorem completeItemsWith_ensures (hlasts : ∀ k t u, R.step t u → K k t → K k u)
    (os : List Output) (s : State) (h : ∀ n ∈ nodesOfItems os, CompletesTo R c complete K s n) :
    R.Ensures c s (completeItemsWith complete os)
      (OnResult fun rs u => ∀ r ∈ rs, ∀ k ∈ r.nodes, K k u) := by
  simp only [CompletesTo, onResult_eq] at h ⊢
  exact completeItemsWith_outcome hlasts os s h

end Output

/-! ## Operands -/

namespace Earlier

/-- What evaluating the node `id` leaves behind together with the result. -/
structure Rests (idle : NodeId → Prop) (id : NodeId) (result : Output) (t : State) : Prop where
  spared : ∀ n ∈ result.nodes, t.Spared idle id.index n
  rest : AtRest idle t.graph t.memo id

/-- The nodes below `bound` are run as `P` says and evaluated completely as `Q` says. -/
structure Satisfies (earlier : Earlier) (bound : Nat) (P Q : NodeId → State → Eval Output → Prop) :
    Prop where
  run : ∀ id s, id.index < bound → P id s (earlier.run id)
  complete : ∀ id s, id.index < bound → Q id s (earlier.complete id)

theorem Satisfies.mono {earlier : Earlier} {bound bound' : Nat}
    {P Q : NodeId → State → Eval Output → Prop} (h : earlier.Satisfies bound P Q)
    (hle : bound' ≤ bound) : earlier.Satisfies bound' P Q where
  run id s hid := h.run id s (Nat.lt_of_lt_of_le hid hle)
  complete id s hid := h.complete id s (Nat.lt_of_lt_of_le hid hle)

/-- Induction on the bound: the nodes at the bound are evaluated from those below. -/
theorem below_satisfies {P Q : NodeId → State → Eval Output → Prop}
    (h : ∀ bound, (below bound).Satisfies bound P Q → ∀ id s, id.index ≤ bound →
      P id s ((below bound).runNode id) ∧ Q id s ((below bound).completeNode id)) (bound : Nat) :
    (below bound).Satisfies bound P Q := by
  induction bound with
  | zero =>
    exact ⟨fun _ _ h => absurd h (Nat.not_lt_zero _), fun _ _ h => absurd h (Nat.not_lt_zero _)⟩
  | succ bound ih =>
    exact ⟨fun id s hid => (h bound ih id s (Nat.le_of_lt_succ hid)).1,
      fun id s hid => (h bound ih id s (Nat.le_of_lt_succ hid)).2⟩

/-- The nodes below `bound` are evaluated coherently. -/
abbrev Sound (earlier : Earlier) (idle : NodeId → Prop) (c : Settings) (bound : Nat) : Prop :=
  earlier.Satisfies bound
    (fun id s x => (coherence idle (id.index + 1)).Ensures c s x (OnResult (Rests idle id)))
    (fun id s x => (coherence idle (id.index + 1)).Ensures c s x (OnResult (Rests idle id)))

/-- The first of some nodes has been evaluated, and if `all` then all of them have been. -/
structure Evaluated (idle : NodeId → Prop) (ids : List NodeId) (all : Prop) (t : State) :
    Prop where
  first : ∀ id, ids.head? = some id → AtRest idle t.graph t.memo id
  rest : all → ∀ id ∈ ids, AtRest idle t.graph t.memo id

/-- What performing the operation `o` of the node `id` leaves behind together with the result. -/
structure Performed (idle : NodeId → Prop) (id : NodeId) (o : Operation) (result : Output)
    (t : State) : Prop where
  left : ∀ n ∈ result.nodes, t.Left idle id.index n
  evaluated : o.op.isControl = false → Evaluated idle o.operands (∃ v, result = .value v) t

variable {earlier : Earlier} {idle : NodeId → Prop} {c : Settings} {bound bound' : Nat}
variable {s t : State} {id : NodeId} {node : Node} {o : Operation}

theorem Evaluated.step {ids : List NodeId} {all : Prop} (h : Evaluated idle ids all s)
    (hstep : Step bound s t) : Evaluated idle ids all t where
  first id hid := hstep.atRest (h.first id hid)
  rest hall id hid := hstep.atRest (h.rest hall id hid)

theorem coherence_mono {α : Type} {x : Eval α} {Q : Except Failure α → State → Prop}
    (h : (coherence idle bound').Ensures c s x Q) (hle : bound' ≤ bound) :
    (coherence idle bound).Ensures c s x Q :=
  h.of_step (fun _ => .rfl) fun _ _ hstep => hstep.mono hle

theorem complete_ensures (h : earlier.Sound idle c bound) (hid : id.index < bound) :
    (coherence idle bound).Ensures c s (earlier.complete id) (OnResult (Rests idle id)) :=
  coherence_mono (h.complete id s hid) hid

theorem resolve_ensures (h : earlier.Sound idle c bound) (hid : id.index < bound) :
    (coherence idle bound).Ensures c s (earlier.resolve id)
      (OnResult fun _ t => AtRest idle t.graph t.memo id) :=
  (complete_ensures h hid).bindResult fun _ _ _ _ hr => .pure fun _ => hr.rest

theorem resolveAll_ensures (h : earlier.Sound idle c bound) {ids : List NodeId}
    (hids : ∀ id ∈ ids, id.index < bound) :
    (coherence idle bound).Ensures c s (earlier.resolveAll ids)
      (OnResult fun vs t => Evaluated idle ids (vs.isSome = true) t) := by
  induction ids generalizing s with
  | nil => exact .pure fun _ => ⟨by simp, by simp⟩
  | cons id ids ih =>
    refine (resolve_ensures h (hids id List.mem_cons_self)).bindResult fun r t _ _ hid => ?_
    cases r with
    | none => exact .pure fun _ => ⟨by simpa using hid, by simp⟩
    | some v =>
      refine (ih fun n hn => hids n (List.mem_cons_of_mem id hn)).bindResult ?_
      intro vs u _ htu hvs
      have hid := htu.atRest hid
      cases vs with
      | none => exact .pure fun _ => ⟨by simpa using hid, by simp⟩
      | some vs => exact .pure fun _ => ⟨by simpa using hid, by simpa [hid] using hvs.rest⟩

theorem resolveOption_ensures (h : earlier.Sound idle c bound) {option : OptionValue}
    (hids : ∀ id ∈ option.references, id.index < bound) :
    (coherence idle bound).Ensures c s (earlier.resolveOption option)
      (OnResult fun _ _ => True) := by
  cases option with
  | value v => exact .pure fun _ => trivial
  | dtype t => exact .pure fun _ => trivial
  | node id =>
    have hid := hids id (by simp [OptionValue.references])
    exact (resolve_ensures h hid).bindResult fun _ _ _ _ _ => .pure fun _ => trivial
  | nodes ids =>
    exact (resolveAll_ensures h hids).bindResult fun _ _ _ _ _ => .pure fun _ => trivial

theorem resolveOptions_ensures (h : earlier.Sound idle c bound)
    {entries : List (String × OptionValue)}
    (hids : ∀ entry ∈ entries, ∀ id ∈ entry.2.references, id.index < bound) :
    (coherence idle bound).Ensures c s (earlier.resolveOptions entries)
      (OnResult fun _ _ => True) := by
  induction entries generalizing s with
  | nil => exact .pure fun _ => trivial
  | cons entry entries ih =>
    obtain ⟨key, option⟩ := entry
    refine (resolveOption_ensures h (hids _ List.mem_cons_self)).bindResult fun r _ _ _ _ => ?_
    cases r with
    | none => exact .pure fun _ => trivial
    | some r =>
      refine (ih fun e he => hids e (List.mem_cons_of_mem _ he)).bindResult fun rs _ _ _ _ => ?_
      cases rs <;> exact .pure fun _ => trivial

theorem gather_ensures (h : earlier.Sound idle c bound) {kernel : Kernel}
    (hids : ∀ id ∈ o.references, id.index < bound) :
    (coherence idle bound).Ensures c s (earlier.gather id kernel o)
      (OnResult fun args t => Evaluated idle o.operands (args.isSome = true) t) := by
  have hoperands : ∀ id ∈ o.operands, id.index < bound :=
    fun id hid => hids id (List.mem_append_left _ hid)
  have hoptions : ∀ entry ∈ o.options.entries, ∀ id ∈ entry.2.references, id.index < bound :=
    fun entry hentry id hid =>
      hids id (Operation.mem_references_of_entry hentry hid)
  refine (resolveAll_ensures h hoperands).bindResult fun vs t _ _ hvs => ?_
  cases vs with
  | none => exact .pure fun _ => ⟨hvs.first, by simp⟩
  | some vs =>
    refine (resolveOptions_ensures h hoptions).bindResult fun rs u _ htu _ => ?_
    have hvs := hvs.step htu
    cases rs with
    | none => exact .pure fun _ => ⟨hvs.first, by simp⟩
    | some rs =>
      refine Eval.node_ensures.bindResult fun node v _ hstep _ => ?_
      exact .pure fun _ => ⟨(hvs.step hstep).first, fun _ => (hvs.step hstep).rest rfl⟩

theorem operand_ensures {R : Regime} {i : Nat} : R.Ensures c s (operand o i)
    (OnResult fun id _ => o.operands[i]? = some id) := by
  unfold operand
  split
  · rename_i id hid
    exact .pure fun _ => hid
  · exact .fail fun _ => trivial

/-! ## Operations -/

theorem complete_left (h : earlier.Sound idle c bound) (hid : id.index < bound) :
    (coherence idle bound).Ensures c s (earlier.complete id)
      (OnResult fun out t => ∀ n ∈ out.nodes, t.Left idle bound n) := by
  apply (complete_ensures h hid).conseq
  rintro (_ | out) t ht _ hr
  · trivial
  · exact fun n hn => Coherent.left_of_spared ht hid (hr.spared n hn)

theorem each_ensures (h : earlier.Sound idle c bound) {ids : List NodeId}
    (hids : ∀ id ∈ ids, id.index < bound) :
    (coherence idle bound).Ensures c s (Eval.each earlier.complete ids)
      (OnResult fun rs t => ∀ r ∈ rs, ∀ n ∈ r.nodes, t.Left idle bound n) :=
  Regime.Ensures.each (fun _ _ _ hstep hb n hn => (Step.toLater hstep).left (hb n hn)) ids s
    fun r hr _ _ => complete_left h (hids r hr)

theorem flowGroup_ensures (h : earlier.Sound idle c bound)
    (hids : ∀ r ∈ o.references, r.index < bound) :
    (coherence idle bound).Ensures c s (earlier.flowGroup o)
      (OnResult fun out t => ∀ n ∈ out.nodes, t.Left idle bound n) := by
  refine (each_ensures h fun r hr => hids r (Operation.references_of_mem_members hr)).bindResult
    fun rs t _ _ hrs => ?_
  refine .pure fun _ n hn => ?_
  obtain ⟨r, hr, hn⟩ := Output.mem_nodes_list.mp hn
  exact hrs r hr n hn

theorem print_ensures (h : earlier.Sound idle c bound)
    (hids : ∀ r ∈ o.references, r.index < bound) :
    (coherence idle bound).Ensures c s (earlier.print o)
      (OnResult fun out t => ∀ n ∈ out.nodes, t.Left idle bound n) := by
  refine operand_ensures.bindResult fun input t _ _ hinput => ?_
  have hlt := hids input (Operation.mem_references_of_operand hinput)
  refine (complete_ensures h hlt).bindResult fun shown u _ _ hshown => ?_
  refine (Eval.report_ensures rfl).bindResult fun _ v _ huv _ => ?_
  refine .pure fun _ n hn => ?_
  cases List.mem_singleton.mp hn
  exact .inr ⟨hlt, huv.atRest hshown.rest⟩

theorem identity_ensures (h : earlier.Sound idle c bound)
    (hids : ∀ r ∈ o.references, r.index < bound) {i : Nat} :
    (coherence idle bound).Ensures c s (do earlier.complete (← operand o i))
      (OnResult fun out t => ∀ n ∈ out.nodes, t.Left idle bound n) := by
  refine operand_ensures.bindResult fun input t _ _ hinput => ?_
  exact complete_left h (hids input (Operation.mem_references_of_operand hinput))

theorem defer_left (hnode : s.graph.node? id = some node) (hkind : node.kind = .operation o) :
    (coherence idle bound).Ensures c s (.defer id o)
      (OnResult fun out t => ∀ n ∈ out.nodes, t.Left idle bound n) := by
  apply (Eval.defer_ensures hnode hkind).conseq
  rintro (_ | out) t _ _ hr
  · trivial
  · obtain ⟨copy, hcopy, rfl⟩ := hr
    intro n hn
    cases List.mem_singleton.mp hn
    exact .inl hcopy

theorem cond_ensures (h : earlier.Sound idle c bound)
    (hids : ∀ r ∈ o.references, r.index < bound)
    (hnode : s.graph.node? id = some node) (hkind : node.kind = .operation o) :
    (coherence idle bound).Ensures c s (earlier.cond id o)
      (OnResult fun out t => ∀ n ∈ out.nodes, t.Left idle bound n) := by
  unfold cond
  dsimp only
  split
  · rename_i pred hpred
    have hlt := hids pred (Operation.mem_references_of_option hpred List.mem_cons_self)
    refine (resolve_ensures h hlt).bindResult fun v t _ hst _ => ?_
    cases v with
    | some v => exact identity_ensures h hids
    | none => exact defer_left (hst.graph.operation hnode hkind) hkind
  · exact identity_ensures h hids
  · exact .fail fun _ => trivial

theorem kernel_ensures (h : earlier.Sound idle c id.index)
    (hids : ∀ r ∈ o.references, r.index < id.index)
    (hnode : s.graph.node? id = some node) (hkind : node.kind = .operation o) {kernel : Kernel} :
    (coherence idle id.index).Ensures c s
      (do
        match ← earlier.gather id kernel o with
        | some args => .compute args
        | none => .defer id o)
      (OnResult (Performed idle id o)) := by
  refine (gather_ensures h hids).bindResult fun args t _ hst hargs => ?_
  cases args with
  | some args =>
    apply Eval.compute_ensures.conseq
    rintro (_ | out) u _ htu hr
    · trivial
    · obtain ⟨v, rfl⟩ := hr
      have hargs := hargs.step htu
      exact ⟨by simp, fun _ => ⟨hargs.first, fun _ => hargs.rest rfl⟩⟩
  | none =>
    apply (Eval.defer_ensures (hst.graph.operation hnode hkind) hkind).conseq
    rintro (_ | out) u _ htu hr
    · trivial
    · obtain ⟨copy, hcopy, rfl⟩ := hr
      exact ⟨by simpa using .inl hcopy, fun _ => ⟨(hargs.step htu).first, by simp⟩⟩

/-- What performing the operation `o` of the node `id` comes to: from some state on it only reports
the write that the result stands for. -/
def Records (idle : NodeId → Prop) (id : NodeId) (o : Operation) (t : State) :
    Except Failure Output → State → Prop
  | .ok out, u => u = t.wrote (t.graph.write? id out) ∧ Performed idle id o out t
  | .error _, u => u = t

theorem records_of_performed {out : Output} (hnode : t.graph.node? id = some node)
    (hkind : node.kind = .operation o) (hop : ∀ update, o.op ≠ .control (.assign update))
    (h : Performed idle id o out t) : Records idle id o t (.ok out) t := by
  have hwrite : t.graph.write? id out = none := by
    simp only [Graph.write?, hnode, Option.map_some, hkind]
    split
    · rename_i heq
      cases heq
      exact absurd rfl (hop _)
    · rfl
  exact ⟨by rw [hwrite]; rfl, h⟩

theorem records_of_deferred {copy : NodeId} (hcopy : copy ∈ t.symbolic)
    (hop : o.op.isControl = true) : Records idle id o t (.ok (.node copy)) t := by
  have hwrite : t.graph.write? id (.node copy) = none := by
    unfold Graph.write?
    split
    · rename_i heq; cases heq
    · rfl
  refine ⟨by rw [hwrite]; rfl, by simpa using .inl hcopy, by simp [hop]⟩

theorem write_reaches {update : Update} {target : NodeId} {v : Value}
    (hnode : s.graph.node? id = some node) (hkind : node.kind = .operation o)
    (hop : o.op = .control (.assign update)) (htarget : o.operands[0]? = some target) :
    (coherence idle bound).Reaches c s (.write update target v) (Records idle id o) := by
  intro hs
  cases hstore : s.graph.store target v with
  | error e =>
    rw [Eval.write_run_error hstore]
    exact ⟨s, hs, Step.refl bound s, rfl⟩
  | ok r =>
    obtain ⟨g, w⟩ := r
    obtain ⟨m, hm, -⟩ := hs.graph.store_eq hstore update
    rw [Eval.write_run update hs.graph hstore hm]
    refine ⟨s, hs, Step.refl bound s, ?_, by simp, by simp [hop, Op.isControl]⟩
    -- The write that was made is the one that the result stands for.
    obtain ⟨op, operands, options⟩ := o
    cases hop
    cases operands with
    | nil => cases htarget
    | cons first rest =>
      cases htarget
      simp [Graph.write?, hnode, hkind, hm]

theorem assign_reaches (h : earlier.Sound idle c id.index)
    (hids : ∀ r ∈ o.references, r.index < id.index) {update : Update}
    (hnode : s.graph.node? id = some node) (hkind : node.kind = .operation o)
    (hop : o.op = .control (.assign update)) :
    (coherence idle id.index).Reaches c s (earlier.assign id o update) (Records idle id o) := by
  have hcontrol : o.op.isControl = true := by simp [hop, Op.isControl]
  -- The assignment is left for later if its source has no value, or an old value is missing.
  have hdefer : ∀ t, s.graph.Evolves t.graph →
      (coherence idle id.index).Reaches c t (.defer id o) (Records idle id o) := by
    intro t ht
    refine .of_ensures (Eval.defer_ensures (ht.operation hnode hkind) hkind) ?_
    rintro (_ | out) u _ _ hr
    · rfl
    · obtain ⟨copy, hcopy, rfl⟩ := hr
      exact records_of_deferred hcopy hcontrol
  refine .bind operand_ensures (fun target t _ hst htarget => ?_) fun _ _ _ _ _ => rfl
  refine .bind operand_ensures (fun source u _ htu hsource => ?_) fun _ _ _ _ _ => rfl
  have hsu := hst.trans htu
  have hlt := hids source (Operation.mem_references_of_operand hsource)
  have hlt' := hids target (Operation.mem_references_of_operand htarget)
  refine .bind (resolve_ensures h hlt) (fun v w _ huw _ => ?_) fun _ _ _ _ _ => rfl
  have hsw := hsu.trans huw
  cases v with
  | none => exact hdefer w hsw.graph
  | some v =>
    dsimp only
    split
    · exact write_reaches (hsw.graph.operation hnode hkind) hkind hop htarget
    · rename_i op _
      refine .bind (resolve_ensures h hlt') (fun old x _ hwx _ => ?_) fun _ _ _ _ _ => rfl
      have hsx := hsw.trans hwx
      cases old with
      | none => exact hdefer x hsx.graph
      | some old =>
        dsimp only
        split
        · exact write_reaches (hsx.graph.operation hnode hkind) hkind hop htarget
        · exact .fail rfl

theorem perform_reaches (h : earlier.Sound idle c id.index)
    (hids : ∀ r ∈ o.references, r.index < id.index)
    (hnode : s.graph.node? id = some node) (hkind : node.kind = .operation o) :
    (coherence idle id.index).Reaches c s (earlier.perform id o) (Records idle id o) := by
  -- Only an assignment writes; all other operations are steps of the regime throughout.
  have hstep : ∀ {x : Eval Output}, (∀ update, o.op ≠ .control (.assign update)) →
      (coherence idle id.index).Ensures c s x (OnResult (Performed idle id o)) →
      (coherence idle id.index).Reaches c s x (Records idle id o) := by
    intro x hop hx
    refine .of_ensures hx ?_
    rintro (_ | out) t _ hst hr
    · rfl
    · exact records_of_performed (hst.graph.operation hnode hkind) hkind hop hr
  have hcontrol : ∀ {x : Eval Output} {control : Control}, o.op = .control control →
      (∀ update, control ≠ .assign update) →
      (coherence idle id.index).Ensures c s x
        (OnResult fun out t => ∀ n ∈ out.nodes, t.Left idle id.index n) →
      (coherence idle id.index).Reaches c s x (Records idle id o) := by
    intro x control hop hassign hx
    refine hstep (by simpa [hop] using hassign) (hx.conseq ?_)
    rintro (_ | out) t _ _ hr
    · trivial
    · exact ⟨hr, by simp [hop, Op.isControl]⟩
  unfold perform
  split
  · rename_i update hop
    exact assign_reaches h hids hnode hkind hop
  · rename_i hop
    exact hcontrol hop (by simp) (flowGroup_ensures h hids)
  · rename_i hop
    exact hcontrol hop (by simp) (identity_ensures h hids)
  · rename_i hop
    exact hcontrol hop (by simp) (identity_ensures h hids)
  · rename_i hop
    exact hcontrol hop (by simp) (print_ensures h hids)
  · rename_i hop
    exact hcontrol hop (by simp) (cond_ensures h hids hnode hkind)
  · exact .fail rfl
  · rename_i kernel hop
    exact hstep (by simp [hop]) (kernel_ensures h hids hnode hkind)

/-! ## Breakpoints -/

/-- Completing an output goes on from nodes that lie before it. -/
theorem completeWith_descends (h : earlier.Sound idle c bound) (out : Output)
    (hout : ∀ n ∈ out.nodes, s.Descends bound n) :
    (coherence idle bound).Ensures c s (out.completeWith earlier.complete)
      (OnResult fun _ _ => True) := by
  refine (Output.completeWith_ensures (K := fun _ _ => True) (fun _ _ _ _ _ => trivial) out s
    fun n hn t _ hst => ?_).conseq (by rintro (_ | _) _ _ _ _ <;> trivial)
  split
  · trivial
  · rename_i hstays
    have hlt := ((Step.toLater hst).descends (hout n hn)).resolve_left hstays
    exact (complete_ensures h hlt).conseq (by rintro (_ | _) _ _ _ _ <;> simp)

/-- What a breakpoint comes to know of the operand at position `i`. That of a kernel is
evaluated. -/
def Observed (idle : NodeId → Prop) (o : Operation) (i : Nat) :
    Except Failure (Option Output) → State → Prop
  | .ok known, t => o.op.isControl = false → known.isSome = true →
      ∀ input, o.operands[i]? = some input → AtRest idle t.graph t.memo input
  | .error _, _ => False

theorem observe_ensures (h : earlier.Sound idle c bound)
    (hids : ∀ r ∈ o.references, r.index < bound) {i : Nat} :
    (coherence idle bound).Ensures c s (earlier.observe o i) (Observed idle o i) := by
  unfold observe
  split
  · exact .pure fun _ _ h => by cases h
  · rename_i input hinput
    split
    · rename_i hcontrol
      have hnot : ¬ o.op.isControl = false := by simp [hcontrol]
      refine .state ?_
      split <;> exact .pure fun _ h => absurd h hnot
    · have hlt := hids input (Operation.mem_references_of_operand hinput)
      refine (complete_ensures h hlt).attempt.bind (fun r t _ _ hr => ?_) ?_
      · obtain ⟨_, ⟨⟩, hrests⟩ := hr
        cases r with
        | ok known =>
          refine .pure fun _ _ _ input' hinput' => ?_
          cases hinput.symm.trans hinput'
          exact hrests.rest
        | error e => exact .pure fun _ _ h => by cases h
      · rintro e t _ _ ⟨_, habsurd, _⟩
        cases habsurd

theorem fire_unwatched {result : Output} (h : s.graph.watched? id = none) :
    earlier.fire id o result c s = (.ok (), s) := by
  unfold fire
  rw [Eval.state_bind_run]
  cases hnode : s.graph.node? id with
  | none => rfl
  | some node =>
    have hwatched : node.watched = false := by simpa [Graph.watched?, hnode] using h
    simp [hwatched]

/-- A breakpoint evaluates only nodes that the operation depends on, before it reports. -/
theorem fire_reaches (h : earlier.Sound idle c id.index)
    (hids : ∀ r ∈ o.references, r.index < id.index) {result : Output} {name : String}
    (hwatched : s.graph.watched? id = some name)
    (hleft : ∀ n ∈ result.nodes, s.Left idle id.index n) :
    (coherence idle id.index).Reaches c s (earlier.fire id o result) fun t r u =>
      ∃ a b shown, r = .ok () ∧
        u = { t with events := t.events.push (.observed name a b shown) } ∧
        Observed idle o 1 (.ok b) t := by
  obtain ⟨node, hnode, hname⟩ := Option.bind_eq_some_iff.mp hwatched
  obtain ⟨hnode', hname⟩ : node.watched = true ∧ node.name = name := by
    split at hname
    · rename_i hnode'
      exact ⟨hnode', by simpa using hname⟩
    · cases hname
  unfold fire
  refine .state ?_
  rw [hnode]
  dsimp only
  rw [if_pos hnode']
  refine .bind (observe_ensures h hids) (fun a t _ hst _ => ?_) fun _ _ _ _ h => h.elim
  refine .bind (observe_ensures h hids) (fun b u _ htu hb => ?_) fun _ _ _ _ h => h.elim
  -- For the report, the result is completed; what is left in it lies before the operation.
  have hdescends : ∀ n ∈ result.nodes, u.Descends id.index n :=
    fun n hn => ((hst.trans htu).left (hleft n hn)).descends
  refine .bind (completeWith_descends h result hdescends).attempt (fun shown v hv huv _ => ?_)
    (by rintro _ _ _ _ ⟨_, h, _⟩; cases h)
  refine fun hv => ⟨v, hv, Step.refl _ v, a, b, _, rfl, by rw [hname]; rfl, ?_⟩
  exact fun hcontrol hsome input hinput =>
    (Step.toLater huv).atRest (hb hcontrol hsome input hinput)

/-! ## Running operations -/

theorem runOperation_hit {name : String} {known : Output} (h : s.memo.lookup id = some known) :
    earlier.runOperation id name (.operation o) c s =
      (.ok known, { s with events := s.events.push (.report (.remembered name)) }) := by
  unfold runOperation
  rw [Eval.state_bind_run, h]
  rfl

theorem execute_error {e : Failure} (h : earlier.perform id o c s = (.error e, t)) :
    earlier.execute id o c s = (.error e, t) :=
  Eval.bind_run_error h

theorem execute_ok {out : Output} (h : earlier.perform id o c s = (.ok out, t)) :
    earlier.execute id o c s = (.ok out, { t with performed := (id, out) :: t.performed }) :=
  Eval.bind_run_ok h

/-- A result is noted and remembered at once. -/
theorem runOperation_eq (id : NodeId) (name : String) (o : Operation) :
    earlier.runOperation id name (.operation o) = (do
      match (← Eval.state).memo.lookup id with
      | some known =>
        Eval.report (.remembered name)
        return known
      | none =>
        match ← (earlier.perform id o).attempt with
        | .error e => Eval.fail (← Eval.inContext id e)
        | .ok result =>
          Eval.modify fun s => s.recorded id result
          earlier.fire id o result
          return result) := by
  funext c s
  unfold runOperation
  rw [Eval.state_bind_run, Eval.state_bind_run]
  cases s.memo.lookup id with
  | some known => rfl
  | none =>
    dsimp only
    cases hperform : earlier.perform id o c s with
    | mk r t =>
      cases r with
      | error e =>
        have hexecute := Eval.attempt_run_of (execute_error hperform)
        rw [Eval.bind_run_ok hexecute, Eval.bind_run_ok (Eval.attempt_run_of hperform)]
      | ok out =>
        -- Noting the result and remembering it are one change of the state.
        have hexecute := Eval.attempt_run_of (execute_ok hperform)
        rw [Eval.bind_run_ok hexecute, Eval.bind_run_ok (Eval.attempt_run_of hperform)]
        rfl

theorem runOperation_error {name : String} {e : Failure} (hmiss : s.memo.lookup id = none)
    (h : earlier.perform id o c s = (.error e, t)) :
    earlier.runOperation id name (.operation o) c s = (.error (t.graph.wrap id e), t) := by
  rw [runOperation_eq, Eval.state_bind_run, hmiss]
  apply (Eval.bind_run_ok (Eval.attempt_run_of h)).trans
  exact (Eval.bind_run_ok (Eval.inContext_run id e)).trans rfl

theorem runOperation_ok {name : String} {out : Output} {u : State}
    (hmiss : s.memo.lookup id = none) (h : earlier.perform id o c s = (.ok out, t))
    (hfire : earlier.fire id o out c (t.recorded id out) = (.ok (), u)) :
    earlier.runOperation id name (.operation o) c s = (.ok out, u) := by
  rw [runOperation_eq, Eval.state_bind_run, hmiss]
  apply (Eval.bind_run_ok (Eval.attempt_run_of h)).trans
  apply (Eval.bind_run_ok (Eval.modify_run _)).trans
  exact (Eval.bind_run_ok hfire).trans rfl

/-- A new result is remembered, and reported if there is a breakpoint, without a failure. -/
theorem remember_fire (h : earlier.Sound idle c id.index)
    (hids : ∀ r ∈ o.references, r.index < id.index) (ht : Coherent idle t)
    (hnode : t.graph.node? id = some node) (hkind : node.kind = .operation o)
    (hnew : id ∉ t.memo.map Prod.fst) {out : Output}
    (hleft : ∀ n ∈ out.nodes, t.Left idle id.index n) :
    ∃ u, earlier.fire id o out c (t.remembered id out) = (.ok (), u) ∧ Coherent idle u ∧
      Step (id.index + 1) t u ∧ (t.remembered id out).memo <:+ u.memo := by
  have hcoherent := ht.remembered hnode hkind hnew hleft
  have hwatched' : (t.remembered id out).graph.watched? id = t.graph.watched? id := by
    simp [Graph.watched?, remembered_evolves.operation hnode hkind, hnode]
  cases hwatched : t.graph.watched? id with
  | none =>
    refine ⟨_, fire_unwatched (hwatched' ▸ hwatched), hcoherent,
      ht.step_remembered hnode hkind hwatched, List.suffix_rfl⟩
  | some name =>
    obtain ⟨v, hv, hstep, a, b, shown, hr, hu, -⟩ := fire_reaches h hids (c := c)
      (hwatched' ▸ hwatched) (fun n hn => remembered_left (hleft n hn)) hcoherent
    refine ⟨_, Prod.ext hr hu, hv.with_events _,
      ht.step_observed hnode hkind hwatched hstep a b shown, hstep.memo⟩

/-- What performing an operation without a result ends with: the node has still none, and the state
in which a result is remembered is coherent. -/
theorem perform_ends (h : earlier.Sound idle c id.index) (hs : Coherent idle s)
    (hnode : s.graph.node? id = some node) (hkind : node.kind = .operation o)
    (hmiss : s.memo.lookup id = none) {r : Except Failure Output} {u : State}
    (hperform : earlier.perform id o c s = (r, u)) :
    id ∉ u.memo.map Prod.fst ∧ ∀ out, r = .ok out →
      Coherent idle (u.recorded id out) ∧
      ∀ n ∈ out.nodes, State.Left (u.recorded id out) idle id.index n := by
  have hids := hs.graph.lt_of_operation hnode hkind
  obtain ⟨t, ht, hst, hrecords⟩ := perform_reaches (c := c) h hids hnode hkind hs
  rw [hperform] at hrecords
  have hnew := Step.new hst (Nat.le_refl _) hmiss
  cases r with
  | error e =>
    cases hrecords
    exact ⟨hnew, fun _ heq => by cases heq⟩
  | ok out =>
    obtain ⟨rfl, hperformed⟩ := hrecords
    refine ⟨by rwa [wrote_memo], fun _ heq => ?_⟩
    cases heq
    rw [remember_wrote rfl]
    exact ⟨ht.remembered (hst.graph.operation hnode hkind) hkind hnew hperformed.left,
      fun n hn => remembered_left (hperformed.left n hn)⟩

theorem runOperation_ensures (h : earlier.Sound idle c id.index)
    (hnode : s.graph.node? id = some node) (hkind : node.kind = .operation o) {name : String} :
    (coherence idle (id.index + 1)).Ensures c s (earlier.runOperation id name (.operation o))
      (OnResult (Rests idle id)) := by
  intro hs
  have hids := hs.graph.lt_of_operation hnode hkind
  cases hlookup : s.memo.lookup id with
  | some known =>
    rw [runOperation_hit hlookup]
    have hquiet := Quiet.report s (r := .remembered name) rfl
    have hmem := mem_of_lookup hlookup
    refine ⟨hquiet.coherent hs, hquiet.step, fun n hn => .inl ?_, .operation hmem⟩
    exact hs.left id known hmem n hn
  | none =>
    obtain ⟨t, ht, hst, hrecords⟩ := perform_reaches (c := c) h hids hnode hkind hs
    cases hperform : earlier.perform id o c s with
    | mk r u =>
      rw [hperform] at hrecords
      cases r with
      | error e =>
        cases hrecords
        rw [runOperation_error hlookup hperform]
        exact ⟨ht, hst.mono (Nat.le_succ _), trivial⟩
      | ok out =>
        obtain ⟨hu, hperformed⟩ := hrecords
        have hnew := Step.new hst (Nat.le_refl _) hlookup
        -- The breakpoint fires once the result is remembered, and changes no result.
        obtain ⟨v, hfire, hv, htv, hmemo⟩ := remember_fire h hids ht
          (hst.graph.operation hnode hkind) hkind hnew hperformed.left
        rw [runOperation_ok hlookup hperform (by rw [remember_wrote hu]; exact hfire)]
        have hmem : (id, out) ∈ v.memo := hmemo.subset List.mem_cons_self
        refine ⟨hv, (hst.mono (Nat.le_succ _)).trans htv, fun n hn => .inl ?_, .operation hmem⟩
        exact htv.left (hperformed.left n hn)

/-! ## Running and completing nodes -/

theorem runNode_operation (hretained : s.context.isRetained id = false)
    (hnode : s.graph.node? id = some node) (hkind : node.kind = .operation o) :
    earlier.runNode id c s = earlier.runOperation id node.name (.operation o) c
      { s with events := s.events.push (.report (.entered node.kind.label node.name)) } := by
  unfold runNode
  rw [Eval.state_bind_run, if_neg (by simp [hretained])]
  apply (Eval.bind_run_ok (Eval.node_run_some hnode)).trans
  apply (Eval.bind_run_ok (Eval.report_run _)).trans
  rw [hkind]

theorem runNode_ensures (h : earlier.Sound idle c bound) (hid : id.index ≤ bound) :
    (coherence idle (id.index + 1)).Ensures c s (earlier.runNode id)
      (OnResult (Rests idle id)) := by
  refine .state ?_
  split
  · rename_i hretained
    refine .pure fun hs => ⟨fun n hn => ?_, .idle (hs.retained id hretained)⟩
    cases List.mem_singleton.mp hn
    exact .inr ⟨Nat.le_refl _, hretained⟩
  · refine Eval.node_ensures.bindResult fun node t _ hst ⟨hts, hnode⟩ => ?_
    subst hts
    refine (Eval.report_ensures rfl).bindResult fun _ u _ htu _ => ?_
    -- Entering the node only reports it, so a leaf is at rest as it was before.
    have hleaf : node.kind.isLeaf = true → AtRest idle u.graph u.memo id :=
      fun hleaf => htu.atRest (.leaf hnode hleaf)
    split
    · rename_i hkind
      exact .pure fun _ => ⟨by simp, hleaf (by simp [hkind, NodeKind.isLeaf])⟩
    · rename_i target hkind
      have hu := htu.graph.eq_of_not_leaf hnode (by simp [hkind, NodeKind.isLeaf])
      intro hcoherent
      have hlt := hcoherent.graph.lt_of_reference hu hkind
      refine ((coherence_mono (h.run target u (Nat.lt_of_lt_of_le hlt hid)) (by omega)).conseq ?_)
        hcoherent
      rintro (_ | out) v hv huv hr
      · trivial
      · refine ⟨fun n hn => .inl (Coherent.left_of_spared hv hlt (hr.spared n hn)), ?_⟩
        have hnode' := huv.graph.eq_of_not_leaf hu (by simp [hkind, NodeKind.isLeaf])
        exact .reference hnode' hkind hr.rest
    · exact .fail fun _ => trivial
    · rename_i hkind
      refine Eval.recordRead_ensures.bindResult fun _ v _ huv _ => ?_
      have hrest := huv.atRest (hleaf (by simp [hkind, NodeKind.isLeaf]))
      exact .pure fun _ => ⟨by simp, hrest⟩
    · rename_i hkind
      refine .state ?_
      split
      · exact .pure fun _ => ⟨by simp, hleaf (by simp [hkind, NodeKind.isLeaf])⟩
      · exact .fail fun _ => trivial
    · rename_i hkind
      exact runOperation_ensures (h.mono hid) (htu.graph.operation hnode hkind) hkind

/-- A node goes on to be run only if it does not stay as it is, so it lies below the node that the
evaluation began with. -/
theorem lt_of_spared (h : s.Spared idle bound id) (hstays : s.stays id = false) :
    id.index < bound :=
  h.descends.resolve_left (by simp [hstays])

theorem completesTo_of_spared (h : earlier.Sound idle c bound) (hid : id.index ≤ bound)
    {n : NodeId} (hn : s.Spared idle id.index n) :
    Output.CompletesTo (coherence idle (id.index + 1)) c earlier.complete
      (fun k t => t.Spared idle id.index k) s n := by
  intro t _ hst
  have hn := hst.spared hn
  split
  · exact hn
  · rename_i hstays
    have hlt := lt_of_spared hn (by simpa using hstays)
    apply (coherence_mono (complete_left (h.mono hid) hlt) (Nat.le_succ _)).conseq
    rintro (_ | out) u _ _ hr
    · trivial
    · exact fun k hk => .inl (hr k hk)

theorem completeWith_spared (h : earlier.Sound idle c bound) (hid : id.index ≤ bound)
    {out : Output} (hspared : ∀ n ∈ out.nodes, s.Spared idle id.index n) :
    (coherence idle (id.index + 1)).Ensures c s (out.completeWith earlier.complete)
      (OnResult fun r t => ∀ n ∈ r.nodes, t.Spared idle id.index n) :=
  Output.completeWith_ensures (K := fun k t => t.Spared idle id.index k)
    (fun _ _ _ hstep hk => (Step.toLater hstep).spared hk) out s
    fun n hn => completesTo_of_spared h hid (hspared n hn)

theorem completeItemsWith_spared (h : earlier.Sound idle c bound) (hid : id.index ≤ bound)
    {outs : List Output} (hspared : ∀ n ∈ Output.nodesOfItems outs, s.Spared idle id.index n) :
    (coherence idle (id.index + 1)).Ensures c s (Output.completeItemsWith earlier.complete outs)
      (OnResult fun rs t => ∀ r ∈ rs, ∀ n ∈ r.nodes, t.Spared idle id.index n) :=
  Output.completeItemsWith_ensures (K := fun k t => t.Spared idle id.index k)
    (fun _ _ _ hstep hk => (Step.toLater hstep).spared hk) outs s
    fun n hn => completesTo_of_spared h hid (hspared n hn)

section Force

variable {origin last : NodeId} {remaining : Nat}

theorem force_value (v : Value) :
    earlier.force origin remaining last (.value v) = pure (.value v) := by
  cases remaining <;> rfl

theorem force_list (items : List Output) : earlier.force origin remaining last (.list items) =
    (Output.list items).completeWith earlier.complete := by
  cases remaining <;> rfl

theorem force_node (next : NodeId) : earlier.force origin remaining last (.node next) = (do
    if next = last ∨ (← Eval.stays next) then return .node next
    match remaining with
    | 0 =>
      let steps := max (← Eval.settings).maxIterations 1
      Eval.report (.stoppedForcing (← Eval.node origin).name steps)
      return .node next
    | remaining + 1 => earlier.force origin remaining next (← earlier.runNode next)) := by
  cases remaining <;> rfl

end Force

/-- A kernel whose arguments are found is computed. -/
theorem completeNode_kernel {kernel : Kernel} {args : Arguments} {v : Value}
    (hnode : s.graph.node? id = some node) (hkind : node.kind = .operation o)
    (hop : o.op = .kernel kernel) (hretained : s.context.isRetained id = false)
    (hmiss : s.memo.lookup id = none)
    (hgather : earlier.gather id kernel o c
      { s with events := s.events.push (.report (.entered node.kind.label node.name)) } =
        (.ok (some args), t))
    (hv : (args.compute c.backend t.rng).outcome = .ok v) (hwatched : t.graph.watched? id = none) :
    ∃ u, earlier.completeNode id c s = (.ok (.value v), u) ∧ u.graph = t.graph := by
  have hcompute : Eval.compute args c t = (.ok (.value v), (Eval.compute args c t).2) :=
    Prod.ext (by rw [Eval.compute_run, hv]; rfl) rfl
  have hgraph : (Eval.compute args c t).2.graph = t.graph := by rw [Eval.compute_run]
  have hperform : earlier.perform id o c
      { s with events := s.events.push (.report (.entered node.kind.label node.name)) } =
        (.ok (.value v), (Eval.compute args c t).2) := by
    rw [perform, hop]
    exact (Eval.bind_run_ok hgather).trans hcompute
  have hrun := (runNode_operation hretained hnode hkind).trans
    (runOperation_ok hmiss hperform (fire_unwatched (hgraph ▸ hwatched)))
  refine ⟨(Eval.compute args c t).2.recorded id (.value v), ?_, hgraph⟩
  refine (Eval.bind_run_ok hrun).trans ((Eval.settings_bind_run _).trans ?_)
  rw [force_value]
  rfl

theorem force_list_ensures (h : earlier.Sound idle c bound) (hid : id.index ≤ bound)
    {origin last : NodeId} {remaining : Nat} {items : List Output}
    (hspared : ∀ n ∈ (Output.list items).nodes, s.Spared idle id.index n) :
    (coherence idle (id.index + 1)).Ensures c s (earlier.force origin remaining last (.list items))
      (OnResult fun out t => ∀ n ∈ out.nodes, t.Spared idle id.index n) := by
  cases remaining <;> exact completeWith_spared h hid hspared

theorem force_ensures (h : earlier.Sound idle c bound) (hid : id.index ≤ bound)
    {origin last : NodeId} {remaining : Nat} {current : Output}
    (hspared : ∀ n ∈ current.nodes, s.Spared idle id.index n) :
    (coherence idle (id.index + 1)).Ensures c s (earlier.force origin remaining last current)
      (OnResult fun out t => ∀ n ∈ out.nodes, t.Spared idle id.index n) := by
  induction remaining generalizing last current s with
  | zero =>
    cases current with
    | value v => exact .pure fun _ => by simp
    | list items => exact force_list_ensures h hid hspared
    | node next =>
      refine .stays ?_
      split
      · exact .pure fun _ => hspared
      · refine .settings ?_
        refine Eval.node_ensures.bindResult fun node t _ hst _ => ?_
        refine (Eval.report_ensures rfl).bindResult fun _ u _ htu _ => ?_
        exact .pure fun _ n hn => htu.spared (hst.spared (hspared n hn))
  | succ remaining ih =>
    cases current with
    | value v => exact .pure fun _ => by simp
    | list items => exact force_list_ensures h hid hspared
    | node next =>
      refine .stays ?_
      split
      · exact .pure fun _ => hspared
      · rename_i hgoes
        simp only [not_or, Bool.not_eq_true] at hgoes
        -- The next node lies before `id`, so what is left of it does as well.
        have hlt := lt_of_spared (hspared next List.mem_cons_self) hgoes.2
        refine (coherence_mono (runNode_ensures h (by omega)) (by omega)).bind ?_
          fun _ _ _ _ _ => trivial
        intro out t ht _ hr
        exact ih fun n hn => .inl (Coherent.left_of_spared ht hlt (hr.spared n hn))

theorem completeNode_ensures (h : earlier.Sound idle c bound) (hid : id.index ≤ bound) :
    (coherence idle (id.index + 1)).Ensures c s (earlier.completeNode id)
      (OnResult (Rests idle id)) := by
  refine (runNode_ensures h hid).bindResult fun first t _ _ hfirst => ?_
  refine .settings ((force_ensures h hid hfirst.spared).conseq ?_)
  rintro (_ | out) u _ htu hr
  · trivial
  · exact ⟨hr, htu.atRest hfirst.rest⟩

theorem below_sound (idle : NodeId → Prop) (c : Settings) (bound : Nat) :
    (below bound).Sound idle c bound :=
  below_satisfies (fun _ h _ _ hid => ⟨runNode_ensures h hid, completeNode_ensures h hid⟩) bound

end Earlier

namespace Eval

variable {idle : NodeId → Prop} {c : Settings} {s : State}

theorem run_ensures (id : NodeId) : (coherence idle (id.index + 1)).Ensures c s (run id)
    (OnResult (Earlier.Rests idle id)) :=
  (Earlier.below_sound idle c (id.index + 1)).run id s (Nat.lt_succ_self _)

theorem complete_ensures (id : NodeId) : (coherence idle (id.index + 1)).Ensures c s (complete id)
    (OnResult (Earlier.Rests idle id)) :=
  (Earlier.below_sound idle c (id.index + 1)).complete id s (Nat.lt_succ_self _)

end Eval

end Dataflow
