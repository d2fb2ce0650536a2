import Dataflow.Proofs.Preservation

/-!
# Evaluating what is known

Evaluating a node at rest once more only looks up what is known: the graph, the results and the
generator stay as they are. A breakpoint does nothing of its own beside a report, so it keeps to
whatever evaluating the operands that it shows keeps to.
-/

namespace Dataflow

open State

namespace State

/-- At most reports and the reads of the context are new. -/
structure Still (s t : State) : Prop where
  graph : t.graph = s.graph
  memo : t.memo = s.memo
  performed : t.performed = s.performed
  symbolic : t.symbolic = s.symbolic
  rng : t.rng = s.rng
  bindings : t.context.bindings = s.context.bindings
  retained : t.context.retained = s.context.retained

namespace Still

variable {idle : NodeId → Prop} {bound : Nat} {s t u : State} {id : NodeId}

theorem refl (s : State) : Still s s := ⟨rfl, rfl, rfl, rfl, rfl, rfl, rfl⟩

theorem trans (h : Still s t) (h' : Still t u) : Still s u where
  graph := h'.graph.trans h.graph
  memo := h'.memo.trans h.memo
  performed := h'.performed.trans h.performed
  symbolic := h'.symbolic.trans h.symbolic
  rng := h'.rng.trans h.rng
  bindings := h'.bindings.trans h.bindings
  retained := h'.retained.trans h.retained

theorem with_events (s : State) (events : Array Event) : Still s { s with events } :=
  ⟨rfl, rfl, rfl, rfl, rfl, rfl, rfl⟩

theorem recordRead (s : State) (id : NodeId) :
    Still s { s with context := s.context.recordRead id } where
  graph := rfl
  memo := rfl
  performed := rfl
  symbolic := rfl
  rng := rfl
  bindings := by unfold Context.recordRead; split <;> rfl
  retained := by unfold Context.recordRead; split <;> rfl

theorem atRest (h : Still s t) (hid : AtRest idle s.graph s.memo id) :
    AtRest idle t.graph t.memo id := by
  rw [h.graph, h.memo]
  exact hid

theorem left (h : Still s t) (hid : s.Left idle bound id) : t.Left idle bound id := by
  simpa [Left, h.graph, h.memo, h.symbolic] using hid

theorem spared (h : Still s t) (hid : s.Spared idle bound id) : t.Spared idle bound id :=
  hid.imp h.left fun ⟨hle, hretained⟩ =>
    ⟨hle, by simpa [Context.isRetained, h.retained] using hretained⟩

theorem coherent (h : Still s t) (hs : Coherent idle s) : Coherent idle t where
  graph := h.graph ▸ hs.graph
  once := h.memo ▸ hs.once
  operations := by simpa [h.memo, h.graph] using hs.operations
  left id result hmem n hn := h.left (hs.left id result (h.memo ▸ hmem) n hn)
  symbolic := by simpa [h.symbolic, h.graph] using hs.symbolic
  retained := by simpa [Context.isRetained, h.retained] using hs.retained
  performed := h.performed.trans (hs.performed.trans h.memo.symm)

end Still

/-- A coherent state in which exactly the retained nodes are idle. -/
structure Exact (idle : NodeId → Prop) (s : State) : Prop extends Coherent idle s where
  idle : ∀ id, idle id → s.context.isRetained id = true

theorem Exact.of_retained {idle : NodeId → Prop} {s t : State} (hs : Exact idle s)
    (ht : Coherent idle t) (h : t.context.retained = s.context.retained) : Exact idle t :=
  { ht with idle := fun id hid => by simpa [Context.isRetained, h] using hs.idle id hid }

/-- The regime of looking things up. -/
def stillness (idle : NodeId → Prop) : Regime where
  inv := Exact idle
  step := Still
  refl := Still.refl
  trans := Still.trans

/-- A node that may be left in a result is at rest if it does not stay as it is. -/
theorem Spared.rest {idle : NodeId → Prop} {bound : Nat} {s : State} {id : NodeId}
    (h : s.Spared idle bound id) (hstays : s.stays id = false) :
    id.index < bound ∧ AtRest idle s.graph s.memo id := by
  simp only [stays, Bool.or_eq_false_iff] at hstays
  rcases h with (hsymbolic | hrest) | ⟨-, hretained⟩
  · simp [isSymbolic, hsymbolic] at hstays
  · exact hrest
  · simp [hretained] at hstays

end State

namespace Earlier

/-- The nodes below `bound` are looked up if they are at rest. -/
abbrev Resting (earlier : Earlier) (idle : NodeId → Prop) (c : Settings) (bound : Nat) : Prop :=
  earlier.Satisfies bound
    (fun id s x => AtRest idle s.graph s.memo id → (stillness idle).Ensures c s x fun _ _ => True)
    (fun id s x => AtRest idle s.graph s.memo id → (stillness idle).Ensures c s x fun _ _ => True)

variable {earlier : Earlier} {idle : NodeId → Prop} {c : Settings} {bound bound' : Nat}
variable {s t : State} {id : NodeId} {node : Node} {o : Operation}

theorem stillness_of_still {α : Type} {x : Eval α}
    (h : (stillness idle).inv s → Still s (x c s).2) :
    (stillness idle).Ensures c s x fun _ _ => True := by
  intro hs
  have hstill := h hs
  exact ⟨hs.of_retained (hstill.coherent hs.toCoherent) hstill.retained, hstill, trivial⟩

theorem report_still {r : Report} :
    (stillness idle).Ensures c s (Eval.report r) fun _ _ => True :=
  stillness_of_still fun _ => .with_events s _

theorem node_still : (stillness idle).Ensures c s (Eval.node id) fun _ _ => True :=
  stillness_of_still fun _ => by rw [Eval.node_run]; exact .refl s

/-! ## Nodes -/

theorem runOperation_still {name : String} {known : Output} (h : s.memo.lookup id = some known) :
    (stillness idle).Ensures c s (earlier.runOperation id name (.operation o)) fun _ _ => True := by
  refine stillness_of_still fun _ => ?_
  rw [runOperation_hit h]
  exact .with_events s _

theorem runNode_still (h : earlier.Resting idle c bound) (hid : id.index ≤ bound)
    (hrest : AtRest idle s.graph s.memo id) :
    (stillness idle).Ensures c s (earlier.runNode id) fun _ _ => True := by
  refine .state ?_
  split
  · exact .pure fun _ => trivial
  · rename_i hretained
    refine .of_inv fun hs => ?_
    -- Entering the node is reported, and what follows depends on the way in which it is at rest.
    have henter : ∀ {n : Node}, s.graph.node? id = some n → ∀ {k : Node → Eval Output},
        (∀ t, Still s t → (stillness idle).Ensures c t (k n) fun _ _ => True) →
        (stillness idle).Ensures c s (do
          let node ← Eval.node id
          Eval.report (.entered node.kind.label node.name)
          k node) fun _ _ => True := by
      intro n hn k hk
      refine .of_eq (Eval.bind_run_ok (Eval.node_run_some hn)) ?_
      exact report_still.bind (fun _ t _ hst _ => hk t hst) fun _ _ _ _ _ => trivial
    cases hrest with
    | idle hidle => exact absurd (hs.idle id hidle) hretained
    | leaf hnode hleaf =>
      refine henter hnode fun t hst => ?_
      split
      · exact .pure fun _ => trivial
      · rename_i hkind
        simp [hkind, NodeKind.isLeaf] at hleaf
      · exact .fail fun _ => trivial
      · refine Regime.Ensures.bind (P := fun _ _ => True) ?_
          (fun _ _ _ _ _ => .pure fun _ => trivial) fun _ _ _ _ _ => trivial
        exact stillness_of_still fun _ => .recordRead t id
      · refine .state ?_
        split
        · exact .pure fun _ => trivial
        · exact .fail fun _ => trivial
      · rename_i hkind
        simp [hkind, NodeKind.isLeaf] at hleaf
    | reference hnode hkind htarget =>
      refine henter hnode fun t hst => ?_
      rename_i target node
      have hlt := hs.graph.lt_of_reference hnode hkind
      rw [hkind]
      exact h.run target t (Nat.lt_of_lt_of_le hlt hid) (hst.atRest htarget)
    | operation hmem =>
      obtain ⟨node, o, hnode, hkind⟩ := hs.operations id _ hmem
      refine henter hnode fun t hst => ?_
      rw [hkind]
      exact runOperation_still (hst.memo ▸ lookup_of_mem hs.once hmem)

theorem force_list_still (h : earlier.Resting idle c bound) (hid : id.index ≤ bound)
    {origin last : NodeId} {remaining : Nat} {items : List Output}
    (hspared : ∀ n ∈ (Output.list items).nodes, s.Spared idle id.index n) :
    (stillness idle).Ensures c s (earlier.force origin remaining last (.list items))
      fun _ _ => True := by
  have hcompletes : ∀ n ∈ (Output.list items).nodes, Output.CompletesTo (stillness idle) c
      earlier.complete (fun _ _ => True) s n := by
    intro n hn t _ hst
    split
    · trivial
    · rename_i hstays
      obtain ⟨hlt, hrest⟩ := (hst.spared (hspared n hn)).rest (by simpa using hstays)
      apply (h.complete n t (Nat.lt_of_lt_of_le hlt hid) hrest).conseq
      rintro (_ | _) _ _ _ _ <;> simp
  cases remaining <;>
    exact (Output.completeWith_ensures (K := fun _ _ => True) (fun _ _ _ _ _ => trivial)
      (.list items) s hcompletes).conseq fun _ _ _ _ _ => trivial

theorem force_still (h : earlier.Resting idle c bound) (hsound : earlier.Sound idle c bound)
    (hid : id.index ≤ bound) {origin last : NodeId} {remaining : Nat} {current : Output}
    (hspared : ∀ n ∈ current.nodes, s.Spared idle id.index n) :
    (stillness idle).Ensures c s (earlier.force origin remaining last current)
      fun _ _ => True := by
  -- However many turns are left, each of them is at a node at rest.
  induction remaining generalizing last current s with
  | zero =>
    cases current with
    | value v => exact .pure fun _ => trivial
    | list items => exact force_list_still h hid hspared
    | node next =>
      refine .stays ?_
      split
      · exact .pure fun _ => trivial
      · refine .settings (node_still.bind (fun node t _ _ _ => ?_) fun _ _ _ _ _ => trivial)
        exact report_still.bind (fun _ _ _ _ _ => .pure fun _ => trivial) fun _ _ _ _ _ => trivial
  | succ remaining ih =>
    cases current with
    | value v => exact .pure fun _ => trivial
    | list items => exact force_list_still h hid hspared
    | node next =>
      refine .stays ?_
      split
      · exact .pure fun _ => trivial
      · rename_i hgoes
        obtain ⟨hlt, hrest⟩ := (hspared next List.mem_cons_self).rest
          (by simpa using (not_or.mp hgoes).2)
        have hle : next.index ≤ bound := by omega
        refine ((runNode_still h hle hrest).and (runNode_ensures hsound hle) Exact.toCoherent).bind
          (fun out t ht _ hout => ?_) fun _ _ _ _ _ => trivial
        exact ih fun n hn => .inl (Coherent.left_of_spared ht.toCoherent hlt (hout.2.spared n hn))

theorem completeNode_still (h : earlier.Resting idle c bound) (hsound : earlier.Sound idle c bound)
    (hid : id.index ≤ bound) (hrest : AtRest idle s.graph s.memo id) :
    (stillness idle).Ensures c s (earlier.completeNode id) fun _ _ => True := by
  refine ((runNode_still h hid hrest).and (runNode_ensures hsound hid) Exact.toCoherent).bind
    (fun first t _ _ hfirst => ?_) fun _ _ _ _ _ => trivial
  exact .settings (force_still h hsound hid hfirst.2.spared)

theorem below_resting (idle : NodeId → Prop) (c : Settings) (bound : Nat) :
    (below bound).Resting idle c bound :=
  below_satisfies (fun bound h _ _ hid =>
    ⟨runNode_still h hid, completeNode_still h (below_sound idle c bound) hid⟩) bound

/-! ## Breakpoints -/

section Regimes

variable {R : Regime}

/-- What a breakpoint evaluates of the operand at position `i` keeps to a regime if evaluating the
operand of a kernel does. -/
theorem observe_keeps {i : Nat}
    (hoperand : o.op.isControl = false → ∀ input, o.operands[i]? = some input →
      R.Ensures c s (earlier.complete input) fun _ _ => True) :
    R.Ensures c s (earlier.observe o i) fun r _ => ∃ shown, r = .ok shown := by
  unfold observe
  split
  · exact .pure fun _ => ⟨_, rfl⟩
  · rename_i input hinput
    split
    · refine .state ?_
      split <;> exact .pure fun _ => ⟨_, rfl⟩
    · rename_i hcontrol
      refine (hoperand (by simpa using hcontrol) input hinput).attempt.bind (fun r t _ _ _ => ?_)
        (by rintro _ _ _ _ ⟨_, habsurd, _⟩; cases habsurd)
      cases r <;> exact .pure fun _ => ⟨_, rfl⟩

/-- A breakpoint does not fail, and keeps to a regime if evaluating the first two operands of a
kernel and completing the result do. -/
theorem fire_keeps {result : Output}
    (hemit : ∀ t events, R.inv t → R.inv { t with events } ∧ R.step t { t with events })
    (hoperands : o.op.isControl = false → ∀ i < 2, ∀ input, o.operands[i]? = some input →
      ∀ t, R.inv t → R.step s t → R.Ensures c t (earlier.complete input) fun _ _ => True)
    (hresult : ∀ n ∈ result.nodes,
      Output.CompletesTo R c earlier.complete (fun _ _ => True) s n) :
    R.Ensures c s (earlier.fire id o result) fun r _ => r = .ok () := by
  refine .of_inv fun hs => .state ?_
  split
  · exact .pure fun _ => rfl
  · split
    · refine (observe_keeps fun hcontrol input hinput =>
        hoperands hcontrol 0 (by decide) input hinput s hs (R.refl s)).bind (fun a t ht hst _ => ?_)
        (by rintro _ _ _ _ ⟨_, habsurd⟩; cases habsurd)
      refine (observe_keeps fun hcontrol input hinput =>
        hoperands hcontrol 1 (by decide) input hinput t ht hst).bind (fun b u _ htu _ => ?_)
        (by rintro _ _ _ _ ⟨_, habsurd⟩; cases habsurd)
      refine (Output.completeWith_ensures (fun _ _ _ _ _ => trivial) result u
        fun n hn => (hresult n hn).later (R.trans hst htu)).attempt.bind (fun shown v _ _ _ => ?_)
        (by rintro _ _ _ _ ⟨_, habsurd, _⟩; cases habsurd)
      exact fun hv => ⟨(hemit v _ hv).1, (hemit v _ hv).2, rfl⟩
    · exact .pure fun _ => rfl

end Regimes

/-- What is left in a result needs to be looked up only. -/
theorem completesTo_of_left (h : earlier.Resting idle c bound) {n : NodeId}
    (hn : s.Left idle bound n) :
    Output.CompletesTo (stillness idle) c earlier.complete (fun _ _ => True) s n := by
  intro t _ hst
  split
  · trivial
  · rename_i hstays
    obtain ⟨hlt, hrest⟩ := Spared.rest (.inl (hst.left hn)) (by simpa using hstays)
    apply (h.complete n t hlt hrest).conseq
    rintro (_ | _) _ _ _ _ <;> simp

end Earlier

end Dataflow
