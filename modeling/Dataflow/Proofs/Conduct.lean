import Dataflow.Proofs.Advance
import Dataflow.Proofs.Consulting
import Dataflow.Proofs.Stillness

/-!
# Conduct

What holds of every node that is evaluated is shown for all ways of evaluating a node at once. A
conduct says what holds of the states and what of a node that was evaluated with some outcome; its
laws are about what is done for a single node, given what has been done for the nodes that it refers
to.
-/

namespace Dataflow

open State

/-- What a node gives that needs no other node. -/
inductive State.LeafGives (s : State) (node : Node) : Except Failure Output → Prop
  | literal {v : Value} (hkind : node.kind = .literal v) : LeafGives s node (.ok (.value v))
  | uninitialized (hkind : node.kind = .variable none) :
      LeafGives s node (.error (.uninitializedVariable node.name))
  | initialized {v : Value} (hkind : node.kind = .variable (some v)) :
      LeafGives s node (.ok (.value v))
  | unbound (hkind : node.kind = .placeholder) (hbinding : s.context.binding? node.name = none) :
      LeafGives s node (.error (.missingPlaceholder node.name))
  | bound {v : Value} (hkind : node.kind = .placeholder)
      (hbinding : s.context.binding? node.name = some v) : LeafGives s node (.ok (.value v))

/-- Evaluating the node `id` completely, in the course of what led to the state `t`, came to `r`. -/
def State.Completed (c : Settings) (id : NodeId) (r : Except Failure Output) (t : State) : Prop :=
  ∃ s, Advances s t ∧ Eval.complete id c s = (r, t)

structure Conduct where
  inv : State → Prop
  /-- What holds of a node once it was evaluated with an outcome, in the state after that. -/
  gives : NodeId → Except Failure Output → State → Prop
  /-- What holds of a node that is left in a result. -/
  left : NodeId → State → Prop

namespace Conduct

def regime (K : Conduct) : Regime where
  inv s := Coherent (fun _ => True) s ∧ K.inv s
  step := Advances
  refl := Advances.refl
  trans := Advances.trans

/-- What holds of a node that was evaluated for an operation. -/
def operand (K : Conduct) (c : Settings) (id : NodeId) (r : Except Failure Output) (s : State) :
    Prop :=
  K.gives id r s ∧ s.Completed c id r

/-- The operation `o` of the node `id` has no result, and performing it has come to its last step
`y`. -/
structure Performing (K : Conduct) (c : Settings) (id : NodeId) (node : Node) (o : Operation)
    (s : State) (y : Eval Output) : Prop where
  coherent : Coherent (fun _ => True) s
  inv : K.inv s
  found : s.graph.node? id = some node
  kind : node.kind = .operation o
  active : s.context.isRetained id = false
  new : id ∉ s.memo.map Prod.fst
  last : LastStep K.regime (K.operand c) id o s y

namespace Performing

variable {K : Conduct} {c : Settings} {id : NodeId} {node : Node} {o : Operation} {s t : State}
variable {y : Eval Output} {r : Except Failure Output}

/-- What an operation changes, it changes in its last step. -/
theorem changes (h : K.Performing c id node o s y) (hrun : y c s = (r, t)) :
    Changes id o s r t := by
  have hchanges := h.last.changes (c := c) h.coherent.graph h.found
  rwa [hrun] at hchanges

theorem advances (h : K.Performing c id node o s y) (hrun : y c s = (r, t)) : Advances s t :=
  (h.changes hrun).advances h.coherent.graph

end Performing

/-- How a result may change later, as what is left in it is evaluated: the items of a list are, or
the node is that it consists of. -/
inductive Becomes (K : Conduct) (t : State) : Output → Output → Prop
  | same {out : Output} : Becomes K t out out
  | items {items items' : List Output} : Becomes K t (.list items) (.list items')
  | onward {n : NodeId} {out : Output} (h : K.gives n (.ok out) t) : Becomes K t (.node n) out

/-- What a conduct has to keep to. -/
structure Lawful (K : Conduct) (c : Settings) : Prop where
  alike : ∀ {s t}, Alike s t → K.inv s → K.inv t
  leaves : ∀ {id out s}, K.gives id (.ok out) s → ∀ n ∈ out.nodes, K.left n s
  lasts : ∀ {n s t}, Advances s t → K.left n s → K.left n t
  retained : ∀ {id s}, K.regime.inv s → s.context.isRetained id = true →
    K.gives id (.ok (.node id)) s
  missing : ∀ {id s}, K.regime.inv s → s.context.isRetained id = false →
    s.graph.node? id = none → K.gives id (.error (.noSuchNode id.index)) s
  leaf : ∀ {id node r s}, K.regime.inv s → s.context.isRetained id = false →
    s.graph.node? id = some node → LeafGives s node r → K.gives id r s
  reference : ∀ {id node target r s}, K.regime.inv s → s.context.isRetained id = false →
    s.graph.node? id = some node → node.kind = .reference target → K.gives target r s →
    K.gives id r s
  remembered : ∀ {id out s}, K.regime.inv s → (id, out) ∈ s.memo → K.gives id (.ok out) s
  failed : ∀ {id node o y s e t}, K.Performing c id node o s y → y c s = (.error e, t) →
    K.gives id (.error (t.graph.wrap id e)) t
  performed : ∀ {id node o y s out t}, K.Performing c id node o s y → y c s = (.ok out, t) →
    Coherent (fun _ => True) (t.recorded id out) →
    K.inv (t.recorded id out) ∧
      K.gives id (.ok out) (t.recorded id out)
  later : ∀ {id out out' s t}, K.gives id (.ok out) s → Advances s t → K.Becomes t out out' →
    (∀ n ∈ out'.nodes, K.left n t) → K.gives id (.ok out') t
  blocked : ∀ {id n e s t}, K.left n s → s.stays n = false → Advances s t →
    K.gives n (.error e) t → K.gives id (.error e) t

namespace Lawful

variable {K : Conduct} {c : Settings} {s t : State}

theorem keeps (laws : K.Lawful c) (h : Alike s t) (hs : K.regime.inv s) : K.regime.inv t :=
  ⟨h.coherent hs.1, laws.alike h hs.2⟩

theorem same (laws : K.Lawful c) {id : NodeId} {out : Output} (h : K.gives id (.ok out) s)
    (hst : Advances s t) : K.gives id (.ok out) t :=
  laws.later h hst .same fun n hn => laws.lasts hst (laws.leaves h n hn)

theorem report {α : Type} (laws : K.Lawful c) {r : Report} {k : Unit → Eval α}
    {Q : Except Failure α → State → Prop}
    (hk : K.regime.Ensures c { s with events := s.events.push (.report r) } (k ()) Q) :
    K.regime.Ensures c s (Eval.report r >>= k) Q :=
  .of_moved (y := k ()) rfl (fun hs => ⟨laws.keeps (.with_events s _) hs, .with_events s _⟩) hk

end Lawful

end Conduct

theorem State.Advances.stays {s t : State} (h : Advances s t) {id : NodeId}
    (hid : s.stays id = true) : t.stays id = true :=
  stays_iff.mpr ((stays_iff.mp hid).imp (h.symbolic ·) (h.isRetained id).trans)

/-- A list stays one when its items are completed. -/
theorem Output.exists_items_of_completeWith {complete : NodeId → Eval Output} {c : Settings}
    {s t : State} {items : List Output} {out : Output}
    (h : (Output.list items).completeWith complete c s = (.ok out, t)) :
    ∃ items', out = .list items' := by
  cases hitems : completeItemsWith complete items c s with
  | mk r u =>
    cases r with
    | ok items' =>
      cases (Eval.bind_run_ok hitems).symm.trans h
      exact ⟨items', rfl⟩
    | error e => cases (Eval.bind_run_error hitems).symm.trans h

namespace Earlier

/-- The nodes below `bound` are evaluated as the conduct says. -/
abbrev Conducted (earlier : Earlier) (K : Conduct) (c : Settings) (bound : Nat) : Prop :=
  earlier.Satisfies bound (fun id s x => K.regime.Ensures c s x (K.gives id))
    (fun id s x => K.regime.Ensures c s x (K.operand c id))

variable {earlier : Earlier} {K : Conduct} {c : Settings} {bound : Nat} {s t : State}
variable {id : NodeId} {node : Node} {o : Operation}

/-- If running a node succeeds, the node is retained or there. -/
theorem there_of_runNode {out : Output} (h : earlier.runNode id c s = (.ok out, t)) :
    out = .node id ∨ ∃ node, s.graph.node? id = some node := by
  unfold runNode at h
  rw [Eval.state_bind_run] at h
  split at h
  · exact .inl (by cases h; rfl)
  · cases hnode : s.graph.node? id with
    | none => cases (Eval.bind_run_error (Eval.node_run_none hnode)).symm.trans h
    | some node => exact .inr ⟨node, rfl⟩

/-- A node that is left in a result is completed, if it lies far enough back. -/
theorem completesTo_conducted (h : earlier.Conducted K c bound) {n : NodeId}
    (hn : s.Spared (fun _ => True) bound n) :
    Output.CompletesTo K.regime c earlier.complete (fun _ _ => True) s n := by
  intro t _ hst
  split
  · trivial
  · rename_i hstays
    have hlt := lt_of_spared hn (by simpa using mt hst.stays hstays)
    refine (h.complete n t hlt).conseq ?_
    rintro (_ | _) _ _ _ _ <;> simp

section Laws

variable (laws : K.Lawful c) (h : earlier.Conducted K c bound)
variable (hsound : earlier.Sound (fun _ => True) c bound) (hid : id.index ≤ bound)

include laws h hid

theorem force_list_conducted {last : NodeId} {remaining : Nat} {items : List Output}
    (hgives : K.gives id (.ok (.list items)) s)
    (hspared : ∀ n ∈ (Output.list items).nodes, s.Spared (fun _ => True) id.index n) :
    K.regime.Ensures c s (earlier.force id remaining last (.list items)) (K.gives id) := by
  rw [force_list]
  refine (Output.completeWith_outcome (K := K.left)
    (E := fun e u => K.gives id (.error e) u) (fun _ _ _ => laws.lasts) (.list items) s
    fun n hn t _ hst => ?_).run.conseq ?_
  · have hleft := laws.lasts hst (laws.leaves hgives n hn)
    split
    · exact hleft
    · rename_i hstays
      have hlt := lt_of_spared (hspared n hn) (by simpa using mt hst.stays hstays)
      refine (h.complete n t (Nat.lt_of_lt_of_le hlt hid)).conseq ?_
      rintro (e | out) u _ htu ⟨hout, -⟩
      · exact laws.blocked hleft (by simpa using hstays) htu hout
      · exact laws.leaves hout
  · rintro (e | out) t ht hst ⟨hout, hrun⟩
    · exact hout
    · obtain ⟨items', rfl⟩ := Output.exists_items_of_completeWith hrun
      exact laws.later hgives hst .items hout

include hsound

theorem runOperation_conducted (hnode : s.graph.node? id = some node)
    (hkind : node.kind = .operation o) (hactive : s.context.isRetained id = false)
    {name : String} :
    K.regime.Ensures c s (earlier.runOperation id name (.operation o)) (K.gives id) := by
  intro hs
  have hids := hs.1.graph.lt_of_operation hnode hkind
  have h := h.mono hid
  cases hlookup : s.memo.lookup id with
  | some known =>
    rw [runOperation_hit hlookup]
    have ht := laws.keeps (.with_events s (s.events.push (.report (.remembered name)))) hs
    exact ⟨ht, .with_events s _, laws.remembered ht (mem_of_lookup hlookup)⟩
  | none =>
    -- The operands lead to a last step, which decides on the outcome.
    obtain ⟨t, y, ht, hst, hlast, hrun⟩ := perform_leads (R := K.regime) (P := K.operand c)
      (fun r hr t => h.complete r t (hids r hr)) (fun t hst => hst.exists_node? ⟨node, hnode⟩) hs
    have hnode' := hst.graph.operation hnode hkind
    have hchanges := hlast.changes (c := c) ht.1.graph hnode'
    cases hy : y c t with
    | mk r u =>
      rw [hy] at hchanges
      have hperform := hrun.trans hy
      have htu := hchanges.advances ht.1.graph
      obtain ⟨hnew, hok⟩ := perform_ends (hsound.mono hid) hs.1 hnode hkind hlookup hperform
      have hperforming : K.Performing c id node o t y :=
        ⟨ht.1, ht.2, hnode', hkind, (hst.isRetained id).trans hactive, hchanges.memo ▸ hnew, hlast⟩
      cases r with
      | error e =>
        rw [runOperation_error hlookup hperform]
        exact ⟨laws.keeps hchanges.alike_of_error ht, hst.trans htu, laws.failed hperforming hy⟩
      | ok out =>
        obtain ⟨hcoherent, hleft⟩ := hok out rfl
        obtain ⟨hinv, hgives⟩ := laws.performed hperforming hy hcoherent
        -- The breakpoint completes operands and what is left in the result.
        have hfire : K.regime.Ensures c (u.recorded id out)
            (earlier.fire id o out) fun r _ => r = .ok () :=
          fire_keeps
            (fun t events ht => ⟨laws.keeps (.with_events t events) ht, .with_events t events⟩)
            (fun _ i _ input hinput t _ _ =>
              (h.complete input t (hids input (Operation.mem_references_of_operand hinput))).conseq
                fun _ _ _ _ _ => trivial)
            fun n hn => completesTo_conducted h (.inl (hleft n hn))
        obtain ⟨hv, huv, hfired⟩ := hfire ⟨hcoherent, hinv⟩
        rw [runOperation_ok hlookup hperform (Prod.ext hfired rfl)]
        exact ⟨hv, hst.trans (htu.trans ((Advances.remember u id out).trans huv)),
          laws.same hgives huv⟩

theorem runNode_conducted : K.regime.Ensures c s (earlier.runNode id) (K.gives id) := by
  refine .state ?_
  split
  · rename_i hretained
    exact .pure fun hs => laws.retained hs hretained
  · rename_i hretained
    have hactive : s.context.isRetained id = false := by simpa using hretained
    cases hnode : s.graph.node? id with
    | none =>
      exact .of_eq (Eval.bind_run_error (Eval.node_run_none hnode))
        (.fail fun hs => laws.missing hs hactive hnode)
    | some node =>
      -- A leaf ends as its kind says, and any other node as the one does that it refers to.
      refine .of_eq (Eval.bind_run_ok (Eval.node_run_some hnode)) (laws.report ?_)
      split
      · rename_i hkind
        exact .pure fun hs => laws.leaf hs hactive hnode (.literal hkind)
      · rename_i target hkind
        refine .of_inv fun hs => ?_
        have hlt := hs.1.graph.lt_of_reference hnode hkind
        refine (h.run target _ (Nat.lt_of_lt_of_le hlt hid)).conseq fun r t ht hst hr => ?_
        have hnode' := hst.graph.eq_of_not_leaf hnode (by simp [hkind, NodeKind.isLeaf])
        exact laws.reference ht ((hst.isRetained id).trans hactive) hnode' hkind hr
      · rename_i hkind
        exact .fail fun hs => laws.leaf hs hactive hnode (.uninitialized hkind)
      · rename_i hkind
        have hread : ∀ events, Advances { s with events }
            { s with events, context := s.context.recordRead id } :=
          fun _ => .recordRead ⟨node, _, hnode, hkind⟩
        refine .of_moved (y := pure _) rfl
          (fun hs => ⟨laws.keeps (.recordRead _ id) hs, hread _⟩) (.pure fun hs => ?_)
        exact laws.leaf hs (((hread _).isRetained id).trans hactive) hnode (.initialized hkind)
      · rename_i hkind
        refine .state ?_
        split
        · rename_i hbinding
          exact .pure fun hs => laws.leaf hs hactive hnode (.bound hkind hbinding)
        · rename_i hbinding
          exact .fail fun hs => laws.leaf hs hactive hnode (.unbound hkind hbinding)
      · rename_i hkind
        refine runOperation_conducted laws h hsound hid ?_ hkind ?_
        · exact hnode
        · exact hactive

/-- Going on from a result of the node keeps to what holds of its results. -/
theorem force_conducted {last : NodeId} {remaining : Nat} {current : Output}
    (hthere : current = .node last ∨ ∃ node, s.graph.node? id = some node)
    (hgives : K.gives id (.ok current) s)
    (hspared : ∀ n ∈ current.nodes, s.Spared (fun _ => True) id.index n) :
    K.regime.Ensures c s (earlier.force id remaining last current) (K.gives id) := by
  induction remaining generalizing last current s with
  | zero =>
    cases current with
    | value v => exact .pure fun _ => hgives
    | list items => exact force_list_conducted laws h hid hgives hspared
    | node next =>
      refine .stays ?_
      split
      · exact .pure fun _ => hgives
      · rename_i hgoes
        obtain ⟨node, hnode⟩ := hthere.resolve_left fun heq => hgoes (.inl (by simpa using heq))
        refine .settings (.of_eq (Eval.bind_run_ok (Eval.node_run_some hnode)) ?_)
        exact laws.report (.pure fun _ => laws.same hgives (.with_events s _))
  | succ remaining ih =>
    cases current with
    | value v => exact .pure fun _ => hgives
    | list items => exact force_list_conducted laws h hid hgives hspared
    | node next =>
      refine .stays ?_
      split
      · exact .pure fun _ => hgives
      · rename_i hgoes
        simp only [not_or, Bool.not_eq_true] at hgoes
        have hthere := hthere.resolve_left fun heq => hgoes.1 (by simpa using heq)
        -- The next node lies before `id`, so what is left of it does as well.
        have hlt := lt_of_spared (hspared next List.mem_cons_self) hgoes.2
        have hleft := laws.leaves hgives next List.mem_cons_self
        have hle : next.index ≤ bound := by omega
        refine ((runNode_conducted laws h hsound hle).and (runNode_ensures hsound hle)
          And.left).bind (fun out t ht hst hout => ?_) fun e t _ hst he =>
            laws.blocked hleft hgoes.2 hst he.1
        exact ih (.inr (hst.exists_node? hthere))
          (laws.later hgives hst (.onward hout.1) (laws.leaves hout.1))
          fun n hn => .inl (Coherent.left_of_spared ht.1 hlt (hout.2.spared n hn))

theorem completeNode_conducted : K.regime.Ensures c s (earlier.completeNode id) (K.gives id) := by
  refine ((runNode_conducted laws h hsound hid).and (runNode_ensures hsound hid) And.left).run.bind
    (fun first t _ hst hfirst => .settings ?_) fun e t _ _ he => he.1.1
  obtain ⟨⟨hgives, hrests⟩, hrun⟩ := hfirst
  have hthere := (there_of_runNode hrun).imp_right hst.exists_node?
  exact force_conducted laws h hsound hid hthere hgives hrests.spared

end Laws

theorem below_conducted (laws : K.Lawful c) (bound : Nat) : (below bound).Conducted K c bound := by
  refine below_satisfies (fun bound h id s hid => ⟨?_, fun hs => ?_⟩) bound
  · exact runNode_conducted laws h (below_sound _ c bound) hid
  · obtain ⟨ht, hst, hgives⟩ :=
      completeNode_conducted laws h (below_sound _ c bound) hid hs
    have hrun : Eval.complete id c s = (below bound).completeNode id c s :=
      (complete_below hs.1 (Nat.lt_succ_of_le hid)).symm
    exact ⟨ht, hst, hgives, s, hst, hrun⟩

end Earlier

namespace Eval

variable {K : Conduct} {c : Settings} {s : State}

theorem run_conducted (laws : K.Lawful c) (id : NodeId) :
    K.regime.Ensures c s (run id) (K.gives id) :=
  (Earlier.below_conducted laws (id.index + 1)).run id s (Nat.lt_succ_self _)

theorem complete_conducted (laws : K.Lawful c) (id : NodeId) :
    K.regime.Ensures c s (complete id) (K.gives id) :=
  ((Earlier.below_conducted laws (id.index + 1)).complete id s (Nat.lt_succ_self _)).conseq
    fun _ _ _ _ h => h.1

end Eval

namespace Conduct.Lawful

variable {K : Conduct} {c : Settings} {s : State}

theorem call (laws : K.Lawful c) (call : Call) :
    K.regime.Ensures c s call.eval (OnResult fun _ _ => True) := by
  refine call.eval_ensures (fun id _ t => (Eval.run_conducted laws id).conseq ?_)
    (fun id _ t => (Eval.complete_conducted laws id).conseq ?_) s
  all_goals
    rintro (_ | _) _ _ _ _ <;> trivial

/-- Induction on the calls of the session, if what holds of the states does not depend on the
context. -/
theorem after (laws : K.Lawful c) (hcontext : ∀ s context, K.inv s → K.inv { s with context })
    (session : Session) (hs : K.regime.inv s) : K.regime.inv (s.after c session) := by
  induction session generalizing s with
  | nil => exact hs
  | cons first rest ih =>
    obtain ⟨context, call⟩ := first
    exact ih (laws.call call ⟨hs.1.with_context context, hcontext s context hs.2⟩).1

end Conduct.Lawful

end Dataflow
