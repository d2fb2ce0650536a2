import Dataflow.Proofs.Session

/-!
# The calls of an evaluation

Every function of an evaluation calls others on other nodes, and may go on in a loop. One pass
through its body is a function of the answers to these calls, and consults finitely many of them.
What it consults are nodes before the node that it is about, so that it does not matter below which
bound the nodes are evaluated.
-/

namespace Dataflow

open State

/-! ## Calls -/

/-- A recursive call of an evaluation, or another turn of the loop that completes a node. -/
inductive Request where
  | run (id : NodeId)
  | complete (id : NodeId)
  | output (o : Output)
  | force (origin : NodeId) (remaining : Nat) (last : NodeId) (current : Output)

abbrev Replies := Request → Eval Output

/-- The nodes are evaluated as the answers to calls say. -/
def Earlier.asking (answer : Replies) : Earlier where
  run id := answer (.run id)
  complete id := answer (.complete id)

namespace Request

/-- One pass through the body of a call. Each call in it, and each further turn of a loop, is left
to the answers, whichever node it is about. -/
def once (answer : Replies) : Request → Eval Output
  | .run id => (Earlier.asking answer).runNode id
  | .complete id => do
    let first ← answer (.run id)
    answer (.force id ((← Eval.settings).maxIterations - 1) id first)
  | .output o => o.completeWith fun id => answer (.complete id)
  | .force origin remaining last (.node next) => do
    if next = last ∨ (← Eval.stays next) then return .node next
    match remaining with
    | 0 =>
      let steps := max (← Eval.settings).maxIterations 1
      Eval.report (.stoppedForcing (← Eval.node origin).name steps)
      return .node next
    | remaining + 1 => answer (.force origin remaining next (← answer (.run next)))
  | .force _ _ _ current => current.completeWith fun id => answer (.complete id)

/-- What the evaluator answers. -/
def eval : Replies
  | .run id => Eval.run id
  | .complete id => Eval.complete id
  | .output o => Eval.completeOutput o
  | .force origin remaining last current =>
    (Earlier.below origin.index).force origin remaining last current

/-- A call in a coherent state about a node below `bound`. -/
def Before (idle : NodeId → Prop) (bound : Nat) (q : Request) (s : State) : Prop :=
  Coherent idle s ∧
    match q with
    | .run id | .complete id => id.index < bound
    | .output _ | .force .. => False

theorem Before.mono {idle : NodeId → Prop} {bound bound' : Nat} {q : Request} {s : State}
    (h : q.Before idle bound s) (hle : bound ≤ bound') : q.Before idle bound' s := by
  obtain ⟨hs, hq⟩ := h
  refine ⟨hs, ?_⟩
  cases q with
  | run id | complete id => exact Nat.lt_of_lt_of_le hq hle
  | output o | force origin remaining last current => exact hq

end Request

/-! ## Consulting -/

/-- Performed from the state `s`, the computation comes to the same whatever is answered to calls
other than the given ones. -/
def ReliesOn {α : Type} (c : Settings) (s : State) (calls : List (Request × State))
    (answer : Replies) (x : Replies → Eval α) : Prop :=
  ∀ answer' : Replies, (∀ call ∈ calls, answer' call.1 c call.2 = answer call.1 c call.2) →
    x answer' c s = x answer c s

/-- Answered by the evaluator, the computation relies on finitely many calls, for all of which `P`
holds. -/
def Consults {α : Type} (c : Settings) (P : Request → State → Prop) (s : State)
    (x : Replies → Eval α) : Prop :=
  ∃ calls : List (Request × State), (∀ call ∈ calls, P call.1 call.2) ∧
    ReliesOn c s calls Request.eval x

namespace Consults

variable {α β : Type} {c : Settings} {P Q : Request → State → Prop} {s : State}
variable {x : Replies → Eval α}

theorem const (h : ∀ answer, x answer c s = x Request.eval c s := by exact fun _ => rfl) :
    Consults c P s x :=
  ⟨[], by simp, fun answer _ => h answer⟩

theorem ask {q : Request} (h : P q s) : Consults c P s fun answer => answer q :=
  ⟨[(q, s)], by simpa using h, fun answer hanswer => hanswer (q, s) List.mem_cons_self⟩

/-- Whoever answers the calls as the evaluator does gets the same as the evaluator. -/
theorem congr (hx : Consults c P s x) {answer : Replies}
    (h : ∀ q t, P q t → answer q c t = q.eval c t) : x answer c s = x Request.eval c s := by
  obtain ⟨calls, hcalls, hx⟩ := hx
  exact hx answer fun call hcall => h _ _ (hcalls call hcall)

theorem mono (hx : Consults c P s x) (h : ∀ q t, P q t → Q q t) : Consults c Q s x := by
  obtain ⟨calls, hcalls, hx⟩ := hx
  exact ⟨calls, fun call hcall => h _ _ (hcalls call hcall), hx⟩

theorem state {f : Replies → State → Eval α} (h : Consults c P s fun answer => f answer s) :
    Consults c P s fun answer => Eval.state >>= f answer :=
  h

theorem stays {id : NodeId} {f : Replies → Bool → Eval α}
    (h : Consults c P s fun answer => f answer (s.stays id)) :
    Consults c P s fun answer => Eval.stays id >>= f answer :=
  h

theorem settings {f : Replies → Settings → Eval α} (h : Consults c P s fun answer => f answer c) :
    Consults c P s fun answer => Eval.settings >>= f answer :=
  h

theorem modify {change : State → State} {f : Replies → Unit → Eval α}
    (h : Consults c P (change s) fun answer => f answer ()) :
    Consults c P s fun answer => Eval.modify change >>= f answer :=
  h

/-- The rest of a sequence is performed in the state that the evaluator's answers lead to. -/
theorem bind {f : Replies → α → Eval β} (hx : Consults c P s x)
    (hf : ∀ a t, x Request.eval c s = (.ok a, t) → Consults c P t fun answer => f answer a) :
    Consults c P s fun answer => x answer >>= f answer := by
  obtain ⟨calls, hcalls, hx⟩ := hx
  cases hrun : x Request.eval c s with
  | mk r t =>
    cases r with
    | error e =>
      refine ⟨calls, hcalls, fun answer hanswer => ?_⟩
      have hrun' := (hx answer hanswer).trans hrun
      exact (Eval.bind_run_error hrun').trans (Eval.bind_run_error hrun).symm
    | ok a =>
      obtain ⟨calls', hcalls', hf⟩ := hf a t hrun
      refine ⟨calls ++ calls', fun call hcall => ?_, fun answer hanswer => ?_⟩
      · exact (List.mem_append.mp hcall).elim (hcalls call) (hcalls' call)
      · have hrun' :=
          (hx answer fun call hcall => hanswer call (List.mem_append_left _ hcall)).trans hrun
        have hrest := hf answer fun call hcall => hanswer call (List.mem_append_right _ hcall)
        exact (Eval.bind_run_ok hrun').trans (hrest.trans (Eval.bind_run_ok hrun).symm)

/-- As `bind`, where the beginning keeps to a regime. -/
theorem bindEnsures {R : Regime} {f : Replies → α → Eval β} {F : Except Failure α → State → Prop}
    (hs : R.inv s) (hx : Consults c P s x) (hensures : R.Ensures c s (x Request.eval) F)
    (hf : ∀ a t, R.inv t → R.step s t → F (.ok a) t → Consults c P t fun answer => f answer a) :
    Consults c P s fun answer => x answer >>= f answer := by
  refine hx.bind fun a t hrun => ?_
  obtain ⟨hinv, hstep, hF⟩ := hensures hs
  rw [hrun] at hinv hstep hF
  exact hf a t hinv hstep hF

/-- An attempt does not end a sequence. -/
theorem attempt {f : Replies → Except Failure α → Eval β} (hx : Consults c P s x)
    (hf : ∀ r t, x Request.eval c s = (r, t) → Consults c P t fun answer => f answer r) :
    Consults c P s fun answer => (x answer).attempt >>= f answer := by
  have hattempt : Consults c P s fun answer => (x answer).attempt := by
    obtain ⟨calls, hcalls, hx⟩ := hx
    refine ⟨calls, hcalls, fun answer hanswer => ?_⟩
    simp only [Eval.attempt_run, hx answer hanswer]
  refine hattempt.bind fun r t hrun => hf r t ?_
  rw [Eval.attempt_run] at hrun
  cases hrun
  rfl

end Consults

namespace Earlier

variable {idle : NodeId → Prop} {c : Settings} {bound : Nat} {s : State}
variable {id : NodeId} {node : Node} {o : Operation}

theorem asking_sound : (asking Request.eval).Sound idle c bound :=
  ⟨fun id _ _ => Eval.run_ensures id, fun id _ _ => Eval.complete_ensures id⟩

/-! ## Operands -/

theorem complete_consults (hs : Coherent idle s) (hid : id.index < bound) :
    Consults c (Request.Before idle bound) s fun answer => (asking answer).complete id :=
  .ask ⟨hs, hid⟩

theorem resolve_consults (hs : Coherent idle s) (hid : id.index < bound) :
    Consults c (Request.Before idle bound) s fun answer => (asking answer).resolve id :=
  (complete_consults hs hid).bind fun _ _ _ => .const

theorem resolveAll_consults {ids : List NodeId} (hs : Coherent idle s)
    (hids : ∀ id ∈ ids, id.index < bound) :
    Consults c (Request.Before idle bound) s fun answer => (asking answer).resolveAll ids := by
  induction ids generalizing s with
  | nil => exact .const
  | cons id ids ih =>
    have hid := hids id List.mem_cons_self
    refine (resolve_consults hs hid).bindEnsures hs (resolve_ensures asking_sound hid) ?_
    intro r t ht _ _
    cases r with
    | none => exact .const
    | some v =>
      refine (ih ht fun n hn => hids n (List.mem_cons_of_mem id hn)).bind fun vs u _ => ?_
      cases vs <;> exact .const

theorem resolveOption_consults {option : OptionValue} (hs : Coherent idle s)
    (hids : ∀ id ∈ option.references, id.index < bound) :
    Consults c (Request.Before idle bound) s fun answer =>
      (asking answer).resolveOption option := by
  cases option with
  | value v | dtype t => exact .const
  | node id =>
    have hid := hids id (by simp [OptionValue.references])
    exact (resolve_consults hs hid).bind fun _ _ _ => .const
  | nodes ids => exact (resolveAll_consults hs hids).bind fun _ _ _ => .const

theorem resolveOptions_consults {entries : List (String × OptionValue)} (hs : Coherent idle s)
    (hids : ∀ entry ∈ entries, ∀ id ∈ entry.2.references, id.index < bound) :
    Consults c (Request.Before idle bound) s fun answer =>
      (asking answer).resolveOptions entries := by
  induction entries generalizing s with
  | nil => exact .const
  | cons entry entries ih =>
    obtain ⟨key, option⟩ := entry
    have hoption := hids _ List.mem_cons_self
    refine (resolveOption_consults hs hoption).bindEnsures hs
      (resolveOption_ensures asking_sound hoption) fun r t ht _ _ => ?_
    cases r with
    | none => exact .const
    | some r =>
      refine (ih ht fun e he => hids e (List.mem_cons_of_mem _ he)).bind fun rs u _ => ?_
      cases rs <;> exact .const

theorem gather_consults {kernel : Kernel} (hs : Coherent idle s)
    (hids : ∀ id ∈ o.references, id.index < bound) :
    Consults c (Request.Before idle bound) s fun answer => (asking answer).gather id kernel o := by
  have hoperands : ∀ id ∈ o.operands, id.index < bound :=
    fun id hid => hids id (List.mem_append_left _ hid)
  refine (resolveAll_consults hs hoperands).bindEnsures hs
    (resolveAll_ensures asking_sound hoperands) fun vs t ht _ _ => ?_
  cases vs with
  | none => exact .const
  | some vs =>
    refine (resolveOptions_consults ht fun entry hentry id hid =>
      hids id (Operation.mem_references_of_entry hentry hid)).bind fun rs u _ => ?_
    cases rs <;> exact .const

/-! ## Outputs -/

theorem each_consults {ids : List NodeId} (hs : Coherent idle s)
    (hids : ∀ id ∈ ids, id.index < bound) :
    Consults c (Request.Before idle bound) s fun answer =>
      Eval.each (asking answer).complete ids := by
  induction ids generalizing s with
  | nil => exact .const
  | cons id ids ih =>
    have hid := hids id List.mem_cons_self
    refine (complete_consults hs hid).bindEnsures hs (complete_ensures asking_sound hid) ?_
    intro r t ht _ _
    exact (ih ht fun n hn => hids n (List.mem_cons_of_mem id hn)).bind fun _ _ _ => .const

mutual

theorem completeWith_consults : ∀ (out : Output) {s : State}, Coherent idle s →
    (∀ n ∈ out.nodes, s.Descends bound n) →
    Consults c (Request.Before idle bound) s fun answer =>
      out.completeWith (asking answer).complete
  | .value v, _, _, _ => .const
  | .node id, s, hs, hout => by
    rcases hout id List.mem_cons_self with hstays | hlt
    · refine .const fun answer => ?_
      rw [Output.completeWith_node_run, Output.completeWith_node_run, if_pos hstays, if_pos hstays]
    · refine .stays ?_
      split
      · exact .const
      · exact complete_consults hs hlt
  | .list items, _, hs, hout =>
    (completeItemsWith_consults items hs hout).bind fun _ _ _ => .const

theorem completeItemsWith_consults : ∀ (outs : List Output) {s : State}, Coherent idle s →
    (∀ n ∈ Output.nodesOfItems outs, s.Descends bound n) →
    Consults c (Request.Before idle bound) s fun answer =>
      Output.completeItemsWith (asking answer).complete outs
  | [], _, _, _ => .const
  | out :: outs, s, hs, hout => by
    have hfirst : ∀ n ∈ out.nodes, s.Descends bound n :=
      fun n hn => hout n (List.mem_append_left _ hn)
    refine (completeWith_consults out hs hfirst).bindEnsures hs
      (completeWith_descends asking_sound out hfirst) fun r t ht hst _ => ?_
    refine (completeItemsWith_consults outs ht fun n hn =>
      (Step.toLater hst).descends (hout n (List.mem_append_right _ hn))).bind fun _ _ _ => .const

end

/-! ## Operations -/

theorem operand_consults {P : Request → State → Prop} {i : Nat} {f : Replies → NodeId → Eval Output}
    (hf : ∀ input, o.operands[i]? = some input → Consults c P s fun answer => f answer input) :
    Consults c P s fun answer => operand o i >>= f answer := by
  unfold operand
  split
  · rename_i input hinput
    exact hf input hinput
  · exact .const

theorem assign_consults {update : Update} (hs : Coherent idle s)
    (hids : ∀ r ∈ o.references, r.index < bound) :
    Consults c (Request.Before idle bound) s fun answer => (asking answer).assign id o update := by
  refine operand_consults fun target htarget => operand_consults fun source hsource => ?_
  have hlt := hids source (Operation.mem_references_of_operand hsource)
  have hlt' := hids target (Operation.mem_references_of_operand htarget)
  refine (resolve_consults hs hlt).bindEnsures hs (resolve_ensures asking_sound hlt) ?_
  intro v t ht _ _
  cases v with
  | none => exact .const
  | some v =>
    dsimp only
    split
    · exact .const
    · exact (resolve_consults ht hlt').bind fun _ _ _ => .const

theorem flowGroup_consults (hs : Coherent idle s) (hids : ∀ r ∈ o.references, r.index < bound) :
    Consults c (Request.Before idle bound) s fun answer => (asking answer).flowGroup o :=
  (each_consults hs fun r hr => hids r (Operation.references_of_mem_members hr)).bind
    fun _ _ _ => .const

theorem identity_consults (hs : Coherent idle s) (hids : ∀ r ∈ o.references, r.index < bound)
    {i : Nat} :
    Consults c (Request.Before idle bound) s fun answer =>
      (do (asking answer).complete (← operand o i)) :=
  operand_consults fun input hinput =>
    complete_consults hs (hids input (Operation.mem_references_of_operand hinput))

theorem print_consults (hs : Coherent idle s) (hids : ∀ r ∈ o.references, r.index < bound) :
    Consults c (Request.Before idle bound) s fun answer => (asking answer).print o :=
  operand_consults fun input hinput =>
    (complete_consults hs (hids input (Operation.mem_references_of_operand hinput))).bind
      fun _ _ _ => .const

theorem cond_consults (hs : Coherent idle s) (hids : ∀ r ∈ o.references, r.index < bound) :
    Consults c (Request.Before idle bound) s fun answer => (asking answer).cond id o := by
  unfold cond
  dsimp only
  split
  · rename_i pred hpred
    have hlt := hids pred (Operation.mem_references_of_option hpred List.mem_cons_self)
    refine (resolve_consults hs hlt).bindEnsures hs (resolve_ensures asking_sound hlt) ?_
    intro v t ht _ _
    cases v with
    | some v => exact identity_consults ht hids
    | none => exact .const
  · exact identity_consults hs hids
  · exact .const

theorem perform_consults (hs : Coherent idle s) (hids : ∀ r ∈ o.references, r.index < bound) :
    Consults c (Request.Before idle bound) s fun answer => (asking answer).perform id o := by
  unfold perform
  split
  · exact assign_consults hs hids
  · exact flowGroup_consults hs hids
  · exact identity_consults hs hids
  · exact identity_consults hs hids
  · exact print_consults hs hids
  · exact cond_consults hs hids
  · exact .const
  · refine (gather_consults hs hids).bind fun args _ _ => ?_
    cases args <;> exact .const

/-! ## Breakpoints -/

theorem observe_consults {i : Nat} (hs : Coherent idle s)
    (hids : ∀ r ∈ o.references, r.index < bound) :
    Consults c (Request.Before idle bound) s fun answer => (asking answer).observe o i := by
  unfold observe
  split
  · exact .const
  · rename_i input hinput
    split
    · exact .const
    · have hlt := hids input (Operation.mem_references_of_operand hinput)
      exact (complete_consults hs hlt).attempt fun _ _ _ => .const

theorem fire_consults {result : Output} (hs : Coherent idle s)
    (hids : ∀ r ∈ o.references, r.index < bound)
    (hresult : ∀ n ∈ result.nodes, s.Descends bound n) :
    Consults c (Request.Before idle bound) s fun answer => (asking answer).fire id o result := by
  unfold fire
  refine .state ?_
  split
  · exact .const
  · split
    · refine (observe_consults hs hids).bindEnsures hs (observe_ensures asking_sound hids) ?_
      intro a t ht hst _
      refine (observe_consults ht hids).bindEnsures ht (observe_ensures asking_sound hids) ?_
      intro b u hu htu _
      have hsu := (Step.toLater hst).trans (Step.toLater htu)
      exact (completeWith_consults result hu fun n hn => hsu.descends (hresult n hn)).attempt
        fun _ _ _ => .const
    · exact .const

/-! ## Nodes -/

theorem runOperation_consults {name : String} (hs : Coherent idle s)
    (hnode : s.graph.node? id = some node) (hkind : node.kind = .operation o) :
    Consults c (Request.Before idle id.index) s fun answer =>
      (asking answer).runOperation id name (.operation o) := by
  have hids := hs.graph.lt_of_operation hnode hkind
  cases hlookup : s.memo.lookup id with
  | some known =>
    exact .const fun _ => (runOperation_hit hlookup).trans (runOperation_hit hlookup).symm
  | none =>
    simp only [runOperation_eq]
    refine .state ?_
    simp only [hlookup]
    refine (perform_consults hs hids).attempt fun r t hperform => ?_
    cases r with
    | error e => exact .const
    | ok result =>
      -- The state is coherent again once the result is remembered.
      obtain ⟨-, hends⟩ := perform_ends asking_sound hs hnode hkind hlookup hperform
      obtain ⟨ht, hleft⟩ := hends result rfl
      refine .modify ?_
      exact (fire_consults ht hids fun n hn => (hleft n hn).descends).bind fun _ _ _ => .const

theorem runNode_consults (hs : Coherent idle s) :
    Consults c (Request.Before idle id.index) s fun answer => (asking answer).runNode id := by
  unfold runNode
  refine .state ?_
  split
  · exact .const
  · refine .bindEnsures (R := coherence idle 0) hs .const Eval.node_ensures ?_
    rintro node t - - ⟨rfl, hnode⟩
    refine .bindEnsures (R := coherence idle 0) hs .const (Eval.report_ensures rfl) ?_
    intro _ u hu htu _
    split
    · exact .const
    · rename_i target hkind
      have hnode' := htu.graph.eq_of_not_leaf hnode (by simp [hkind, NodeKind.isLeaf])
      have hlt := hu.graph.lt_of_reference hnode' hkind
      exact .ask ⟨hu, hlt⟩
    · exact .const
    · exact .const
    · exact .const
    · rename_i o hkind
      exact runOperation_consults hu (htu.graph.operation hnode hkind) hkind

theorem force_consults {origin last : NodeId} {remaining : Nat} {current : Output}
    (hs : Coherent idle s) (hspared : ∀ n ∈ current.nodes, s.Spared idle id.index n) :
    Consults c (Request.Before idle id.index) s fun answer =>
      (asking answer).force origin remaining last current := by
  induction remaining generalizing last current s with
  | zero =>
    cases current with
    | value v => exact .const
    | list items => exact completeWith_consults (.list items) hs fun n hn => (hspared n hn).descends
    | node next => exact .const
  | succ remaining ih =>
    cases current with
    | value v => exact .const
    | list items => exact completeWith_consults (.list items) hs fun n hn => (hspared n hn).descends
    | node next =>
      refine .stays ?_
      split
      · exact .const
      · rename_i hgoes
        simp only [not_or, Bool.not_eq_true] at hgoes
        have hlt := lt_of_spared (hspared next List.mem_cons_self) hgoes.2
        have hrun : Consults c (Request.Before idle id.index) s fun answer =>
            (asking answer).runNode next :=
          (runNode_consults hs).mono fun _ _ h => h.mono (Nat.le_of_lt hlt)
        refine hrun.bindEnsures hs (runNode_ensures asking_sound (Nat.le_refl _)) ?_
        intro out t ht _ hr
        exact ih ht fun n hn => .inl (Coherent.left_of_spared ht hlt (hr.spared n hn))

theorem completeNode_consults (hs : Coherent idle s) :
    Consults c (Request.Before idle id.index) s fun answer => (asking answer).completeNode id := by
  refine (runNode_consults hs).bindEnsures hs (runNode_ensures asking_sound (Nat.le_refl _)) ?_
  intro first t ht _ hfirst
  exact .settings (force_consults ht hfirst.spared)

/-! ## The bound does not matter -/

/-- The answers of the evaluation of the nodes below `bound`. -/
def answers (bound : Nat) : Replies
  | .run id => (below bound).run id
  | .complete id => (below bound).complete id
  | q => q.eval

/-- A node comes to the same whichever bound above it is taken. -/
theorem answers_eq {n : Nat} {q : Request} (hle : n ≤ bound) (hq : q.Before idle n s) :
    answers bound q c s = q.eval c s := by
  induction n using Nat.strongRecOn generalizing bound q s with
  | ind n ih =>
    obtain ⟨hs, hq⟩ := hq
    have hbound : ∀ r : NodeId, r.index < n → ∃ b, bound = b + 1 ∧ r.index ≤ b :=
      fun r hr => ⟨bound - 1, by omega, by omega⟩
    cases q with
    | run r =>
      obtain ⟨b, rfl, hb⟩ := hbound r hq
      -- Below either bound, the node is run by what the evaluator answers for those before it.
      have hrun : ∀ b, r.index ≤ b → (asking (answers b)).runNode r c s =
          (asking Request.eval).runNode r c s :=
        fun b hb => (runNode_consults hs).congr fun _ _ h => ih r.index hq hb h
      exact (hrun b hb).trans (hrun r.index (Nat.le_refl _)).symm
    | complete r =>
      obtain ⟨b, rfl, hb⟩ := hbound r hq
      have hcomplete : ∀ b, r.index ≤ b → (asking (answers b)).completeNode r c s =
          (asking Request.eval).completeNode r c s :=
        fun b hb => (completeNode_consults hs).congr fun _ _ h => ih r.index hq hb h
      exact (hcomplete b hb).trans (hcomplete r.index (Nat.le_refl _)).symm
    | output o | force origin remaining last current => exact hq.elim

/-- What consults only nodes below `bound` comes to the same if these alone are evaluated. -/
theorem eq_of_consults {α : Type} {x : Replies → Eval α}
    (hx : Consults c (Request.Before idle bound) s x) :
    x (answers bound) c s = x Request.eval c s :=
  hx.congr fun _ _ h => answers_eq (Nat.le_refl _) h

theorem runNode_below (hs : Coherent idle s) (hid : id.index ≤ bound) :
    (below bound).runNode id c s = Eval.run id c s :=
  have hbefore : (Request.run id).Before idle (id.index + 1) s := ⟨hs, Nat.lt_succ_self _⟩
  answers_eq (Nat.succ_le_succ hid) hbefore

theorem complete_below (hs : Coherent idle s) (hid : id.index < bound) :
    (below bound).complete id c s = Eval.complete id c s :=
  have hbefore : (Request.complete id).Before idle bound s := ⟨hs, hid⟩
  answers_eq (Nat.le_refl _) hbefore

end Earlier

end Dataflow
