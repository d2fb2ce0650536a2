import Dataflow.Proofs.Preservation

/-!
# The last step of an operation

Performing an operation evaluates some of its operands completely, one after another, and then takes
one last step, on which no further node is evaluated. A regime that the operands keep to is kept up
to the last step, so only that step has to be looked at.
-/

namespace Dataflow

/-! ## Computations that end with a step of their own -/

namespace Regime

/-- Performed from the state `s`, the computation keeps to the regime up to some state, and from
there on does what some computation does for which `L` holds. -/
def LeadsTo {α : Type} (R : Regime) (c : Settings) (s : State) (x : Eval α)
    (L : State → Eval α → Prop) : Prop :=
  R.inv s → ∃ t y, R.inv t ∧ R.step s t ∧ L t y ∧ x c s = y c t

namespace LeadsTo

variable {R : Regime} {α β : Type} {c : Settings} {s : State} {L : State → Eval α → Prop}

theorem last {x : Eval α} (h : L s x) : R.LeadsTo c s x L :=
  fun hs => ⟨s, x, hs, R.refl s, h, rfl⟩

/-- A beginning that fails is followed by nothing. -/
theorem bind {x : Eval β} {f : β → Eval α} {P : Except Failure β → State → Prop}
    (hx : R.Ensures c s x P)
    (hok : ∀ b t, R.inv t → R.step s t → P (.ok b) t → R.LeadsTo c t (f b) L)
    (herror : ∀ e t, P (.error e) t → L t (.fail e)) : R.LeadsTo c s (x >>= f) L := by
  intro hs
  obtain ⟨ht, hst, hP⟩ := hx hs
  cases hrun : x c s with
  | mk r t =>
    rw [hrun] at ht hst hP
    cases r with
    | ok b =>
      obtain ⟨u, y, hu, htu, hL, heq⟩ := hok b t ht hst hP ht
      exact ⟨u, y, hu, R.trans hst htu, hL, (Eval.bind_run_ok hrun).trans heq⟩
    | error e =>
      exact ⟨t, .fail e, ht, hst, herror e t hP, Eval.bind_run_error hrun⟩

end LeadsTo

end Regime

/-! ## What operands give -/

theorem exists_of_mem_forall₂ {α β : Type} {V : α → β → Prop} {xs : List α} {ys : List β}
    (h : List.Forall₂ V xs ys) {y : β} (hy : y ∈ ys) : ∃ x ∈ xs, V x y := by
  induction h with
  | nil => cases hy
  | @cons x _ _ _ hx _ ih =>
    rcases List.mem_cons.mp hy with rfl | hy
    · exact ⟨x, List.mem_cons_self, hx⟩
    · obtain ⟨x', hx', hV⟩ := ih hy
      exact ⟨x', List.mem_cons_of_mem x hx', hV⟩

/-- What an assignment comes to, where `V` says which values the nodes have. -/
inductive Operation.Updates (o : Operation) (V : NodeId → Value → Prop) (update : Update) :
    Except Fault Value → Prop
  | set {source : NodeId} {v : Value} (hsource : o.operands[1]? = some source) (hv : V source v)
      (hset : Earlier.operator? update = none) : Updates o V update (.ok v)
  | apply {target source : NodeId} {old v : Value} {op : BinaryOp}
      (htarget : o.operands[0]? = some target) (hsource : o.operands[1]? = some source)
      (hold : V target old) (hv : V source v) (hop : Earlier.operator? update = some op) :
      Updates o V update (Value.binary op old v)

/-- The reasons for which an operation is refused, whatever it is applied to or once its operands
are known. -/
inductive Operation.Refuses (o : Operation) (V : NodeId → Value → Prop) : Failure → Prop
  | operand {i : Nat} (h : o.operands[i]? = none) :
      Refuses o V (.arity o.op (.atLeast (i + 1)) o.operands.length)
  | update {update : Update} {f : Fault} (hop : o.op = .control (.assign update))
      (h : o.Updates V update (.error f)) : Refuses o V (.fault f)
  | pred (hop : o.op = .control .cond) (hnode : ∀ id, o.options.get? "pred" ≠ some (.node id))
      (hvalue : ∀ v, o.options.get? "pred" ≠ some (.value v)) :
      Refuses o V (.invalidOption o.op "pred" .missing)
  | gradients (hop : o.op = .control .gradients) : Refuses o V .unbuiltGradients

/-- The operation has the result of the operand `r` for its own. -/
inductive Operation.Passes (o : Operation) (r : NodeId) : Prop
  | identity (hop : o.op = .control .identity) (hr : o.operands[0]? = some r)
  | stopGradient (hop : o.op = .control .stopGradient) (hr : o.operands[0]? = some r)
  | cond {i : Nat} (hop : o.op = .control .cond) (hr : o.operands[i]? = some r)

/-- Whether the failure is that an operand is missing. -/
def Failure.isArity : Failure → Bool
  | .arity .. => true
  | _ => false

/-- What an option comes to, where `V` says which values the nodes have. -/
def OptionValue.Resolves (V : NodeId → Value → Prop) : OptionValue → Resolved → Prop
  | .value v, .value w => w = v
  | .dtype t, .value w => w = .scalar (.str t.text)
  | .node id, .value w => V id w
  | .nodes ids, .values ws => List.Forall₂ V ids ws
  | _, _ => False

/-- The arguments are those of the operation at the given node, where `V` says which values the
nodes have. -/
structure Arguments.Gathered (args : Arguments) (V : NodeId → Value → Prop) (kernel : Kernel)
    (node : Node) (o : Operation) : Prop where
  kernel : args.kernel = kernel
  dtype : args.dtype = node.dtype
  operands : List.Forall₂ V o.operands args.operands
  options : List.Forall₂ (fun entry r => r.1 = entry.1 ∧ entry.2.Resolves V r.2)
    o.options.entries args.options

theorem Operation.Updates.mono {o : Operation} {V W : NodeId → Value → Prop} {update : Update}
    {r : Except Fault Value} (h : ∀ id v, V id v → W id v) (hr : o.Updates V update r) :
    o.Updates W update r := by
  cases hr with
  | set hsource hv hset => exact .set hsource (h _ _ hv) hset
  | apply htarget hsource hold hv hop =>
    exact .apply htarget hsource (h _ _ hold) (h _ _ hv) hop

theorem Operation.Refuses.mono {o : Operation} {V W : NodeId → Value → Prop} {e : Failure}
    (h : ∀ id v, V id v → W id v) (he : o.Refuses V e) : o.Refuses W e := by
  cases he with
  | operand hnone => exact .operand hnone
  | update hop hf => exact .update hop (hf.mono h)
  | pred hop hnode hvalue => exact .pred hop hnode hvalue
  | gradients hop => exact .gradients hop

theorem OptionValue.Resolves.mono {V W : NodeId → Value → Prop} (h : ∀ id v, V id v → W id v) :
    ∀ {option : OptionValue} {r : Resolved}, option.Resolves V r → option.Resolves W r
  | .value _, .value _, hr => hr
  | .dtype _, .value _, hr => hr
  | .node id, .value w, hr => h id w hr
  | .nodes _, .values _, hr => List.Forall₂.imp h hr

theorem Arguments.Gathered.mono {args : Arguments} {V W : NodeId → Value → Prop} {kernel : Kernel}
    {node : Node} {o : Operation} (h : ∀ id v, V id v → W id v)
    (hargs : args.Gathered V kernel node o) : args.Gathered W kernel node o where
  kernel := hargs.kernel
  dtype := hargs.dtype
  operands := hargs.operands.imp h
  options := hargs.options.imp fun _ _ hr => ⟨hr.1, hr.2.mono h⟩

section Operands

variable (R : Regime) (P : NodeId → Except Failure Output → State → Prop)

/-- Before the state `t`, the node `r` was evaluated to `out`, of which `P` holds. -/
def Gave (t : State) (r : NodeId) (out : Output) : Prop := ∃ u, R.step u t ∧ P r (.ok out) u

def Valued (t : State) (r : NodeId) (v : Value) : Prop :=
  ∃ out, Gave R P t r out ∧ out.toValue? = some v

/-- One of the nodes was evaluated before the state `t`, and something is left in its output. -/
def Pending (t : State) (ids : List NodeId) : Prop :=
  ∃ r ∈ ids, ∃ out, Gave R P t r out ∧ out.toValue? = none

/-- What comes of evaluating some of the nodes for their values: either all that was looked for is
`found`, or something is left unevaluated, or one of them fails. -/
def Sought {β : Type} (ids : List NodeId) (found : β → State → Prop) :
    Except Failure (Option β) → State → Prop
  | .ok (some b), t => found b t
  | .ok none, t => Pending R P t ids
  | .error e, t => ∃ r ∈ ids, P r (.error e) t

end Operands

section Lasting

variable {R : Regime} {P : NodeId → Except Failure Output → State → Prop} {t u : State}

theorem Gave.later {r : NodeId} {out : Output} (h : Gave R P t r out) (htu : R.step t u) :
    Gave R P u r out := by
  obtain ⟨s, hst, hout⟩ := h
  exact ⟨s, R.trans hst htu, hout⟩

theorem Gave.now {r : NodeId} {out : Output} (h : P r (.ok out) t) : Gave R P t r out :=
  ⟨t, R.refl t, h⟩

theorem Valued.later {r : NodeId} {v : Value} (h : Valued R P t r v) (htu : R.step t u) :
    Valued R P u r v := by
  obtain ⟨out, hout, hv⟩ := h
  exact ⟨out, hout.later htu, hv⟩

theorem Pending.mono {ids ids' : List NodeId} (h : Pending R P t ids) (hids : ids ⊆ ids') :
    Pending R P t ids' := by
  obtain ⟨r, hr, hout⟩ := h
  exact ⟨r, hids hr, hout⟩

end Lasting

namespace Earlier

variable {earlier : Earlier} {R : Regime} {P : NodeId → Except Failure Output → State → Prop}
variable {c : Settings} {s : State}

theorem resolve_seeks {r : NodeId} (h : ∀ t, R.Ensures c t (earlier.complete r) (P r)) :
    R.Ensures c s (earlier.resolve r) (Sought R P [r] fun v t => Valued R P t r v) := by
  refine (h s).bind (fun out t _ _ hout => .pure fun _ => ?_) fun e t _ _ he => ?_
  · cases hv : out.toValue? with
    | some v => exact ⟨out, .now hout, hv⟩
    | none => exact ⟨r, List.mem_cons_self, out, .now hout, hv⟩
  · exact ⟨r, List.mem_cons_self, he⟩

theorem resolveAll_seeks {ids : List NodeId}
    (h : ∀ r ∈ ids, ∀ t, R.Ensures c t (earlier.complete r) (P r)) :
    R.Ensures c s (earlier.resolveAll ids)
      (Sought R P ids fun vs t => List.Forall₂ (Valued R P t) ids vs) := by
  induction ids generalizing s with
  | nil => exact .pure fun _ => .nil
  | cons r ids ih =>
    have hfirst : [r] ⊆ r :: ids := by simp
    refine (resolve_seeks (h r List.mem_cons_self)).bind (fun v t _ _ hv => ?_)
      fun e t _ _ ⟨n, hn, he⟩ => ⟨n, hfirst hn, he⟩
    cases v with
    | none => exact .pure fun _ => Pending.mono hv hfirst
    | some v =>
      refine (ih fun n hn => h n (List.mem_cons_of_mem r hn)).bind (fun vs u _ htu hvs => ?_)
        fun e u _ _ ⟨n, hn, he⟩ => ⟨n, List.mem_cons_of_mem r hn, he⟩
      cases vs with
      | none => exact .pure fun _ => Pending.mono hvs (List.subset_cons_self ..)
      | some vs => exact .pure fun _ => .cons (Valued.later hv htu) hvs

theorem resolveOption_seeks {option : OptionValue}
    (h : ∀ r ∈ option.references, ∀ t, R.Ensures c t (earlier.complete r) (P r)) :
    R.Ensures c s (earlier.resolveOption option)
      (Sought R P option.references fun r t => option.Resolves (Valued R P t) r) := by
  cases option with
  | value v => exact .pure fun _ => rfl
  | dtype t => exact .pure fun _ => rfl
  | node id =>
    refine (resolve_seeks (h id List.mem_cons_self)).bind (fun v t _ _ hv => .pure fun _ => ?_)
      fun e t _ _ he => he
    cases v <;> exact hv
  | nodes ids =>
    refine (resolveAll_seeks h).bind (fun vs t _ _ hvs => .pure fun _ => ?_) fun e t _ _ he => he
    cases vs <;> exact hvs

theorem resolveOptions_seeks {entries : List (String × OptionValue)}
    (h : ∀ entry ∈ entries, ∀ r ∈ entry.2.references,
      ∀ t, R.Ensures c t (earlier.complete r) (P r)) :
    R.Ensures c s (earlier.resolveOptions entries)
      (Sought R P (entries.flatMap fun entry => entry.2.references) fun rs t =>
        List.Forall₂ (fun entry r => r.1 = entry.1 ∧ entry.2.Resolves (Valued R P t) r.2)
          entries rs) := by
  induction entries generalizing s with
  | nil => exact .pure fun _ => .nil
  | cons entry entries ih =>
    obtain ⟨key, option⟩ := entry
    refine (resolveOption_seeks (h _ List.mem_cons_self)).bind (fun r t _ _ hr => ?_)
      fun e t _ _ ⟨n, hn, he⟩ => ⟨n, List.mem_append_left _ hn, he⟩
    cases r with
    | none => exact .pure fun _ => Pending.mono hr (List.subset_append_left ..)
    | some r =>
      refine (ih fun e he => h e (List.mem_cons_of_mem _ he)).bind (fun rs u _ htu hrs => ?_)
        fun e u _ _ ⟨n, hn, he⟩ => ⟨n, List.mem_append_right _ hn, he⟩
      cases rs with
      | none => exact .pure fun _ => Pending.mono hrs (List.subset_append_right ..)
      | some rs => exact .pure fun _ => .cons ⟨rfl, hr.mono fun _ _ hv => hv.later htu⟩ hrs

/-- The members of a group are evaluated one after another. -/
theorem each_seeks {ids : List NodeId}
    (h : ∀ r ∈ ids, ∀ t, R.Ensures c t (earlier.complete r) (P r)) :
    R.Ensures c s (Eval.each earlier.complete ids) fun
      | .ok outs, t => List.Forall₂ (Gave R P t) ids outs
      | .error e, t => ∃ r ∈ ids, P r (.error e) t := by
  induction ids generalizing s with
  | nil => exact .pure fun _ => .nil
  | cons r ids ih =>
    refine (h r List.mem_cons_self s).bind (fun out t _ _ hout => ?_)
      fun e t _ _ he => ⟨r, List.mem_cons_self, he⟩
    refine (ih fun n hn => h n (List.mem_cons_of_mem r hn)).bind (fun outs u _ htu houts => ?_)
      fun e u _ _ ⟨n, hn, he⟩ => ⟨n, List.mem_cons_of_mem r hn, he⟩
    exact .pure fun _ => .cons ((Gave.now hout).later htu) houts

end Earlier

/-! ## Last steps -/

/-- The last step of performing the operation `o` of the node `id`, in the state `t`. What is known
of its operands is that `P` holds of their evaluations. -/
inductive LastStep (R : Regime) (P : NodeId → Except Failure Output → State → Prop) (id : NodeId)
    (o : Operation) (t : State) : Eval Output → Prop
  | failed {r : NodeId} {e : Failure} (hr : r ∈ o.references) (h : P r (.error e) t) :
      LastStep R P id o t (.fail e)
  | refused {e : Failure} (h : o.Refuses (Valued R P t) e)
      (harity : o.WithinArity → e.isArity = false) : LastStep R P id o t (.fail e)
  | computed {kernel : Kernel} {node : Node} {args : Arguments} (hop : o.op = .kernel kernel)
      (hnode : t.graph.node? id = some node) (h : args.Gathered (Valued R P t) kernel node o) :
      LastStep R P id o t (.compute args)
  | written {update : Update} {target : NodeId} {v : Value}
      (hop : o.op = .control (.assign update)) (htarget : o.operands[0]? = some target)
      (h : o.Updates (Valued R P t) update (.ok v)) : LastStep R P id o t (.write update target v)
  | deferred (h : Pending R P t o.references) : LastStep R P id o t (.defer id o)
  | passed {r : NodeId} {out : Output} (hr : o.Passes r) (h : P r (.ok out) t) :
      LastStep R P id o t (pure out)
  | grouped {outs : List Output} (hop : o.op = .control .flowGroup)
      (h : List.Forall₂ (Gave R P t) o.members outs) : LastStep R P id o t (pure (.list outs))
  | printed {r : NodeId} {message : String} {shown : Output} (hop : o.op = .control .print)
      (hr : o.operands[0]? = some r) (h : P r (.ok shown) t) :
      LastStep R P id o t (do Eval.report (.printed message shown); return .node r)

namespace Earlier

variable {earlier : Earlier} {R : Regime} {P : NodeId → Except Failure Output → State → Prop}
variable {c : Settings} {s : State} {id : NodeId} {o : Operation}

/-- An operand that the operation cannot do without is there. -/
theorem operand_leads {i : Nat} {f : NodeId → Eval Output} (hi : i < o.op.arity.1)
    (hok : ∀ r, o.operands[i]? = some r → R.LeadsTo c s (f r) (LastStep R P id o)) :
    R.LeadsTo c s (operand o i >>= f) (LastStep R P id o) := by
  unfold operand
  cases hr : o.operands[i]? with
  | some r => exact hok r hr
  | none =>
    refine fun hs => ⟨s, _, hs, R.refl s, .refused (.operand hr) fun harity => ?_,
      Eval.bind_run_error rfl⟩
    have hlength := List.getElem?_eq_none_iff.mp hr
    have := harity.1
    omega

section Steps

variable (h : ∀ r ∈ o.references, ∀ t, R.Ensures c t (earlier.complete r) (P r))

include h

theorem branch_leads {i : Nat} (hi : i < o.op.arity.1)
    (hpasses : ∀ r, o.operands[i]? = some r → o.Passes r) :
    R.LeadsTo c s (do earlier.complete (← operand o i)) (LastStep R P id o) := by
  refine operand_leads hi fun r hr hs => ?_
  have hmem := Operation.mem_references_of_operand hr
  obtain ⟨ht, hst, hP⟩ := h r hmem s hs
  cases hrun : earlier.complete r c s with
  | mk result t =>
    rw [hrun] at ht hst hP
    cases result with
    | ok out => exact ⟨t, pure out, ht, hst, .passed (hpasses r hr) hP, rfl⟩
    | error e => exact ⟨t, .fail e, ht, hst, .failed hmem hP, rfl⟩

theorem assign_leads {update : Update} (hop : o.op = .control (.assign update)) :
    R.LeadsTo c s (earlier.assign id o update) (LastStep R P id o) := by
  -- An operand that fails or that has no value ends the assignment.
  have hseek : ∀ {r : NodeId} {t : State} {f : Option Value → Eval Output}, r ∈ o.references →
      (∀ v u, R.step t u → Valued R P u r v → R.LeadsTo c u (f (some v)) (LastStep R P id o)) →
      f none = .defer id o → R.LeadsTo c t (earlier.resolve r >>= f) (LastStep R P id o) := by
    intro r t f hr hsome hnone
    have hids : [r] ⊆ o.references := by simpa using hr
    refine .bind (resolve_seeks (h r hr)) (fun v u _ htu hv => ?_)
      fun e u ⟨n, hn, he⟩ => .failed (hids hn) he
    cases v with
    | some v => exact hsome v u htu hv
    | none =>
      rw [hnone]
      exact .last (.deferred (Pending.mono hv hids))
  have harity : o.op.arity.1 = 2 := by rw [hop]; rfl
  refine operand_leads (by omega) fun target htarget => ?_
  refine operand_leads (by omega) fun source hsource => ?_
  refine hseek (Operation.mem_references_of_operand hsource) (fun v t _ hv => ?_) rfl
  dsimp only
  split
  · rename_i hset
    exact .last (.written hop htarget (.set hsource hv hset))
  · rename_i op hoperator
    refine hseek (Operation.mem_references_of_operand htarget) (fun old u htu hold => ?_) rfl
    have hupdates : o.Updates (Valued R P u) update (Value.binary op old v) :=
      .apply htarget hsource hold (hv.later htu) hoperator
    dsimp only
    split
    · rename_i hbinary
      exact .last (.written hop htarget (hbinary ▸ hupdates))
    · rename_i hbinary
      exact .last (.refused (.update hop (hbinary ▸ hupdates)) fun _ => rfl)

theorem cond_leads (hop : o.op = .control .cond) :
    R.LeadsTo c s (earlier.cond id o) (LastStep R P id o) := by
  have hbranch : ∀ (v : Value) t, R.LeadsTo c t
      (do earlier.complete (← operand o (if v.allTruthy then 0 else 1))) (LastStep R P id o) := by
    intro v t
    refine branch_leads h ?_ fun r => .cond hop
    have harity : o.op.arity.1 = 2 := by rw [hop]; rfl
    split <;> omega
  unfold cond
  dsimp only
  split
  · rename_i pred hpred
    have hmem := Operation.mem_references_of_option hpred List.mem_cons_self
    have hids : [pred] ⊆ o.references := by simpa using hmem
    refine .bind (resolve_seeks (h pred hmem)) (fun v t _ _ hv => ?_)
      fun e t ⟨n, hn, he⟩ => .failed (hids hn) he
    cases v with
    | some v => exact hbranch v t
    | none => exact .last (.deferred (Pending.mono hv hids))
  · exact hbranch _ s
  · rename_i hnode hvalue
    exact .last (.refused (.pred hop hnode hvalue) fun _ => rfl)

theorem kernel_leads {kernel : Kernel} (hop : o.op = .kernel kernel)
    (hthere : ∀ t, R.step s t → ∃ node, t.graph.node? id = some node) :
    R.LeadsTo c s
      (do
        match ← earlier.gather id kernel o with
        | some args => .compute args
        | none => .defer id o)
      (LastStep R P id o) := by
  have hoperands : ∀ r ∈ o.operands, ∀ t, R.Ensures c t (earlier.complete r) (P r) :=
    fun r hr => h r (List.mem_append_left _ hr)
  have hoptions : ∀ entry ∈ o.options.entries, ∀ r ∈ entry.2.references,
      ∀ t, R.Ensures c t (earlier.complete r) (P r) :=
    fun entry hentry r hr => h r (Operation.mem_references_of_entry hentry hr)
  -- Operands come before options, and the first of either that has no value ends the search.
  have hgather : R.Ensures c s (earlier.gather id kernel o) (Sought R P o.references fun args t =>
      ∃ node, t.graph.node? id = some node ∧ args.Gathered (Valued R P t) kernel node o) := by
    refine (resolveAll_seeks hoperands).bind (fun vs t _ hst hvs => ?_)
      fun e t _ _ ⟨n, hn, he⟩ => ⟨n, List.mem_append_left _ hn, he⟩
    cases vs with
    | none => exact .pure fun _ => Pending.mono hvs (List.subset_append_left ..)
    | some vs =>
      refine (resolveOptions_seeks hoptions).bind (fun rs u _ htu hrs => ?_)
        fun e u _ _ ⟨n, hn, he⟩ => ⟨n, List.mem_append_right _ hn, he⟩
      cases rs with
      | none => exact .pure fun _ => Pending.mono hrs (List.subset_append_right ..)
      | some rs =>
        obtain ⟨node, hnode⟩ := hthere u (R.trans hst htu)
        refine .of_eq (Eval.bind_run_ok (Eval.node_run_some hnode)) (.pure fun _ => ?_)
        exact ⟨node, hnode, rfl, rfl, hvs.imp fun _ _ hv => hv.later htu, hrs⟩
  refine .bind hgather (fun args t _ _ hargs => ?_) fun e t ⟨n, hn, he⟩ => .failed hn he
  cases args with
  | some args =>
    obtain ⟨node, hnode, hargs⟩ := hargs
    exact .last (.computed hop hnode hargs)
  | none => exact .last (.deferred hargs)

/-- Operands are evaluated first, and one last step remains. -/
theorem perform_leads (hthere : ∀ t, R.step s t → ∃ node, t.graph.node? id = some node) :
    R.LeadsTo c s (earlier.perform id o) (LastStep R P id o) := by
  unfold perform
  split
  · rename_i hop
    exact assign_leads h hop
  · rename_i hop
    refine .bind (each_seeks fun r hr => h r (Operation.references_of_mem_members hr))
      (fun outs t _ _ houts => .last (.grouped hop houts)) fun e t ⟨r, hr, he⟩ => ?_
    exact .failed (Operation.references_of_mem_members hr) he
  · rename_i hop
    exact branch_leads h (by simp [hop, Op.arity]) fun r => .identity hop
  · rename_i hop
    exact branch_leads h (by simp [hop, Op.arity]) fun r => .stopGradient hop
  · rename_i hop
    refine operand_leads (by simp [hop, Op.arity]) fun r hr => ?_
    have hmem := Operation.mem_references_of_operand hr
    exact .bind (h r hmem s) (fun shown t _ _ hshown => .last (.printed hop hr hshown))
      fun e t he => .failed hmem he
  · rename_i hop
    exact cond_leads h hop
  · rename_i hop
    exact .last (.refused (.gradients hop) fun _ => rfl)
  · rename_i kernel hop
    exact kernel_leads h hop hthere

end Steps

end Earlier

end Dataflow
