import Dataflow.Proofs.Mirror
import Dataflow.Proofs.Stability

/-!
# Assignments

An assignment looks at its source, and at the old value of its target if the update combines the
two, before it writes. Whatever comes of this, and of the operations that it evaluates on the way,
the assignment itself changes at most what is stored in its target, and that only if it succeeds
with a value.
-/

namespace Dataflow

variable (lib : Library Rng)

open State

/-! ## What is stored -/

namespace Graph

variable {g g' : Graph} {id : NodeId}

/-- A write changes what is stored in one variable. -/
theorem stored?_of_store {v w : Value} (h : g.store id v = .ok (g', w)) :
    g'.stored? = Function.update g.stored? id (some w) := by
  obtain ⟨node, stored, hnode, -, -, hupdate⟩ := store_eq_ok h
  funext i
  rw [stored?, node?_update hupdate]
  by_cases hi : i = id
  · subst hi
    rw [if_pos rfl, hnode, Function.update_self]
    rfl
  · rw [if_neg hi, Function.update_of_ne hi]
    rfl

/-- In a copy of an operation nothing is stored. -/
theorem stored?_of_addDeferred {o : Operation} {copy : NodeId}
    (h : g.addDeferred id o = .ok (g', copy)) : g'.stored? = g.stored? := by
  obtain ⟨node, -, hinsert⟩ := addDeferred_eq_ok.mp h
  obtain rfl : g' = _ := congrArg Prod.fst hinsert
  funext i
  rw [stored?, node?_insert]
  split
  · rename_i hi
    rw [stored?, node?_eq_none (Nat.le_of_eq hi.symm)]
    rfl
  · rfl

/-- Variables are not made of nodes that were there already. -/
theorem IsVariable.before (h : g'.IsVariable id) (hg : g.Evolves g') (hlt : id.index < g.size) :
    g.IsVariable id := by
  obtain ⟨node, stored, hnode, hkind⟩ := h
  obtain ⟨before, hbefore, hbare⟩ := hg.exists_before hlt hnode
  obtain ⟨stored', hkind'⟩ := Node.exists_variable_of_bare hbare.symm hkind
  exact ⟨before, stored', hbefore, hkind'⟩

end Graph

/-! ## Variables and retained nodes -/

section Leaves

variable {earlier : Earlier} {c : Settings} {s : State} {id : NodeId} {node : Node}

theorem Earlier.runNode_retained (hretained : s.context.isRetained id = true) :
    earlier.runNode id c s = (.ok (.node id), s) := by
  unfold Earlier.runNode
  rw [Eval.state_bind_run, if_pos hretained]
  rfl

theorem Eval.complete_retained (hretained : s.context.isRetained id = true) :
    Eval.complete id c s = (.ok (.node id), s) := by
  change (Earlier.below id.index).completeNode id c s = _
  refine (Eval.bind_run_ok (Earlier.runNode_retained hretained)).trans ?_
  rw [Eval.settings_bind_run, Earlier.force_node]
  change (if id = id ∨ s.stays id = true then _ else _ : Eval Output) c s = _
  rw [if_pos (.inl rfl)]
  rfl

/-- What evaluating a variable comes to. -/
def Node.held (node : Node) (stored : Option Value) : Except Failure Output :=
  match stored with
  | some v => .ok (.value v)
  | none => .error (.uninitializedVariable node.name)

theorem Earlier.runNode_variable {stored : Option Value}
    (hretained : s.context.isRetained id = false) (hnode : s.graph.node? id = some node)
    (hkind : node.kind = .variable stored) :
    ∃ t, earlier.runNode id c s = (node.held stored, t) ∧ t.graph = s.graph := by
  unfold Earlier.runNode
  rw [Eval.state_bind_run, if_neg (by simp [hretained]),
    Eval.bind_run_ok (Eval.node_run_some hnode), Eval.bind_run_ok (Eval.report_run _), hkind]
  cases stored with
  | some v => exact ⟨_, rfl, rfl⟩
  | none => exact ⟨_, rfl, rfl⟩

theorem Eval.complete_variable {stored : Option Value}
    (hretained : s.context.isRetained id = false) (hnode : s.graph.node? id = some node)
    (hkind : node.kind = .variable stored) :
    ∃ t, Eval.complete id c s = (node.held stored, t) ∧ t.graph = s.graph := by
  obtain ⟨t, hrun, ht⟩ :
      ∃ t, (Earlier.below id.index).runNode id c s = (node.held stored, t) ∧ t.graph = s.graph :=
    Earlier.runNode_variable hretained hnode hkind
  refine ⟨t, ?_, ht⟩
  change (Earlier.below id.index).completeNode id c s = _
  cases stored with
  | some v =>
    refine (Eval.bind_run_ok hrun).trans ?_
    rw [Eval.settings_bind_run, Earlier.force_value]
    rfl
  | none => exact Eval.bind_run_error hrun

end Leaves

/-! ## What an assignment looks at -/

/-- Nodes as the evaluator evaluates them. -/
def Earlier.whole : Earlier := ⟨Eval.run, Eval.complete⟩

namespace Earlier

variable (earlier : Earlier)

/-- What an assignment looks at: the value of the source and after that, if the update combines the
two, the old value of the target. Nothing is found if one of them stays unevaluated. -/
def inputs (update : Update) (target source : NodeId) :
    Eval (Option (Value × Option Value)) := do
  match ← earlier.resolve source with
  | none => return none
  | some v =>
    match operator? update with
    | none => return some (v, none)
    | some _ =>
      match ← earlier.resolve target with
      | none => return none
      | some old => return some (v, some old)

/-- What is to be stored. -/
def combined (update : Update) : Value × Option Value → Except Fault Value
  | (v, old) =>
    match operator? update, old with
    | some op, some old => Value.binary op old v
    | _, _ => .ok v

/-- What is left to do of an assignment that has looked at its inputs. -/
def conclude (id : NodeId) (o : Operation) (update : Update) (target : NodeId) :
    Option (Value × Option Value) → Eval Output
  | none => .defer id o
  | some found =>
    match combined update found with
    | .ok new => .write update target new
    | .error f => .fail (.fault f)

variable {earlier} {id target source : NodeId} {o : Operation} {update : Update}

theorem assign_eq (htarget : o.operands[0]? = some target)
    (hsource : o.operands[1]? = some source) :
    earlier.assign id o update =
      earlier.inputs update target source >>= conclude id o update target := by
  have htarget' : operand o 0 = pure target := by rw [operand, htarget]
  have hsource' : operand o 1 = pure source := by rw [operand, hsource]
  rw [assign, htarget', hsource', pure_bind, pure_bind, inputs, bind_assoc]
  refine bind_congr fun v => ?_
  cases v with
  | none => rfl
  | some v =>
    dsimp only
    cases hop : operator? update with
    | none => simp only [pure_bind, conclude, combined, hop]
    | some op =>
      dsimp only
      rw [bind_assoc]
      refine bind_congr fun old => ?_
      cases old with
      | none => rfl
      | some old =>
        dsimp only
        cases hnew : Value.binary op old v with
        | ok new => simp only [pure_bind, conclude, combined, hop, hnew]
        | error f => simp only [pure_bind, conclude, combined, hop, hnew]

theorem resolve_eq_ok {c : Settings} {s t : State} {v : Option Value} :
    earlier.resolve id c s = (.ok v, t) ↔
      ∃ out, earlier.complete id c s = (.ok out, t) ∧ out.toValue? = v := by
  refine Eval.bind_run_eq_ok.trans ⟨?_, ?_⟩
  · rintro ⟨out, u, hrun, hv⟩
    cases hv
    exact ⟨out, hrun, rfl⟩
  · rintro ⟨out, hrun, rfl⟩
    exact ⟨out, t, hrun, rfl⟩

/-- The inputs that are found are the value of the source and, after that, of the target. -/
theorem inputs_eq_ok {c : Settings} {s u : State} {v : Value} {old : Option Value}
    (h : earlier.inputs update target source c s = (.ok (some (v, old)), u)) :
    ∃ t, earlier.resolve source c s = (.ok (some v), t) ∧
      (operator? update = none ∧ old = none ∧ u = t ∨
        ∃ op before, operator? update = some op ∧ old = some before ∧
          earlier.resolve target c t = (.ok (some before), u)) := by
  obtain ⟨v', t, hsource, h⟩ := Eval.bind_run_eq_ok.mp h
  cases v' with
  | none => cases h
  | some v' =>
    dsimp only at h
    cases hop : operator? update with
    | none =>
      rw [hop] at h
      cases h
      exact ⟨_, hsource, .inl ⟨rfl, rfl, rfl⟩⟩
    | some op =>
      rw [hop] at h
      obtain ⟨before, u', htarget, h⟩ := Eval.bind_run_eq_ok.mp h
      cases before with
      | none => cases h
      | some before =>
        cases h
        exact ⟨_, hsource, .inr ⟨op, before, rfl, rfl, htarget⟩⟩

end Earlier

/-! ## Breakpoints of control operations -/

/-- The regime in which nothing but reports is new. -/
def State.reporting : Regime where
  inv _ := True
  step s t := ∃ events, t = { s with events }
  refl s := ⟨s.events, rfl⟩
  trans := by
    rintro s _ _ ⟨_, rfl⟩ ⟨events, rfl⟩
    exact ⟨events, rfl⟩

namespace Earlier

variable {earlier : Earlier} {c : Settings} {s t : State} {id : NodeId} {o : Operation}

/-- The breakpoint of a control operation evaluates nothing if the result stays as it is. -/
theorem fire_reports (hcontrol : o.op.isControl = true) {result : Output}
    (hstays : ∀ n ∈ result.nodes, s.stays n = true) :
    ∃ events, earlier.fire id o result c s = (.ok (), { s with events }) := by
  have hfire : reporting.Ensures c s (earlier.fire id o result) fun r _ => r = .ok () := by
    refine fire_keeps (fun t events _ => ⟨trivial, events, rfl⟩) (fun hkernel => ?_) fun n hn => ?_
    · rw [hcontrol] at hkernel
      cases hkernel
    · rintro t - ⟨events, rfl⟩
      exact (if_pos (hstays n hn)).mpr trivial
  obtain ⟨-, ⟨events, ht⟩, hr⟩ := hfire trivial
  exact ⟨events, Prod.ext hr ht⟩

/-- A control operation is remembered with its result, if that stays as it is, and no more is done
for it. -/
theorem runOperation_control {name : String} {out : Output} (hcontrol : o.op.isControl = true)
    (hmiss : s.memo.lookup id = none) (hperform : earlier.perform id o c s = (.ok out, t))
    (hstays : ∀ n ∈ out.nodes, t.stays n = true) :
    ∃ events, earlier.runOperation id name (.operation o) c s =
      (.ok out, { t.recorded id out with events }) := by
  obtain ⟨events, hfire⟩ : ∃ events, earlier.fire id o out c
      (t.recorded id out) =
        (.ok (), { t.recorded id out with events }) :=
    fire_reports hcontrol hstays
  exact ⟨events, runOperation_ok hmiss hperform hfire⟩

end Earlier

/-! ## Going on from what is found -/

namespace State

/-- The regime of an evaluator at any time. -/
def advancing : Regime := (Conduct.onGraph fun _ => True).regime

theorem advancing_inv {s : State} : advancing.inv s ↔ Coherent (fun _ => True) s :=
  iff_of_eq (and_true _)

variable {c : Settings} {s : State}

theorem complete_advances (id : NodeId) :
    advancing.Ensures c s (Eval.complete id) fun _ _ => True :=
  (Eval.complete_conducted (Conduct.onGraph_lawful ⟨fun _ _ => trivial, fun _ _ _ _ => trivial⟩ c)
    id).conseq fun _ _ _ _ _ => trivial

theorem resolve_advances (id : NodeId) :
    advancing.Ensures c s (Earlier.whole.resolve id) fun _ _ => True :=
  (complete_advances id).bind (fun _ _ _ _ _ => .pure fun _ => trivial) fun _ _ _ _ _ => trivial

theorem inputs_advances (update : Update) (target source : NodeId) :
    advancing.Ensures c s (Earlier.whole.inputs update target source) fun _ _ => True := by
  refine (resolve_advances source).bind (fun v t _ _ _ => ?_) fun _ _ _ _ _ => trivial
  cases v with
  | none => exact .pure fun _ => trivial
  | some v =>
    dsimp only
    split
    · exact .pure fun _ => trivial
    · refine (resolve_advances target).bind (fun old _ _ _ _ => ?_) fun _ _ _ _ _ => trivial
      cases old <;> exact .pure fun _ => trivial

/-! ## How an assignment ends -/

/-- How an assignment ends that has found its inputs, or has not, when it was in the state `s`. -/
inductive Assigned (update : Update) (target : NodeId) (s : State) :
    Except Failure (Option (Value × Option Value)) → Except Failure Output → State → Prop
  | failed {found : Except Failure (Option (Value × Option Value))} {e : Failure} {t : State}
      (ht : t.graph = s.graph) : Assigned update target s found (.error e) t
  | deferred {n : NodeId} {t : State} (hn : n ∈ t.symbolic)
      (ht : t.graph.stored? = s.graph.stored?) :
      Assigned update target s (.ok none) (.ok (.node n)) t
  | written {found : Value × Option Value} {new w : Value} {node : Node} {stored : Option Value}
      {t : State} (hnew : Earlier.combined update found = .ok new)
      (hnode : s.graph.node? target = some node) (hkind : node.kind = .variable stored)
      (hcast : new.cast node.dtype = .ok w)
      (ht : t.graph.stored? = Function.update s.graph.stored? target (some w)) :
      Assigned update target s (.ok (some found)) (.ok (.value w)) t

variable {id target source : NodeId} {node : Node} {o : Operation} {update : Update}

/-- Results and reports do not count. -/
theorem Assigned.congr {found : Except Failure (Option (Value × Option Value))}
    {r : Except Failure Output} {t u : State} (h : Assigned update target s found r t)
    (hgraph : u.graph = t.graph) (hsymbolic : u.symbolic = t.symbolic) :
    Assigned update target s found r u := by
  cases h with
  | failed ht => exact .failed (hgraph.trans ht)
  | deferred hn ht => exact .deferred (hsymbolic ▸ hn) (hgraph ▸ ht)
  | written hnew hnode hkind hcast ht => exact .written hnew hnode hkind hcast (hgraph ▸ ht)

theorem Assigned.stays {found : Except Failure (Option (Value × Option Value))} {out : Output}
    {t : State} (h : Assigned update target s found (.ok out) t) :
    ∀ n ∈ out.nodes, t.stays n = true := by
  intro n hn
  cases h with
  | deferred hsymbolic =>
    cases List.mem_singleton.mp hn
    exact stays_iff.mpr (.inl hsymbolic)
  | written => cases hn

theorem defer_assigned (hnode : s.graph.node? id = some node) :
    Assigned update target s (.ok none) (Eval.defer id o c s).1 (Eval.defer id o c s).2 := by
  cases hsymbolic : s.isSymbolic id with
  | true =>
    rw [Eval.defer_run_symbolic hsymbolic]
    exact .deferred (by simpa [isSymbolic] using hsymbolic) rfl
  | false =>
    obtain ⟨g, copy, hadd⟩ := Graph.exists_addDeferred hnode o
    obtain ⟨r, -, hrun⟩ := Eval.defer_run (c := c) hsymbolic hadd
    rw [hrun]
    exact .deferred List.mem_cons_self (Graph.stored?_of_addDeferred hadd)

theorem write_assigned (hs : s.graph.WellFormed) {found : Value × Option Value} {new : Value}
    (hnew : Earlier.combined update found = .ok new) :
    Assigned update target s (.ok (some found)) (Eval.write update target new c s).1
      (Eval.write update target new c s).2 := by
  cases hstore : s.graph.store target new with
  | error e =>
    rw [Eval.write_run_error hstore]
    exact .failed rfl
  | ok stored =>
    obtain ⟨g, w⟩ := stored
    obtain ⟨node, stored, hnode, hkind, hcast, -⟩ := Graph.store_eq_ok hstore
    obtain ⟨node', hnode', hg⟩ := hs.store_eq hstore update
    cases hnode.symm.trans hnode'
    rw [Eval.write_run update hs hstore hnode]
    refine .written hnew hnode hkind hcast ?_
    rw [← Graph.stored?_of_store hstore, wrote_graph, Option.toList_some]
    exact congrArg Graph.stored? hg.symm

theorem conclude_assigned (hs : s.graph.WellFormed) (hnode : s.graph.node? id = some node)
    (found : Option (Value × Option Value)) :
    Assigned update target s (.ok found) (Earlier.conclude id o update target found c s).1
      (Earlier.conclude id o update target found c s).2 := by
  cases found with
  | none => exact defer_assigned hnode
  | some found =>
    rw [Earlier.conclude]
    cases hnew : Earlier.combined update found with
    | ok new => exact write_assigned hs hnew
    | error f => exact .failed rfl

/-- An assignment that has no result yet and is not retained. -/
structure Assignment (s : State) (id : NodeId) (node : Node) (o : Operation) (update : Update)
    (target source : NodeId) : Prop where
  found : s.graph.node? id = some node
  kind : node.kind = .operation o
  op : o.op = .control (.assign update)
  target : o.operands[0]? = some target
  source : o.operands[1]? = some source
  fresh : s.memo.lookup id = none
  active : s.context.isRetained id = false

/-- The state in which a node is run, once this is reported. -/
def entered (s : State) (node : Node) : State :=
  { s with events := s.events.push (.report (.entered node.kind.label node.name)) }

theorem Assignment.perform_eq {earlier : Earlier}
    (h : s.Assignment id node o update target source) :
    earlier.perform id o =
      earlier.inputs update target source >>= Earlier.conclude id o update target := by
  rw [← Earlier.assign_eq h.target h.source, Earlier.perform, h.op]

/-- Running an assignment comes to what is left to do once the inputs are found or not found. -/
theorem Assignment.run_assigned (hs : Coherent (fun _ => True) s)
    (h : s.Assignment id node o update target source) :
    let seen := Earlier.whole.inputs update target source c (s.entered node)
    let r := Eval.run id c s
    Assigned update target seen.2 seen.1 r.1 r.2 := by
  -- Nodes below the bound of the assignment are evaluated as any node is.
  have hrun : Eval.run id c s =
      Earlier.whole.runOperation id node.name (.operation o) c (s.entered node) :=
    (Earlier.eq_of_consults (Earlier.runNode_consults hs)).trans
      (Earlier.runNode_operation h.active h.found h.kind)
  have hcontrol : o.op.isControl = true := by rw [h.op]; rfl
  have hmiss : (s.entered node).memo.lookup id = none := h.fresh
  have hentered : Coherent (fun _ => True) (s.entered node) := hs.with_events _
  obtain ⟨hseen, hadvances, -⟩ := inputs_advances (c := c) update target source
    (advancing_inv.mpr hentered)
  dsimp only
  rw [hrun]
  cases hinputs : Earlier.whole.inputs update target source c (s.entered node) with
  | mk found t =>
    rw [hinputs] at hseen hadvances
    cases found with
    | error e =>
      have hperform := (congrFun (congrFun h.perform_eq c) (s.entered node)).trans
        (Eval.bind_run_error hinputs)
      rw [Earlier.runOperation_error hmiss hperform]
      exact .failed rfl
    | ok found =>
      have hperform := (congrFun (congrFun h.perform_eq c) (s.entered node)).trans
        (Eval.bind_run_ok hinputs)
      have hnode := Advances.graph hadvances |>.operation h.found h.kind
      have hends : Assigned update target t (.ok found)
          (Earlier.conclude id o update target found c t).1
          (Earlier.conclude id o update target found c t).2 :=
        conclude_assigned (advancing_inv.mp hseen).graph hnode found
      cases hconclude : Earlier.conclude id o update target found c t with
      | mk r u =>
        rw [hconclude] at hperform hends
        cases r with
        | error e =>
          rw [Earlier.runOperation_error hmiss hperform]
          cases hends with
          | failed hu => exact .failed hu
        | ok out =>
          obtain ⟨events, hoperation⟩ :=
            Earlier.runOperation_control hcontrol hmiss hperform hends.stays
          rw [hoperation]
          exact hends.congr rfl rfl

/-! ## Atomic writes -/

/-- Whatever calls were made, the next one begins in a coherent state. -/
theorem coherent_after {g : Graph} (hg : g.Reached) (context : Context) (config : Config)
    (spare : UInt64) (c : Settings) (session : Session) (context' : Context) :
    Coherent (fun _ => True)
      { (State.start lib g context config spare).after c session with context := context' } :=
  ((after_growth session
    (coherent_start lib hg.wellFormed context config spare)).1).with_context context'

/-- What a variable was found to hold is what is stored in it. -/
theorem stored?_of_resolve {t : State} {v : Value} (hs : Coherent (fun _ => True) s)
    (hlt : target.index < s.graph.size)
    (h : Earlier.whole.resolve target c s = (.ok (some v), t)) (hvar : t.graph.IsVariable target) :
    t.graph.stored? target = some v := by
  obtain ⟨out, hrun, hv⟩ := Earlier.resolve_eq_ok.mp h
  have hrun : Eval.complete target c s = (.ok out, t) := hrun
  have hadvances := (complete_advances (c := c) target (advancing_inv.mpr hs)).2.1
  rw [hrun] at hadvances
  obtain ⟨node, stored, hnode, hkind⟩ := hvar.before (Advances.graph hadvances) hlt
  cases hretained : s.context.isRetained target with
  | true =>
    cases (Eval.complete_retained hretained).symm.trans hrun
    cases hv
  | false =>
    -- Evaluating a variable writes nothing, so that what was found is still stored in it.
    obtain ⟨u, hrun', hu⟩ := Eval.complete_variable (c := c) hretained hnode hkind
    obtain ⟨hheld, rfl⟩ := Prod.mk.inj (hrun'.symm.trans hrun)
    cases stored with
    | none => cases hheld
    | some w =>
      cases hheld
      rw [Graph.stored?, hu, hnode, Option.bind_some, hkind]
      exact hv

theorem Assignment.target_lt (h : s.Assignment id node o update target source) {t : State}
    (ht : Coherent (fun _ => True) t) (hst : Advances s t) : target.index < t.graph.size := by
  have hnode := Advances.graph hst |>.operation h.found h.kind
  have hlt := ht.graph.lt_of_operation hnode h.kind target
    (Operation.mem_references_of_operand h.target)
  exact Nat.lt_trans hlt (Graph.lt_size_of_node? hnode)

/-- What an assignment makes of what it has found: the new value is that of the source, or comes of
combining it with what is stored in the target. -/
theorem Assignment.combined_stored (hs : Coherent (fun _ => True) s)
    (h : s.Assignment id node o update target source) {v new : Value} {old : Option Value}
    {u : State} (hinputs : Earlier.whole.inputs update target source c (s.entered node) =
      (.ok (some (v, old)), u))
    (hnew : Earlier.combined update (v, old) = .ok new) (hvar : u.graph.IsVariable target) :
    match Earlier.operator? update with
    | none => new = v
    | some op => ∃ before, u.graph.stored? target = some before ∧
        Value.binary op before v = .ok new := by
  obtain ⟨t, hsource, hold⟩ := Earlier.inputs_eq_ok hinputs
  obtain ⟨hop, rfl, rfl⟩ | ⟨op, before, hop, rfl, htarget⟩ := hold
  · rw [hop]
    simp only [Earlier.combined, hop] at hnew
    cases hnew
    rfl
  · rw [hop]
    simp only [Earlier.combined, hop] at hnew
    have hentered : Coherent (fun _ => True) (s.entered node) := hs.with_events _
    obtain ⟨ht, hst, -⟩ := resolve_advances (c := c) source (advancing_inv.mpr hentered)
    rw [hsource] at ht hst
    have ht := advancing_inv.mp ht
    have hlt := h.target_lt ht ((Advances.with_events s _).trans hst)
    exact ⟨before, stored?_of_resolve ht hlt htarget hvar, hnew⟩

/-- However an evaluator was used, an assignment without a result that is not retained looks at its
inputs and then stores a value in its target, or nothing at all. If it comes to a value then the
target is a variable, and this value is stored in it and in nothing else: the value of the source,
or what comes of it and of what was stored in the target, with the element type of the target.
Otherwise it fails or is left for later, and all variables are as the inputs left them. -/
theorem assigns_atomically {g : Graph} (hg : g.Reached) (context : Context) (config : Config)
    (spare : UInt64) (c : Settings) (session : Session) (context' : Context) {id : NodeId}
    {node : Node} {o : Operation} {update : Update} {target source : NodeId}
    (h : Assignment { (State.start lib g context config spare).after c session with
      context := context' } id node o update target source) :
    let s := { (State.start lib g context config spare).after c session with context := context' }
    let seen := Earlier.whole.inputs update target source c (s.entered node)
    let r := Eval.run id c s
    (∀ w, r.1 = .ok (.value w) → ∃ v old holder stored new,
      seen.1 = .ok (some (v, old)) ∧
      seen.2.graph.node? target = some holder ∧ holder.kind = .variable stored ∧
      (match Earlier.operator? update with
        | none => new = v
        | some op => ∃ before, seen.2.graph.stored? target = some before ∧
            Value.binary op before v = .ok new) ∧
      new.cast holder.dtype = .ok w ∧
      r.2.graph.stored? = Function.update seen.2.graph.stored? target (some w)) ∧
    (∀ n, r.1 = .ok (.node n) →
      n ∈ r.2.symbolic ∧ r.2.graph.stored? = seen.2.graph.stored?) ∧
    (∀ e, r.1 = .error e → r.2.graph.stored? = seen.2.graph.stored?) ∧
    ∀ outs, r.1 ≠ .ok (.list outs) := by
  intro s seen r
  have hs : Coherent (fun _ => True) s :=
    coherent_after lib hg context config spare c session context'
  have hends : Assigned update target seen.2 seen.1 r.1 r.2 := h.run_assigned hs
  -- What the operation ends with tells in which way it came to an end.
  refine ⟨fun w hw => ?_, fun n hn => ?_, fun e he => ?_, fun outs houts => ?_⟩
  · rw [hw] at hends
    generalize hfound : seen.1 = found at hends
    cases hends with
    | @written found new _ holder stored _ hnew hholder hkind hcast ht =>
      refine ⟨found.1, found.2, holder, stored, new, rfl, hholder, hkind, ?_, hcast, ht⟩
      exact h.combined_stored hs (Prod.ext hfound rfl) hnew ⟨holder, stored, hholder, hkind⟩
  · rw [hn] at hends
    generalize hfound : seen.1 = found at hends
    cases hends with
    | deferred hsymbolic ht => exact ⟨hsymbolic, ht⟩
  · rw [he] at hends
    generalize hfound : seen.1 = found at hends
    cases hends with
    | failed ht => exact congrArg Graph.stored? ht
  · rw [houts] at hends
    generalize hfound : seen.1 = found at hends
    cases hends

/-- A variable is set to what another one was set to by the source. -/
theorem assigns_atomically_after_source :
    let g := Graph.ofSteps [.variable "u" .int32 (some (.scalar (.int 0))),
      .variable "v" .int32 (some (.scalar (.int 0))), .constant "one" (.scalar (.int 1)),
      .operation "first" ⟨.control (.assign .set), [⟨0⟩, ⟨2⟩], .empty⟩,
      .operation "second" ⟨.control (.assign .set), [⟨1⟩, ⟨3⟩], .empty⟩]
    let c : Settings := ⟨32, .cpu⟩
    let s := { (State.start .standard g .empty .standard 0).after c [] with context := .empty }
    ∃ node o, Assignment s ⟨4⟩ node o .set ⟨1⟩ ⟨3⟩ ∧
      let seen := Earlier.whole.inputs .set ⟨1⟩ ⟨3⟩ c (s.entered node)
      let r := Eval.run ⟨4⟩ c s
      seen.2.graph.stored? ⟨0⟩ = some (.scalar (.int 1)) ∧
        seen.2.graph.stored? ⟨1⟩ = some (.scalar (.int 0)) ∧
        r.1 = .ok (.value (.scalar (.int 1))) ∧
        r.2.graph.stored? =
          Function.update seen.2.graph.stored? ⟨1⟩ (some (.scalar (.int 1))) := by
  intro g c s
  have h : Assignment s ⟨4⟩ _ _ .set ⟨1⟩ ⟨3⟩ := ⟨rfl, rfl, rfl, rfl, rfl, rfl, rfl⟩
  obtain ⟨hvalue, -⟩ := assigns_atomically .standard (Graph.built_ofSteps _).reached .empty
    .standard 0 c [] .empty h
  obtain ⟨-, -, -, -, -, -, -, -, -, -, hstored⟩ := hvalue (.scalar (.int 1)) rfl
  exact ⟨_, _, h, rfl, rfl, rfl, hstored⟩

/-! ## Symbolic operands -/

/-- A node that is retained, or in the result of which something is left when it is evaluated in the
state `s`. -/
def Symbolic (c : Settings) (s : State) (id : NodeId) : Prop :=
  s.context.isRetained id = true ∨
    ∃ out, (Eval.complete id c s).1 = .ok out ∧ out.toValue? = none

theorem Symbolic.resolve (h : s.Symbolic c id) :
    Earlier.whole.resolve id c s = (.ok none, (Eval.complete id c s).2) := by
  refine Earlier.resolve_eq_ok.mpr ?_
  rcases h with hretained | ⟨out, hrun, hnone⟩
  · have hrun := Eval.complete_retained (c := c) hretained
    exact ⟨.node id, by rw [hrun]; exact hrun, rfl⟩
  · exact ⟨out, Prod.ext hrun rfl, hnone⟩

/-- A variable is symbolic just if it is retained. -/
theorem Symbolic.isRetained (h : s.Symbolic c id) (hvar : s.graph.IsVariable id) :
    s.context.isRetained id = true := by
  obtain ⟨node, stored, hnode, hkind⟩ := hvar
  by_contra hretained
  obtain ⟨t, hrun, -⟩ := Eval.complete_variable (c := c) (by simpa using hretained) hnode hkind
  have hresolve := h.resolve
  rw [hrun] at hresolve
  obtain ⟨out, hout, hnone⟩ := Earlier.resolve_eq_ok.mp hresolve
  have hheld := congrArg Prod.fst (hrun.symm.trans hout)
  cases stored with
  | none => cases hheld
  | some v =>
    cases hheld
    cases hnone

/-- If the inputs are found although an operand is symbolic, then it is the target, a retained
variable at which the update does not look. -/
theorem Assignment.retained_of_found (hs : Coherent (fun _ => True) s)
    (h : s.Assignment id node o update target source) {v : Value} {old : Option Value} {u : State}
    (hinputs : Earlier.whole.inputs update target source c (s.entered node) =
      (.ok (some (v, old)), u))
    (hsymbolic : (s.entered node).Symbolic c source ∨
      (Eval.complete source c (s.entered node)).2.Symbolic c target)
    (hvar : u.graph.IsVariable target) :
    update = .set ∧ s.context.isRetained target = true ∧ s.graph.IsVariable target ∧
      ∃ out, (Eval.complete source c (s.entered node)).1 = .ok out ∧ out.toValue? = some v := by
  obtain ⟨t, hsource, hold⟩ := Earlier.inputs_eq_ok hinputs
  obtain ⟨out, hrun, hv⟩ := Earlier.resolve_eq_ok.mp hsource
  have hrun : Eval.complete source c (s.entered node) = (.ok out, t) := hrun
  have htarget : t.Symbolic c target := by
    rw [hrun] at hsymbolic
    refine hsymbolic.resolve_left fun hsource' => ?_
    cases hsource.symm.trans hsource'.resolve
  obtain ⟨hop, -, rfl⟩ | ⟨op, before, hop, -, htarget'⟩ := hold
  · have hset : update = .set := by
      cases update with
      | set => rfl
      | _ => cases hop
    have hentered : Coherent (fun _ => True) (s.entered node) := hs.with_events _
    obtain ⟨-, hst, -⟩ := complete_advances (c := c) source (advancing_inv.mpr hentered)
    rw [hrun] at hst
    have hst : Advances s u := (Advances.with_events s _).trans hst
    -- Neither is a node made a variable on the way, nor is it retained.
    have hretained := hst.isRetained target ▸ htarget.isRetained hvar
    exact ⟨hset, hretained, hvar.before hst.graph (h.target_lt hs (Advances.refl s)), out,
      congrArg Prod.fst hrun, hv⟩
  · cases htarget'.symm.trans htarget.resolve

/-- However an evaluator was used, an assignment without a result that is not retained is left for
later if it comes to anything at all, and writes nothing itself, when one of its operands is
symbolic. This is not said of an update that does not look at the old value of its target, if the
target is a retained variable and the source has a value. -/
theorem assigns_later {g : Graph} (hg : g.Reached) (context : Context) (config : Config)
    (spare : UInt64) (c : Settings) (session : Session) (context' : Context) {id : NodeId}
    {node : Node} {o : Operation} {update : Update} {target source : NodeId}
    (h : Assignment { (State.start lib g context config spare).after c session with
      context := context' } id node o update target source) :
    let s := { (State.start lib g context config spare).after c session with context := context' }
    let t := (Eval.complete source c (s.entered node)).2
    let seen := Earlier.whole.inputs update target source c (s.entered node)
    let r := Eval.run id c s
    (s.entered node).Symbolic c source ∨ t.Symbolic c target →
    (update = .set → context'.isRetained target = true → s.graph.IsVariable target →
      ∀ out, (Eval.complete source c (s.entered node)).1 = .ok out → out.toValue? = none) →
    (∀ out, r.1 = .ok out → ∃ n ∈ r.2.symbolic, out = .node n) ∧
      r.2.graph.stored? = seen.2.graph.stored? := by
  intro s t seen r hsymbolic hplain
  have hs : Coherent (fun _ => True) s :=
    coherent_after lib hg context config spare c session context'
  have hends : Assigned update target seen.2 seen.1 r.1 r.2 := h.run_assigned hs
  generalize hfound : seen.1 = found at hends
  generalize r.1 = outcome at hends ⊢
  cases hends with
  | failed ht => exact ⟨nofun, congrArg Graph.stored? ht⟩
  | @deferred n _ hn ht =>
    refine ⟨fun out hout => ⟨n, hn, ?_⟩, ht⟩
    cases hout
    rfl
  | @written found _ _ holder stored _ _ hholder hkind _ _ =>
    -- What is written calls for inputs, and they are found in the excluded case only.
    obtain ⟨hset, hretained, hvar, out, hout, hv⟩ := h.retained_of_found hs
      (Prod.ext hfound rfl) hsymbolic ⟨holder, stored, hholder, hkind⟩
    cases (hplain hset hretained hvar out hout).symm.trans hv

/-- An addition to a retained variable. -/
theorem assigns_later_add :
    let g := Graph.ofSteps [.variable "v" .int32 (some (.scalar (.int 0))),
      .constant "one" (.scalar (.int 1)),
      .operation "raise" ⟨.control (.assign .add), [⟨0⟩, ⟨1⟩], .empty⟩]
    let c : Settings := ⟨32, .cpu⟩
    let context := Context.empty.retain ⟨0⟩
    let s := { (State.start .standard g .empty .standard 0).after c [] with context }
    ∃ node o, Assignment s ⟨2⟩ node o .add ⟨0⟩ ⟨1⟩ ∧
      (Eval.complete ⟨1⟩ c (s.entered node)).2.Symbolic c ⟨0⟩ ∧
      let r := Eval.run ⟨2⟩ c s
      r.1 = .ok (.node ⟨3⟩) ∧ ⟨3⟩ ∈ r.2.symbolic ∧
        r.2.graph.stored? ⟨0⟩ = some (.scalar (.int 0)) := by
  intro g c context s
  have h : Assignment s ⟨2⟩ _ _ .add ⟨0⟩ ⟨1⟩ := ⟨rfl, rfl, rfl, rfl, rfl, rfl, rfl⟩
  obtain ⟨hdeferred, hstored⟩ := assigns_later .standard (Graph.built_ofSteps _).reached .empty
    .standard 0 c [] context h (.inr (.inl rfl)) nofun
  obtain ⟨n, hn, heq⟩ := hdeferred (.node ⟨3⟩) rfl
  cases heq
  exact ⟨_, _, h, .inl rfl, rfl, hn, congrFun hstored ⟨0⟩⟩

/-- A retained variable is set nevertheless. -/
theorem assigns_later_fails :
    ¬ ∀ (g : Graph), g.Reached → ∀ (lib : Library Rng) (context : Context) (config : Config)
      (spare : UInt64) (c : Settings) (session : Session) (context' : Context) (id : NodeId)
      (node : Node) (o : Operation) (update : Update) (target source : NodeId),
      let s := { (State.start lib g context config spare).after c session with context := context' }
      Assignment s id node o update target source →
      let t := (Eval.complete source c (s.entered node)).2
      let seen := Earlier.whole.inputs update target source c (s.entered node)
      let r := Eval.run id c s
      (s.entered node).Symbolic c source ∨ t.Symbolic c target →
      (∀ out, r.1 = .ok out → ∃ n ∈ r.2.symbolic, out = .node n) ∧
        r.2.graph.stored? = seen.2.graph.stored? := by
  intro h
  let g := Graph.ofSteps [.variable "v" .int32 (some (.scalar (.int 0))),
    .constant "one" (.scalar (.int 1)),
    .operation "set" ⟨.control (.assign .set), [⟨0⟩, ⟨1⟩], .empty⟩]
  obtain ⟨hdeferred, -⟩ := h g (Graph.built_ofSteps _).reached .standard .empty .standard 0
    ⟨32, .cpu⟩ [] (Context.empty.retain ⟨0⟩) ⟨2⟩ _ _ .set ⟨0⟩ ⟨1⟩
    ⟨rfl, rfl, rfl, rfl, rfl, rfl, rfl⟩ (.inr (.inl rfl))
  obtain ⟨n, -, heq⟩ := hdeferred (.value (.scalar (.int 1))) rfl
  cases heq

end State

end Dataflow
