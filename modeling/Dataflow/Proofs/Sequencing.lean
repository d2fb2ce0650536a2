import Dataflow.Proofs.Branching

/-!
# Groups of assignments

A group of assignments from literals to variables is settled like a ledger. Each assignment is
posted when it comes up for the first time: the new value is computed from what the variable holds
by then, stored, and noted as the result. When it comes up again the result is looked up. The first
posting that is refused ends the evaluation, and those before it remain.
-/

namespace Dataflow

variable (lib : Library Rng)

open State

/-! ## Ledgers -/

/-- What an assignment of a literal to a variable comes to. -/
structure Posting where
  update : Update
  target : NodeId
  value : Value
  /-- The element type of the target. -/
  dtype : DType

/-- The old value updated. -/
def Update.combine (update : Update) (old v : Value) : Except Fault Value :=
  match update with
  | .set => .ok v
  | .add => Value.binary (.arithmetic .add) old v
  | .sub => Value.binary (.arithmetic .sub) old v

/-- What the target holds afterwards. -/
def Posting.next (p : Posting) (old : Value) : Except Fault Value := do
  (← p.update.combine old p.value).cast p.dtype

/-- What the variables hold, and the results of the assignments so far, the latest first. -/
structure Ledger where
  held : NodeId → Value
  results : List (NodeId × Value)

namespace Ledger

variable (posting : NodeId → Posting)

/-- An assignment comes up: for the first time it is posted, and after that it is looked up. A
refusal leaves the ledger as it is. -/
def post (m : NodeId) (l : Ledger) : Except (NodeId × Fault) Value × Ledger :=
  match l.results.lookup m with
  | some v => (.ok v, l)
  | none =>
    match (posting m).next (l.held (posting m).target) with
    | .error f => (.error (m, f), l)
    | .ok v => (.ok v, ⟨Function.update l.held (posting m).target v, (m, v) :: l.results⟩)

/-- Assignments come up one after another, until one of them is refused. -/
def settle : List NodeId → Ledger → Except (NodeId × Fault) (List Value) × Ledger
  | [], l => (.ok [], l)
  | m :: ms, l =>
    match l.post posting m with
    | (.error refusal, l) => (.error refusal, l)
    | (.ok v, l) =>
      match settle ms l with
      | (.error refusal, l) => (.error refusal, l)
      | (.ok vs, l) => (.ok (v :: vs), l)

variable {posting} {l : Ledger} {m : NodeId} {v : Value} {f : Fault}

theorem post_known (hknown : l.results.lookup m = some v) : l.post posting m = (.ok v, l) := by
  rw [post, hknown]

theorem post_error (hfirst : l.results.lookup m = none)
    (hnext : (posting m).next (l.held (posting m).target) = .error f) :
    l.post posting m = (.error (m, f), l) := by
  simp only [post, hfirst, hnext]

theorem post_ok (hfirst : l.results.lookup m = none)
    (hnext : (posting m).next (l.held (posting m).target) = .ok v) : l.post posting m =
      (.ok v, ⟨Function.update l.held (posting m).target v, (m, v) :: l.results⟩) := by
  simp only [post, hfirst, hnext]

end Ledger

namespace Graph

theorem store_of_cast_error {g : Graph} {id : NodeId} {node : Node} {stored : Option Value}
    {v : Value} {f : Fault} (hnode : g.node? id = some node) (hkind : node.kind = .variable stored)
    (hcast : v.cast node.dtype = .error f) : g.store id v = .error (.fault f) := by
  simp [store, outcome, on_store, hnode, hkind, hcast]

/-- The ledger before anything is posted. -/
def ledger (g : Graph) : Ledger := ⟨fun id => (g.stored? id).getD default, []⟩

/-- The node is an assignment of a literal to an initialized variable. -/
structure Posts (g : Graph) (m : NodeId) (p : Posting) : Prop where
  assignment : ∃ node o source literal, g.node? m = some node ∧ node.kind = .operation o ∧
    o.op = .control (.assign p.update) ∧ o.operands[0]? = some p.target ∧
    o.operands[1]? = some source ∧ g.node? source = some literal ∧ literal.kind = .literal p.value
  target : ∃ holder old, g.node? p.target = some holder ∧ holder.kind = .variable (some old) ∧
    holder.dtype = p.dtype

end Graph

/-! ## Nodes that hold a value -/

section Held

variable {c : Settings} {s t : State} {id : NodeId} {node : Node} {v : Value}

theorem Earlier.runNode_held {earlier : Earlier} (hactive : s.context.isRetained id = false)
    (hnode : s.graph.node? id = some node) (hheld : node.kind.stored? = some v) :
    ∃ t, earlier.runNode id c s = (.ok (.value v), t) ∧ Alike s t := by
  unfold Earlier.runNode
  rw [Eval.state_bind_run, if_neg (by simp [hactive]),
    Eval.bind_run_ok (Eval.node_run_some hnode), Eval.bind_run_ok (Eval.report_run _)]
  cases hkind : node.kind with
  | literal w =>
    rw [hkind] at hheld
    cases hheld
    exact ⟨_, rfl, .with_events s _⟩
  | «variable» stored =>
    rw [hkind] at hheld
    cases hheld
    have hread := Alike.recordRead s id
    exact ⟨_, rfl, rfl, rfl, rfl, rfl, hread.bindings, hread.retained⟩
  | _ =>
    rw [hkind] at hheld
    cases hheld

theorem Eval.complete_of_run_error {e : Failure} (hrun : Eval.run id c s = (.error e, t)) :
    Eval.complete id c s = (.error e, t) :=
  have hrun : (Earlier.below id.index).runNode id c s = (.error e, t) := hrun
  Eval.bind_run_error hrun

/-- An evaluation that leaves no node in its result ends when the node is run. -/
theorem Eval.complete_of_run_ok {out : Output} (hrun : Eval.run id c s = (.ok out, t))
    (hnodes : out.nodes = []) : Eval.complete id c s = (.ok out, t) := by
  have hrun : (Earlier.below id.index).runNode id c s = (.ok out, t) := hrun
  change (Earlier.below id.index).completeNode id c s = _
  refine (Eval.bind_run_ok hrun).trans ?_
  rw [Eval.settings_bind_run, Earlier.force_run_of_nodes_nil hnodes]

theorem Earlier.resolve_held (hactive : s.context.isRetained id = false)
    (hnode : s.graph.node? id = some node) (hheld : node.kind.stored? = some v) :
    ∃ t, Earlier.whole.resolve id c s = (.ok (some v), t) ∧ Alike s t := by
  obtain ⟨t, hrun, hst⟩ : ∃ t, Eval.run id c s = (.ok (.value v), t) ∧ Alike s t :=
    Earlier.runNode_held hactive hnode hheld
  exact ⟨t, Earlier.resolve_eq_ok.mpr ⟨_, Eval.complete_of_run_ok hrun rfl, rfl⟩, hst⟩

end Held

namespace State

variable {g : Graph} {l l' : Ledger} {c : Settings} {s t : State} {m : NodeId} {p : Posting}

/-! ## Keeping the ledger -/

/-- What an evaluator has come to is in the ledger. -/
structure Books (g : Graph) (l : Ledger) (s : State) : Prop where
  coherent : Coherent (fun _ => True) s
  graph : g.Evolves s.graph
  retained : s.context.retained = []
  held : ∀ id, s.graph.stored? id = (g.stored? id).map fun _ => l.held id
  memo : s.memo = l.results.map fun r => (r.1, .value r.2)

namespace Books

theorem active (h : Books g l s) (id : NodeId) : s.context.isRetained id = false := by
  simp [Context.isRetained, h.retained]

theorem alike (h : Books g l s) (hst : Alike s t) : Books g l t where
  coherent := hst.coherent h.coherent
  graph := hst.graph ▸ h.graph
  retained := hst.retained.trans h.retained
  held := hst.graph ▸ h.held
  memo := hst.memo.trans h.memo

theorem lookup (h : Books g l s) (m : NodeId) :
    s.memo.lookup m = (l.results.lookup m).map .value := by
  rw [h.memo]
  induction l.results with
  | nil => rfl
  | cons r results ih =>
    rw [List.map_cons, List.lookup_cons, List.lookup_cons, ih]
    cases m == r.1 <;> rfl

/-- Evaluations keep to the nodes of the graph, so that the ledger is only about what is stored and
what is remembered. -/
theorem of_complete (h : Books g l s) {r : Except Failure Output}
    (hrun : Eval.complete m c s = (r, t))
    (hheld : ∀ id, t.graph.stored? id = (g.stored? id).map fun _ => l'.held id)
    (hmemo : t.memo = l'.results.map fun r => (r.1, .value r.2)) : Books g l' t := by
  obtain ⟨hcoherent, hadvances, -⟩ :=
    complete_advances (c := c) m (advancing_inv.mpr h.coherent)
  rw [hrun] at hcoherent hadvances
  have hadvances : Advances s t := hadvances
  exact ⟨advancing_inv.mp hcoherent, h.graph.trans hadvances.graph,
    hadvances.retained.trans h.retained, hheld, hmemo⟩

/-- The target still is a variable of its element type, and holds what is in the ledger. -/
theorem target (h : Books g l s) (hposts : g.Posts m p) : ∃ holder,
    s.graph.node? p.target = some holder ∧ holder.kind = .variable (some (l.held p.target)) ∧
      holder.dtype = p.dtype := by
  obtain ⟨holder, old, hholder, hkind, hdtype⟩ := hposts.target
  obtain ⟨holder', hholder', hbare⟩ := h.graph.node? hholder
  obtain ⟨stored, hkind'⟩ := Node.exists_variable_of_bare hbare hkind
  have hheld := h.held p.target
  rw [Graph.stored?, Graph.stored?, hholder, hholder', Option.bind_some, Option.bind_some, hkind,
    hkind'] at hheld
  have hheld : stored = some (l.held p.target) := hheld
  exact ⟨holder', hholder', hheld ▸ hkind', (Node.dtype_eq_of_bare hbare).trans hdtype⟩

/-- An assignment that comes up for the first time. -/
theorem assignment (h : Books g l s) (hposts : g.Posts m p) (hmiss : l.results.lookup m = none) :
    ∃ node o source literal, s.Assignment m node o p.update p.target source ∧
      s.graph.node? source = some literal ∧ literal.kind = .literal p.value := by
  obtain ⟨node, o, source, literal, hnode, hkind, hop, htarget, hsource, hliteral, hvalue⟩ :=
    hposts.assignment
  obtain ⟨literal', hliteral', hbare⟩ := h.graph.node? hliteral
  obtain rfl : literal' = literal :=
    Node.eq_of_bare_eq_of_not_variable hbare fun stored => by simp [hvalue]
  refine ⟨node, o, source, literal', ?_, hliteral', hvalue⟩
  exact ⟨h.graph.operation hnode hkind, hkind, hop, htarget, hsource, by rw [h.lookup, hmiss]; rfl,
    h.active m⟩

/-- An assignment finds the literal, and what is in the ledger if it looks for it. -/
theorem inputs (h : Books g l s) (hposts : g.Posts m p) {source : NodeId} {literal : Node}
    (hliteral : s.graph.node? source = some literal) (hvalue : literal.kind = .literal p.value) :
    ∃ old t, Earlier.whole.inputs p.update p.target source c s = (.ok (some (p.value, old)), t) ∧
      Earlier.combined p.update (p.value, old) = p.update.combine (l.held p.target) p.value ∧
      Alike s t := by
  obtain ⟨t, hsource, hst⟩ := Earlier.resolve_held (c := c) (h.active source) hliteral
    (v := p.value) (by rw [hvalue]; rfl)
  obtain ⟨holder, hholder, hkind, -⟩ := (h.alike hst).target hposts
  obtain ⟨u, htarget, htu⟩ := Earlier.resolve_held (c := c) ((h.alike hst).active p.target) hholder
    (v := l.held p.target) (by rw [hkind]; rfl)
  unfold Earlier.inputs
  rw [Eval.bind_run_ok hsource]
  cases hupdate : p.update with
  | set => exact ⟨none, t, rfl, rfl, hst⟩
  | add => exact ⟨some _, u, Eval.bind_run_ok htarget, rfl, hst.trans htu⟩
  | sub => exact ⟨some _, u, Eval.bind_run_ok htarget, rfl, hst.trans htu⟩

/-- A new value is stored with the element type of the target, or refused. -/
theorem write (h : Books g l s) (hposts : g.Posts m p) (new : Value) :
    match new.cast p.dtype with
    | .error f => Eval.write p.update p.target new c s = (.error (.fault f), s)
    | .ok v => ∃ t, Eval.write p.update p.target new c s = (.ok (.value v), t) ∧
        t.memo = s.memo ∧ t.graph.stored? = Function.update s.graph.stored? p.target (some v) := by
  obtain ⟨holder, hholder, hkind, hdtype⟩ := h.target hposts
  cases hcast : new.cast p.dtype with
  | error f =>
    exact Eval.write_run_error (Graph.store_of_cast_error hholder hkind (hdtype ▸ hcast))
  | ok v =>
    obtain ⟨g', hstore⟩ := Graph.store_of_variable hholder hkind (hdtype ▸ hcast)
    obtain ⟨holder', hholder', hg'⟩ := h.coherent.graph.store_eq hstore p.update
    cases hholder.symm.trans hholder'
    refine ⟨_, Eval.write_run p.update h.coherent.graph hstore hholder, rfl, ?_⟩
    rw [← Graph.stored?_of_store hstore, wrote_graph, Option.toList_some]
    exact congrArg Graph.stored? hg'.symm

/-- What an assignment stores is the next entry of its target. -/
theorem conclude (h : Books g l s) (hposts : g.Posts m p) {o : Operation} {old : Option Value}
    (hcombined : Earlier.combined p.update (p.value, old) =
      p.update.combine (l.held p.target) p.value) :
    match p.next (l.held p.target) with
    | .error f => Earlier.conclude m o p.update p.target (some (p.value, old)) c s =
        (.error (.fault f), s)
    | .ok v => ∃ t, Earlier.conclude m o p.update p.target (some (p.value, old)) c s =
        (.ok (.value v), t) ∧ t.memo = s.memo ∧
          t.graph.stored? = Function.update s.graph.stored? p.target (some v) := by
  rw [Posting.next]
  cases hnew : p.update.combine (l.held p.target) p.value with
  | error f =>
    simp only [Earlier.conclude, hcombined, hnew]
    rfl
  | ok new =>
    simp only [Earlier.conclude, hcombined, hnew]
    exact h.write hposts new

theorem update_held (h : Books g l s) (hposts : g.Posts m p) (v : Value) (id : NodeId) :
    Function.update s.graph.stored? p.target (some v) id =
      (g.stored? id).map fun _ => Function.update l.held p.target v id := by
  by_cases hid : id = p.target
  · subst hid
    obtain ⟨holder, old, hholder, hkind, -⟩ := hposts.target
    rw [Function.update_self, Function.update_self, Graph.stored?, hholder, Option.bind_some, hkind]
    rfl
  · rw [Function.update_of_ne hid, Function.update_of_ne hid, h.held]

/-- An assignment that comes up again. -/
theorem complete_hit (h : Books g l s) (hposts : g.Posts m p) {v : Value}
    (hknown : l.results.lookup m = some v) :
    ∃ t, Eval.complete m c s = (.ok (.value v), t) ∧ Alike s t := by
  obtain ⟨node, o, -, -, hnode, hkind, -⟩ := hposts.assignment
  have hlookup : (s.entered node).memo.lookup m = some (.value v) :=
    (h.lookup m).trans (congrArg (Option.map _) hknown)
  have hrun := (run_operation (c := c) h.coherent (h.graph.operation hnode hkind) hkind
    (h.active m)).trans (Earlier.runOperation_hit hlookup)
  exact ⟨_, Eval.complete_of_run_ok hrun rfl, rfl, rfl, rfl, rfl, rfl, rfl⟩

/-- What an assignment that comes up for the first time comes to. -/
theorem complete_miss (h : Books g l s) (hposts : g.Posts m p)
    (hmiss : l.results.lookup m = none) :
    match p.next (l.held p.target) with
    | .error f => ∃ t, Eval.complete m c s = (.error (t.graph.wrap m (.fault f)), t) ∧ Books g l t
    | .ok v => ∃ t, Eval.complete m c s = (.ok (.value v), t) ∧
        Books g ⟨Function.update l.held p.target v, (m, v) :: l.results⟩ t := by
  obtain ⟨node, o, source, literal, hassignment, hliteral, hvalue⟩ := h.assignment hposts hmiss
  have hentered : Books g l (s.entered node) := h.alike (.with_events s _)
  obtain ⟨old, t, hinputs, hcombined, hst⟩ := hentered.inputs (c := c) hposts hliteral hvalue
  -- Nothing is written before the new value is known: a refusal leaves the books as they are.
  have ht : Books g l t := hentered.alike hst
  have hconclude := ht.conclude (c := c) hposts (o := o) hcombined
  have hperform : Earlier.whole.perform m o c (s.entered node) =
      Earlier.conclude m o p.update p.target (some (p.value, old)) c t :=
    (congrFun (congrFun hassignment.perform_eq c) (s.entered node)).trans
      (Eval.bind_run_ok hinputs)
  have hrun := run_operation (c := c) h.coherent hassignment.found hassignment.kind
    hassignment.active
  have hfresh : (s.entered node).memo.lookup m = none := hassignment.fresh
  have hcontrol : o.op.isControl = true := by rw [hassignment.op]; rfl
  cases hnext : p.next (l.held p.target) with
  | error f =>
    rw [hnext] at hconclude
    have hrun : Eval.run m c s = (.error (t.graph.wrap m (.fault f)), t) := by
      rw [hrun, Earlier.runOperation_error hfresh (hperform.trans hconclude)]
    exact ⟨t, Eval.complete_of_run_error hrun, ht⟩
  | ok v =>
    rw [hnext] at hconclude
    obtain ⟨u, hconclude, hmemo, hstored⟩ := hconclude
    obtain ⟨events, hoperation⟩ :=
      Earlier.runOperation_control hcontrol hfresh (hperform.trans hconclude) nofun
    have hcomplete := Eval.complete_of_run_ok (hrun.trans hoperation) rfl
    refine ⟨_, hcomplete, h.of_complete hcomplete (fun id => ?_) ?_⟩
    · exact (congrFun hstored id).trans (ht.update_held hposts v id)
    · exact congrArg (_ :: ·) (hmemo.trans ht.memo)

end Books

/-! ## Settling a group -/

/-- An evaluation ends as the ledger does: with the same values, or with the refusal in the context
of the assignment that was refused. -/
inductive Balanced (g : Graph) {α β : Type} (output : α → β) :
    Except (NodeId × Fault) α × Ledger → Except Failure β × State → Prop
  | done {a : α} {l : Ledger} {t : State} (h : Books g l t) :
      Balanced g output (.ok a, l) (.ok (output a), t)
  | refused {m : NodeId} {f : Fault} {l : Ledger} {t : State} (h : Books g l t)
      (hm : ∃ node, t.graph.node? m = some node) :
      Balanced g output (.error (m, f), l) (.error (t.graph.wrap m (.fault f)), t)

variable {posting : NodeId → Posting}

/-- One member of a group, whether it comes up for the first time or again. -/
theorem Books.balanced_post (h : Books g l s) (hposts : g.Posts m (posting m)) :
    Balanced g Output.value (l.post posting m) (Eval.complete m c s) := by
  cases hknown : l.results.lookup m with
  | some v =>
    obtain ⟨t, hcomplete, hst⟩ := h.complete_hit (c := c) hposts hknown
    rw [Ledger.post_known hknown, hcomplete]
    exact .done (h.alike hst)
  | none =>
    have hmiss := h.complete_miss (c := c) hposts hknown
    cases hnext : (posting m).next (l.held (posting m).target) with
    | error f =>
      rw [hnext] at hmiss
      obtain ⟨t, hcomplete, ht⟩ := hmiss
      rw [Ledger.post_error hknown hnext, hcomplete]
      obtain ⟨node, o, -, -, hnode, hkind, -⟩ := hposts.assignment
      exact .refused ht ⟨node, ht.graph.operation hnode hkind⟩
    | ok v =>
      rw [hnext] at hmiss
      obtain ⟨t, hcomplete, ht⟩ := hmiss
      rw [Ledger.post_ok hknown hnext, hcomplete]
      exact .done ht

/-- All members, one after another. -/
theorem Books.balanced (h : Books g l s) {ms : List NodeId}
    (hposts : ∀ m ∈ ms, g.Posts m (posting m)) :
    Balanced g (List.map Output.value) (l.settle posting ms) (Eval.each Eval.complete ms c s) := by
  -- On the members: the books that one of them leaves are those that the next one finds.
  induction ms generalizing l s with
  | nil => exact .done h
  | cons m ms ih =>
    have hfirst := h.balanced_post (c := c) (hposts m List.mem_cons_self)
    rw [Ledger.settle, Eval.each]
    generalize l.post posting m = first at hfirst
    generalize hcomplete : Eval.complete m c s = ended at hfirst
    cases hfirst with
    | refused ht hm =>
      rw [Eval.bind_run_error hcomplete]
      exact .refused ht hm
    | @done v l' t ht =>
      have hrest := ih ht fun m' hm' => hposts m' (List.mem_cons_of_mem m hm')
      rw [Eval.bind_run_ok hcomplete]
      dsimp only
      generalize l'.settle posting ms = rest at hrest
      generalize heach : Eval.each Eval.complete ms c t = ended' at hrest
      cases hrest with
      | refused hu hm =>
        rw [Eval.bind_run_error heach]
        exact .refused hu hm
      | @done vs _ u hu =>
        rw [Eval.bind_run_ok heach]
        exact .done hu

/-- Before anything is evaluated, nothing is posted. -/
theorem books_start (hg : g.WellFormed) {context : Context} (hretained : context.retained = [])
    (config : Config) (spare : UInt64) : Books g g.ledger (start lib g context config spare) where
  coherent := coherent_start lib hg context config spare
  graph := .refl g
  retained := hretained
  held id := by
    change g.stored? id = (g.stored? id).map fun _ => (g.stored? id).getD default
    cases g.stored? id <;> rfl
  memo := rfl

theorem nodes_list_values (vs : List Value) : (Output.list (vs.map .value)).nodes = [] := by
  refine List.eq_nil_iff_forall_not_mem.mpr fun n hn => ?_
  obtain ⟨out, hout, hn⟩ := Output.mem_nodes_list.mp hn
  obtain ⟨v, -, rfl⟩ := List.mem_map.mp hout
  cases hn

/-- A group comes to what its members come to. -/
theorem Books.balanced_group (h : Books g l s) {id : NodeId} {node : Node} {o : Operation}
    (hfound : g.node? id = some node) (hkind : node.kind = .operation o)
    (hop : o.op = .control .flowGroup) (hfresh : l.results.lookup id = none)
    (hposts : ∀ m ∈ o.members, g.Posts m (posting m)) :
    ∃ t, Balanced g (fun vs => Output.list (vs.map .value)) (l.settle posting o.members)
        ((Eval.complete id c s).1, t) ∧ t.graph = (Eval.complete id c s).2.graph := by
  have hentered : Books g l (s.entered node) := h.alike (.with_events s _)
  have hmembers := hentered.balanced (c := c) hposts
  have hperform : Earlier.whole.perform id o =
      (do return .list (← Eval.each Eval.complete o.members)) := by
    rw [Earlier.perform, hop]
    rfl
  have hrun := run_operation (c := c) h.coherent (h.graph.operation hfound hkind) hkind
    (h.active id)
  have hmiss : (s.entered node).memo.lookup id = none := by
    rw [hentered.lookup, hfresh]
    rfl
  have hcontrol : o.op.isControl = true := by rw [hop]; rfl
  generalize l.settle posting o.members = settled at hmembers ⊢
  generalize heach : Eval.each Eval.complete o.members c (s.entered node) = ended at hmembers
  cases hmembers with
  | @done vs l' t ht =>
    have hperform : Earlier.whole.perform id o c (s.entered node) =
        (.ok (.list (vs.map .value)), t) := by
      rw [hperform, Eval.bind_run_ok heach]
      rfl
    obtain ⟨events, hoperation⟩ := Earlier.runOperation_control hcontrol hmiss hperform fun n hn =>
      absurd (nodes_list_values vs ▸ hn) List.not_mem_nil
    rw [Eval.complete_of_run_ok (hrun.trans hoperation) (nodes_list_values vs)]
    exact ⟨t, .done ht, rfl⟩
  | @refused m f l' t ht hm =>
    have hperform : Earlier.whole.perform id o c (s.entered node) =
        (.error (t.graph.wrap m (.fault f)), t) := by
      rw [hperform, Eval.bind_run_error heach]
    obtain ⟨holder, hholder⟩ := hm
    -- The refusal is in the context of the member already, and the group adds none.
    have hwrapped : (t.graph.wrap m (.fault f)).isWrapped = true := by
      rw [Graph.wrap_of_node? rfl hholder]
      rfl
    have hrun : Eval.run id c s = (.error (t.graph.wrap m (.fault f)), t) := by
      rw [hrun, Earlier.runOperation_error hmiss hperform, Graph.wrap_of_isWrapped _ _ hwrapped]
    rw [Eval.complete_of_run_error hrun]
    exact ⟨t, .refused ht ⟨holder, hholder⟩, rfl⟩

/-- Evaluating a group of assignments of literals to initialized variables on a fresh evaluator
that retains nothing is settling a ledger: it leaves in the variables what the ledger says, and ends
with the results of the assignments, or with the first refusal. -/
theorem groups_settle (hg : g.Reached) {context : Context} (hretained : context.retained = [])
    (config : Config) (spare : UInt64) (c : Settings) {id : NodeId} {node : Node} {o : Operation}
    (hfound : g.node? id = some node) (hkind : node.kind = .operation o)
    (hop : o.op = .control .flowGroup) (hposts : ∀ m ∈ o.members, g.Posts m (posting m)) :
    let r := Eval.complete id c (start lib g context config spare)
    let settled := g.ledger.settle posting o.members
    (∀ i, r.2.graph.stored? i = (g.stored? i).map fun _ => settled.2.held i) ∧
      (∀ vs, settled.1 = .ok vs → r.1 = .ok (.list (vs.map .value))) ∧
      ∀ m f, settled.1 = .error (m, f) → r.1 = .error (r.2.graph.wrap m (.fault f)) := by
  intro r settled
  have hbooks := books_start lib hg.wellFormed hretained config spare
  obtain ⟨t, hbalanced, hgraph⟩ := hbooks.balanced_group (c := c) hfound hkind hop rfl hposts
  have hbalanced : Balanced g (fun vs => Output.list (vs.map .value)) settled (r.1, t) := hbalanced
  have hgraph : t.graph = r.2.graph := hgraph
  rw [← hgraph]
  generalize settled = outcome at hbalanced ⊢
  generalize r.1 = ended at hbalanced ⊢
  cases hbalanced with
  | done h =>
    refine ⟨h.held, fun vs hvs => ?_, nofun⟩
    cases hvs
    rfl
  | refused h =>
    refine ⟨h.held, nofun, fun m f hrefused => ?_⟩
    cases hrefused
    rfl

/-- A variable is raised by one and lowered by three. The first assignment comes up again in one
group, and in the other group an assignment that adds a word is refused between the two. -/
theorem groups_settle_again :
    let g := Graph.ofSteps [.variable "v" .int32 (some (.scalar (.int 5))),
      .constant "one" (.scalar (.int 1)), .constant "three" (.scalar (.int 3)),
      .constant "word" (.scalar (.str "word")),
      .operation "raise" ⟨.control (.assign .add), [⟨0⟩, ⟨1⟩], .empty⟩,
      .operation "lower" ⟨.control (.assign .sub), [⟨0⟩, ⟨2⟩], .empty⟩,
      .operation "spell" ⟨.control (.assign .add), [⟨0⟩, ⟨3⟩], .empty⟩,
      .operation "again" ⟨.control .flowGroup, [], ⟨[("values", .nodes [⟨4⟩, ⟨5⟩, ⟨4⟩])]⟩⟩,
      .operation "stopped" ⟨.control .flowGroup, [], ⟨[("values", .nodes [⟨4⟩, ⟨6⟩, ⟨5⟩])]⟩⟩]
    let s := start .standard g .empty .standard 0
    let again := Eval.complete ⟨7⟩ ⟨32, .cpu⟩ s
    let stopped := Eval.complete ⟨8⟩ ⟨32, .cpu⟩ s
    again.1 = .ok (.list [.value (.scalar (.int 6)), .value (.scalar (.int 3)),
        .value (.scalar (.int 6))]) ∧
      again.2.graph.stored? ⟨0⟩ = some (.scalar (.int 3)) ∧
      (∃ f, stopped.1 = .error (stopped.2.graph.wrap ⟨6⟩ (.fault f))) ∧
      stopped.2.graph.stored? ⟨0⟩ = some (.scalar (.int 6)) := by
  intro g
  -- The two runs are named in the statement only: the theorem speaks of them as they are.
  dsimp only
  let posting : NodeId → Posting
    | ⟨4⟩ => ⟨.add, ⟨0⟩, .scalar (.int 1), .int32⟩
    | ⟨5⟩ => ⟨.sub, ⟨0⟩, .scalar (.int 3), .int32⟩
    | _ => ⟨.add, ⟨0⟩, .scalar (.str "word"), .int32⟩
  have hraise : (posting ⟨4⟩).next (.scalar (.int 5)) = .ok (.scalar (.int 6)) := by cbv
  have hlower : (posting ⟨5⟩).next (.scalar (.int 6)) = .ok (.scalar (.int 3)) := by cbv
  obtain ⟨f, hspell⟩ : ∃ f, (posting ⟨6⟩).next (.scalar (.int 6)) = .error f := by
    simp only [Posting.next, posting, Update.combine, Value.binary, Value.broadcast]
    exact ⟨_, rfl⟩
  -- The ledger after `raise`, and after `lower`.
  let l₁ : Ledger :=
    ⟨Function.update g.ledger.held ⟨0⟩ (.scalar (.int 6)), [(⟨4⟩, .scalar (.int 6))]⟩
  let l₂ : Ledger :=
    ⟨Function.update l₁.held ⟨0⟩ (.scalar (.int 3)), (⟨5⟩, .scalar (.int 3)) :: l₁.results⟩
  have hraised : g.ledger.post posting ⟨4⟩ = (.ok (.scalar (.int 6)), l₁) :=
    Ledger.post_ok rfl hraise
  have hlowered : l₁.post posting ⟨5⟩ = (.ok (.scalar (.int 3)), l₂) := Ledger.post_ok rfl hlower
  have hknown : l₂.post posting ⟨4⟩ = (.ok (.scalar (.int 6)), l₂) := Ledger.post_known rfl
  have hrefused : l₁.post posting ⟨6⟩ = (.error (⟨6⟩, f), l₁) := Ledger.post_error rfl hspell
  have hall : g.ledger.settle posting [⟨4⟩, ⟨5⟩, ⟨4⟩] =
      (.ok [.scalar (.int 6), .scalar (.int 3), .scalar (.int 6)], l₂) := by
    simp only [Ledger.settle, hraised, hlowered, hknown]
  have hfirst : g.ledger.settle posting [⟨4⟩, ⟨6⟩, ⟨5⟩] = (.error (⟨6⟩, f), l₁) := by
    simp only [Ledger.settle, hraised, hrefused]
  have hraises : g.Posts ⟨4⟩ (posting ⟨4⟩) :=
    ⟨⟨_, _, _, _, rfl, rfl, rfl, rfl, rfl, rfl, rfl⟩, ⟨_, _, rfl, rfl, rfl⟩⟩
  have hlowers : g.Posts ⟨5⟩ (posting ⟨5⟩) :=
    ⟨⟨_, _, _, _, rfl, rfl, rfl, rfl, rfl, rfl, rfl⟩, ⟨_, _, rfl, rfl, rfl⟩⟩
  have hspells : g.Posts ⟨6⟩ (posting ⟨6⟩) :=
    ⟨⟨_, _, _, _, rfl, rfl, rfl, rfl, rfl, rfl, rfl⟩, ⟨_, _, rfl, rfl, rfl⟩⟩
  have hagain : ∀ m ∈ [⟨4⟩, ⟨5⟩, ⟨4⟩], g.Posts m (posting m) :=
    List.forall_mem_cons.mpr ⟨hraises, List.forall_mem_cons.mpr ⟨hlowers,
      List.forall_mem_singleton.mpr hraises⟩⟩
  have hstopped : ∀ m ∈ [⟨4⟩, ⟨6⟩, ⟨5⟩], g.Posts m (posting m) :=
    List.forall_mem_cons.mpr ⟨hraises, List.forall_mem_cons.mpr ⟨hspells,
      List.forall_mem_singleton.mpr hlowers⟩⟩
  have hg : g.Reached := (Graph.built_ofSteps _).reached
  have hretained : Context.empty.retained = [] := rfl
  obtain ⟨hheld, houtputs, -⟩ := groups_settle .standard hg hretained .standard 0 ⟨32, .cpu⟩
    (show g.node? ⟨7⟩ = some _ from rfl) rfl rfl hagain
  obtain ⟨hheld', -, hfailure⟩ := groups_settle .standard hg hretained .standard 0 ⟨32, .cpu⟩
    (show g.node? ⟨8⟩ = some _ from rfl) rfl rfl hstopped
  have hlast : (g.ledger.settle posting [⟨4⟩, ⟨5⟩, ⟨4⟩]).2.held ⟨0⟩ = .scalar (.int 3) := by
    rw [hall]
    rfl
  have hkept : (g.ledger.settle posting [⟨4⟩, ⟨6⟩, ⟨5⟩]).2.held ⟨0⟩ = .scalar (.int 6) := by
    rw [hfirst]
    rfl
  exact ⟨houtputs _ (congrArg Prod.fst hall), (hheld ⟨0⟩).trans (congrArg some hlast),
    ⟨f, hfailure _ _ (congrArg Prod.fst hfirst)⟩, (hheld' ⟨0⟩).trans (congrArg some hkept)⟩

end State

end Dataflow
