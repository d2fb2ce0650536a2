import Dataflow.Proofs.Denotation
import Dataflow.Proofs.Preservation

/-!
# Evaluation is faithful to the meaning of nodes

In a graph without assignments, random arrays and breakpoints, the evaluation of a node gives what
the node means, as far as it is evaluated. If nothing is retained, and enough nodes may be run one
after another, then everything is evaluated, and the outcome is exactly what the node means.
-/

namespace Dataflow

open State

/-! ## Pure graphs -/

/-- Whether an operation depends on nothing but its arguments. -/
def Op.isPure : Op → Bool
  | .control (.assign _) | .kernel (.random _) => false
  | _ => true

/-- A graph without assignments, random arrays and breakpoints. -/
structure Graph.Pure (g : Graph) : Prop where
  unwatched : ∀ id node, g.node? id = some node → node.watched = false
  operations : ∀ id node o, g.node? id = some node → node.kind = .operation o →
    o.op.isPure = true

/-- Whether a node may be part of a pure graph. -/
def Node.isPure (n : Node) : Bool :=
  !n.watched && match n.kind with
    | .operation o => o.op.isPure
    | _ => true

namespace Graph.Pure

theorem iff_all {g : Graph} : g.Pure ↔ g.nodes.toList.all Node.isPure = true := by
  rw [List.all_eq_true]
  constructor
  · intro hg node hnode
    obtain ⟨i, hi⟩ := Array.mem_iff_getElem?.mp (Array.mem_toList_iff.mp hnode)
    have hwatched := hg.unwatched ⟨i⟩ node hi
    simp only [Node.isPure, hwatched, Bool.not_false, Bool.true_and]
    split
    · rename_i o hkind
      exact hg.operations ⟨i⟩ node o hi hkind
    · rfl
  · intro h
    constructor
    · intro id node hnode
      have hpure := h node (Array.mem_toList_iff.mpr (mem_of_node? hnode))
      simp only [Node.isPure, Bool.and_eq_true, Bool.not_eq_true'] at hpure
      exact hpure.1
    · intro id node o hnode hkind
      have hpure := h node (Array.mem_toList_iff.mpr (mem_of_node? hnode))
      simp only [Node.isPure, hkind, Bool.and_eq_true] at hpure
      exact hpure.2

instance (g : Graph) : Decidable g.Pure := decidable_of_iff _ iff_all.symm

variable {g g' : Graph} {id : NodeId}

theorem watched?_eq_none (hg : g.Pure) (id : NodeId) : g.watched? id = none := by
  cases hnode : g.node? id with
  | none => simp [watched?, hnode]
  | some node => simp [watched?, hnode, hg.unwatched id node hnode]

theorem write?_eq_none (hg : g.Pure) (id : NodeId) (result : Output) :
    g.write? id result = none := by
  cases hnode : g.node? id with
  | none => simp [write?, hnode]
  | some node =>
    simp only [write?, hnode, Option.map_some]
    split
    · rename_i heq
      have hpure := hg.operations id node _ hnode (by simpa using heq)
      cases hpure
    · rfl

theorem addDeferred (hg : g.Pure) {o : Operation} (ho : o.op.isPure = true) {copy : NodeId}
    (hadd : g.addDeferred id o = .ok (g', copy)) : g'.Pure := by
  obtain ⟨node, hnode, hinsert⟩ := addDeferred_eq_ok.mp hadd
  cases hinsert
  constructor
  · intro i n hn
    have h := (node?_insert ..).symm.trans hn
    split at h
    · cases h; rfl
    · exact hg.unwatched i n h
  · intro i n p hn hp
    have h := (node?_insert ..).symm.trans hn
    split at h
    · cases h; cases hp; exact ho
    · exact hg.operations i n p h hp

end Graph.Pure

/-- Without assignments, nodes are added and nothing else happens to the graph. -/
theorem State.Grows.extends {s t : State} (h : Grows s t) (ht : t.graph.Pure) :
    t.graph.Extends s.graph := by
  obtain ⟨ws, -, hwrites, hgraph⟩ := h.writes
  have hnone : t.writes = [] :=
    List.filterMap_eq_nil_iff.mpr fun r _ => ht.write?_eq_none r.1 r.2
  obtain ⟨-, rfl⟩ := List.append_eq_nil_iff.mp (hwrites.symm.trans hnone)
  simpa using hgraph

/-! ## Faithful states -/

namespace State

section Faithful

variable (g : Graph) (bindings : List (String × Value)) (backend : Backend) (full : Prop)

/-- What the output means in a state, which may have copies in its graph, is what `x` says. Failures
may have other nodes around them. -/
structure Means (s : State) (out : Output) (x : Except Failure Output) : Prop where
  known : ∀ n ∈ out.nodes, n.index < s.graph.size
  agrees : rooted (out.denote (s.graph.denote bindings backend)) = rooted x

/-- As `Means`, for outputs one after another. -/
structure MeansAll (s : State) (outs : List Output) (x : Except Failure (List Output)) : Prop where
  known : ∀ n ∈ Output.nodesOfItems outs, n.index < s.graph.size
  agrees : rooted (Output.denoteItems (s.graph.denote bindings backend) outs) = rooted x

/-- The results in a state are what the nodes of `g` mean. If everything is evaluated, which `full`
says, then there are no copies. -/
structure Faithful (s : State) : Prop where
  coherent : Coherent (fun _ => True) s
  graph : s.graph.Extends g
  pure : s.graph.Pure
  context : s.context.bindings = bindings
  copies : ∀ n ∈ s.symbolic, g.size ≤ n.index
  memo : ∀ id out, (id, out) ∈ s.memo → id.index < g.size ∧
    Means bindings backend s out (g.denote bindings backend id) ∧
    (full → ∃ r, g.denote bindings backend id = .ok r)
  full : full → s.graph = g ∧ s.symbolic = [] ∧ s.context.retained = []

def faithfulness : Regime where
  inv := Faithful g bindings backend full
  step := Later
  refl := Later.refl
  trans := Later.trans

/-- An outcome that is as `x` says. A failure is, if everything is evaluated. -/
def Answers (x : Except Failure Output) : Except Failure Output → State → Prop
  | .ok out, t => Means bindings backend t out x ∧ (full → ∃ r, x = .ok r)
  | .error e, _ => full → x = .error e

/-- As `Answers`, for outcomes one after another. -/
def AnswersAll (x : Except Failure (List Output)) : Except Failure (List Output) → State → Prop
  | .ok outs, t => MeansAll bindings backend t outs x ∧ (full → ∃ rs, x = .ok rs)
  | .error e, _ => full → x = .error e

/-- An outcome that is as `x` says, in which nothing is left if everything is evaluated. -/
def Completes (x : Except Failure Output) (r : Except Failure Output) (t : State) : Prop :=
  Answers bindings backend full x r t ∧ ∀ out, r = .ok out → full → out.nodes = []

/-- The outcome of a search for arguments, which ends where a node is left. -/
def Finds {α : Type} (x : Except Failure α) : Except Failure (Option α) → State → Prop
  | .ok (some a), _ => x = .ok a
  | .ok none, _ => ¬ full
  | .error e, _ => full → x = .error e

end Faithful

variable {g : Graph} {bindings : List (String × Value)} {backend : Backend} {full : Prop}
variable {s t : State} {out : Output} {x : Except Failure Output}

theorem Means.eq_ok (h : Means bindings backend s out x) (hnodes : out.nodes = []) :
    x = .ok out := by
  have hagrees := h.agrees
  rw [Output.denote_of_nodes_nil hnodes] at hagrees
  exact rooted_eq_ok.mp hagrees.symm

theorem Means.of_eq_ok (h : x = .ok out) (hnodes : out.nodes = []) :
    Means bindings backend s out x where
  known := by simp [hnodes]
  agrees := by rw [Output.denote_of_nodes_nil hnodes, h]

/-- What an output means does not depend on nodes that are added later. -/
theorem Means.extends (h : Means bindings backend s out x) (hs : s.graph.WellFormed)
    (ht : t.graph.WellFormed) (hextends : t.graph.Extends s.graph) :
    Means bindings backend t out x where
  known n hn := Nat.lt_of_lt_of_le (h.known n hn) (Graph.Evolves.of_extends hextends).size_le
  agrees := by
    rw [Output.denote_congr fun n hn => Graph.denote_extends hs ht hextends (h.known n hn)]
    exact h.agrees

theorem MeansAll.nil : MeansAll bindings backend s [] (.ok []) :=
  ⟨by simp [Output.nodesOfItems], rfl⟩

theorem MeansAll.cons {outs : List Output} {xs : Except Failure (List Output)}
    (h : Means bindings backend s out x) (hs : MeansAll bindings backend s outs xs) :
    MeansAll bindings backend s (out :: outs) (do return (← x) :: (← xs)) where
  known n hn := (List.mem_append.mp hn).elim (h.known n) (hs.known n)
  agrees := rooted_bind h.agrees fun _ _ => rooted_bind hs.agrees fun _ _ => rfl

theorem MeansAll.list {outs : List Output} {xs : Except Failure (List Output)}
    (h : MeansAll bindings backend s outs xs) :
    Means bindings backend s (.list outs) (.list <$> xs) :=
  ⟨h.known, rooted_map h.agrees⟩

namespace Faithful

theorem wellFormed (hs : Faithful g bindings backend full s) : s.graph.WellFormed :=
  hs.coherent.graph

/-- What the nodes that were there from the start mean has not changed. -/
theorem denote_eq (hg : g.WellFormed) (hs : Faithful g bindings backend full s) {id : NodeId}
    (hid : id.index < g.size) :
    s.graph.denote bindings backend id = g.denote bindings backend id :=
  Graph.denote_extends hg hs.wellFormed hs.graph hid

theorem means_node (hg : g.WellFormed) (hs : Faithful g bindings backend full s) {id : NodeId}
    (hid : id.index < g.size) (hx : rooted (g.denote bindings backend id) = rooted x) :
    Means bindings backend s (.node id) x where
  known := by
    have hsize := (Graph.Evolves.of_extends hs.graph).size_le
    simpa using Nat.lt_of_lt_of_le hid hsize
  agrees := (congrArg rooted (hs.denote_eq hg hid)).trans hx

theorem means_later (hs : Faithful g bindings backend full s)
    (ht : Faithful g bindings backend full t) (hst : Later s t)
    (h : Means bindings backend s out x) : Means bindings backend t out x :=
  h.extends hs.wellFormed ht.wellFormed (hst.toGrows.extends ht.pure)

theorem quiet (hs : Faithful g bindings backend full s) (h : Quiet s t) :
    Faithful g bindings backend full t where
  coherent := h.coherent hs.coherent
  graph := h.graph ▸ hs.graph
  pure := h.graph ▸ hs.pure
  context := h.bindings.trans hs.context
  copies := h.symbolic ▸ hs.copies
  memo id out hmem := by
    obtain ⟨hlt, hmeans, hok⟩ := hs.memo id out (h.memo ▸ hmem)
    exact ⟨hlt, ⟨h.graph ▸ hmeans.known, h.graph ▸ hmeans.agrees⟩, hok⟩
  full hfull := by
    rw [h.graph, h.symbolic, h.retained]
    exact hs.full hfull

/-- Nothing is left to stand for itself if everything is evaluated. -/
theorem stays_eq_false (hs : Faithful g bindings backend full s) (hfull : full) (id : NodeId) :
    s.stays id = false := by
  obtain ⟨-, hsymbolic, hretained⟩ := hs.full hfull
  simp [stays, isSymbolic, Context.isRetained, hsymbolic, hretained]

/-- The copy of an operation means what the operation means, but for the node around a failure. -/
theorem means_copy (hg : g.WellFormed) (hs : Faithful g bindings backend full s)
    {g' : Graph} {id copy : NodeId} {node : Node} {o : Operation}
    (hnode : g.node? id = some node) (hkind : node.kind = .operation o)
    (hadd : s.graph.addDeferred id o = .ok (g', copy)) (hg' : g'.WellFormed) :
    rooted (g'.denote bindings backend copy) =
      rooted (o.denote (g.denote bindings backend) backend node.dtype) := by
  obtain ⟨node', hnode', hinsert⟩ := Graph.addDeferred_eq_ok.mp hadd
  cases hnode'.symm.trans (hs.graph.node? hnode)
  have hextends : g'.Extends g := by
    cases hinsert
    exact (Graph.Extends.insert ..).trans hs.graph
  have hcopy : ∃ n, g'.node? copy = some n ∧ n.kind = .operation o ∧ n.dtype = node.dtype := by
    cases hinsert
    exact ⟨_, (Graph.node?_insert ..).trans (if_pos rfl), rfl, rfl⟩
  obtain ⟨n, hn, hnkind, hdtype⟩ := hcopy
  have hrefs : ∀ r ∈ o.references, g'.denote bindings backend r = g.denote bindings backend r := by
    intro r hr
    have hlt := hg.lt_of_operation hnode hkind r hr
    exact Graph.denote_extends hg hg' hextends (Nat.lt_trans hlt (Graph.lt_size_of_node? hnode))
  -- The copy has a name of its own, so a failure is wrapped in another node.
  rw [Graph.denote_eq hg']
  simp only [Graph.denoteNode, hn, hnkind, hdtype]
  rw [rooted_wrap, Operation.denote_congr hrefs]

end Faithful

end State

/-! ## Operands -/

namespace Earlier

variable {earlier : Earlier} {g : Graph} {bindings : List (String × Value)} {full : Prop}
variable {c : Settings} {bound : Nat} {s t : State} {id : NodeId} {node : Node} {o : Operation}

/-- The nodes of `g` below `bound` are evaluated to what they mean. -/
abbrev Truthful (earlier : Earlier) (g : Graph) (bindings : List (String × Value)) (full : Prop)
    (c : Settings) (bound : Nat) : Prop :=
  earlier.Satisfies bound
    (fun id s x => id.index < g.size → (faithfulness g bindings c.backend full).Ensures c s x
      (Answers bindings c.backend full (g.denote bindings c.backend id)))
    (fun id s x => id.index < g.size → (faithfulness g bindings c.backend full).Ensures c s x
      (Completes bindings c.backend full (g.denote bindings c.backend id)))

/-- A search goes on with what was found. -/
theorem finds_bind {R : Regime} {α β : Type} {x : Eval (Option α)} {k : Option α → Eval (Option β)}
    {X : Except Failure α} {F : α → Except Failure β} (hx : R.Ensures c s x (Finds full X))
    (hnone : k none = pure none)
    (hsome : ∀ a t, R.inv t → R.Ensures c t (k (some a)) (Finds full (F a))) :
    R.Ensures c s (x >>= k) (Finds full (X >>= F)) := by
  refine hx.bind (fun found t ht _ hfound => ?_) fun e t _ _ he hfull => ?_
  · cases found with
    | none =>
      rw [hnone]
      exact .pure fun _ => hfound
    | some a =>
      refine (hsome a t ht).conseq fun r u _ _ hr => ?_
      rw [show X = .ok a from hfound]
      exact hr
  · rw [show X = .error e from he hfull]
    rfl

theorem finds_pure {R : Regime} {α : Type} {X : Except Failure α} {a : α} (h : X = .ok a) :
    R.Ensures c s (pure (some a)) (Finds full X) :=
  .pure fun _ => h

/-- The search for the value of a node ends as `f` says. -/
def Resolves (earlier : Earlier) (R : Regime) (full : Prop) (c : Settings)
    (f : NodeId → Except Failure Output) (id : NodeId) : Prop :=
  ∀ s, R.Ensures c s (earlier.resolve id) (Finds full (id.valueIn f))

section Search

variable {R : Regime} {f : NodeId → Except Failure Output}

theorem resolveAll_finds {ids : List NodeId}
    (hids : ∀ id ∈ ids, earlier.Resolves R full c f id) :
    R.Ensures c s (earlier.resolveAll ids) (Finds full (ids.mapM (NodeId.valueIn f))) := by
  induction ids generalizing s with
  | nil => exact finds_pure rfl
  | cons id ids ih =>
    rw [List.mapM_cons]
    refine finds_bind (hids id List.mem_cons_self s) rfl fun v t _ => ?_
    exact finds_bind (ih fun n hn => hids n (List.mem_cons_of_mem id hn)) rfl
      fun vs u _ => finds_pure rfl

theorem resolveOption_finds {option : OptionValue}
    (hids : ∀ id ∈ option.references, earlier.Resolves R full c f id) :
    R.Ensures c s (earlier.resolveOption option) (Finds full (option.denote f)) := by
  -- The value is wrapped up whether or not it was found.
  have hmap : ∀ {α : Type} {x : Eval (Option α)} {X : Except Failure α} (w : α → Resolved),
      R.Ensures c s x (Finds full X) →
      R.Ensures c s (do return (← x).map w) (Finds full (w <$> X)) := by
    intro α x X w hx
    refine hx.bind (fun found t _ _ hfound => ?_) fun e t _ _ he hfull => ?_
    · cases found with
      | none => exact .pure fun _ => hfound
      | some a =>
        rw [show X = .ok a from hfound]
        exact finds_pure rfl
    · rw [show X = .error e from he hfull]
      rfl
  cases option with
  | value v => exact finds_pure rfl
  | dtype t => exact finds_pure rfl
  | node id => exact hmap Resolved.value (hids id List.mem_cons_self s)
  | nodes ids => exact hmap Resolved.values (resolveAll_finds hids)

theorem resolveOptions_finds {entries : List (String × OptionValue)}
    (hids : ∀ entry ∈ entries, ∀ id ∈ entry.2.references, earlier.Resolves R full c f id) :
    R.Ensures c s (earlier.resolveOptions entries)
      (Finds full (entries.mapM fun entry => (entry.1, ·) <$> entry.2.denote f)) := by
  induction entries generalizing s with
  | nil => exact finds_pure rfl
  | cons entry entries ih =>
    obtain ⟨key, option⟩ := entry
    rw [List.mapM_cons, bind_map_left]
    refine finds_bind (resolveOption_finds (hids _ List.mem_cons_self)) rfl fun r t _ => ?_
    exact finds_bind (ih fun e he => hids e (List.mem_cons_of_mem _ he)) rfl
      fun rs u _ => finds_pure rfl

theorem gather_finds (hids : ∀ id ∈ o.references, earlier.Resolves R full c f id)
    (hnode : ∀ t, R.inv t → t.graph.node? id = some node) {kernel : Kernel} :
    R.Ensures c s (earlier.gather id kernel o) (Finds full (o.arguments f kernel node.dtype)) := by
  refine finds_bind (resolveAll_finds fun n hn => hids n (List.mem_append_left _ hn)) rfl
    fun vs t _ => ?_
  refine finds_bind (resolveOptions_finds fun entry hentry n hn =>
    hids n (Operation.mem_references_of_entry hentry hn)) rfl
    fun rs u hu => ?_
  refine .of_eq (Eval.bind_run_ok (Eval.node_run_some (hnode u hu))) ?_
  exact finds_pure rfl

/-- An operation goes on with an operand, or fails because it is missing. -/
theorem operand_bind {Q : Except Failure Output → State → Prop} {i : Nat} {k : NodeId → Eval Output}
    (hok : ∀ id, o.operands[i]? = some id → R.Ensures c s (k id) Q)
    (herror : o.operands[i]? = none →
      Q (.error (.arity o.op (.atLeast (i + 1)) o.operands.length)) s) :
    R.Ensures c s (operand o i >>= k) Q := by
  unfold operand
  split
  · rename_i id hid
    exact hok id hid
  · rename_i hnone
    exact .of_eq (y := .fail _) (Eval.bind_run_error rfl) (.fail fun _ => herror hnone)

end Search

/-- A value that is found is what the node means. -/
theorem resolve_faithful (h : earlier.Truthful g bindings full c bound) (hid : id.index < bound)
    (hsize : id.index < g.size) :
    earlier.Resolves (faithfulness g bindings c.backend full) full c (g.denote bindings c.backend)
      id := by
  refine fun s => (h.complete id s hid hsize).bind (fun out t _ _ hout => ?_) fun e t _ _ he => ?_
  · obtain ⟨⟨hmeans, -⟩, hnodes⟩ := hout
    refine .pure fun _ => ?_
    -- An output is a value unless a node is left in it.
    cases hvalue : out.toValue? with
    | none =>
      intro hfull
      have hsome := Output.toValue?_isSome.mpr (hnodes out rfl hfull)
      simp [hvalue] at hsome
    | some v =>
      have hdenote := hmeans.eq_ok (Output.nodes_of_toValue? hvalue)
      simp [Finds, NodeId.valueIn, hdenote, Output.flat_of_toValue? hvalue, Functor.map, Except.map]
  · intro hfull
    simp [NodeId.valueIn, he.1 hfull, Functor.map, Except.map]

/-! ## Operations -/

theorem report_faithful {r : Report} (h : (Event.report r).write? = none) :
    (faithfulness g bindings c.backend full).Ensures c s (Eval.report r) fun r _ => r = .ok () :=
  fun hs => ⟨hs.quiet (Quiet.report s h), (Quiet.report s h).later, rfl⟩

/-- Evaluating an operand gives what the operand means. -/
theorem identity_faithful (h : earlier.Truthful g bindings full c bound)
    (hids : ∀ id ∈ o.references, id.index < bound ∧ id.index < g.size) {i : Nat} :
    (faithfulness g bindings c.backend full).Ensures c s (do earlier.complete (← operand o i))
      (Answers bindings c.backend full (o.operandIn (g.denote bindings c.backend) i)) := by
  refine operand_bind (fun id hid => ?_) fun hnone => ?_
  · obtain ⟨hlt, hsize⟩ := hids id (Operation.mem_references_of_operand hid)
    refine (h.complete id s hlt hsize).conseq fun r t _ _ hr => ?_
    simpa [Operation.operandIn, hid] using hr.1
  · intro _
    simp [Operation.operandIn, hnone]

/-- A printed operand is evaluated for the report, and passed on as it is. -/
theorem print_faithful (hg : g.WellFormed) (h : earlier.Truthful g bindings full c bound)
    (hids : ∀ id ∈ o.references, id.index < bound ∧ id.index < g.size) :
    (faithfulness g bindings c.backend full).Ensures c s (earlier.print o)
      (Answers bindings c.backend full (o.operandIn (g.denote bindings c.backend) 0)) := by
  refine operand_bind (fun id hid => ?_) fun hnone _ => ?_
  · obtain ⟨hlt, hsize⟩ := hids id (Operation.mem_references_of_operand hid)
    have hdenote : o.operandIn (g.denote bindings c.backend) 0 =
        g.denote bindings c.backend id := by
      simp [Operation.operandIn, hid]
    rw [hdenote]
    refine (h.complete id s hlt hsize).bind (fun shown t _ _ hshown => ?_) fun e t _ _ he => he.1
    refine (report_faithful rfl).bind (fun _ u hu _ _ => ?_) fun _ _ _ _ habsurd => by cases habsurd
    exact .pure fun _ => ⟨hu.means_node hg hsize rfl, hshown.1.2⟩
  · simp [Operation.operandIn, hnone]

/-- The members of a group are evaluated one after another. -/
theorem each_faithful (h : earlier.Truthful g bindings full c bound) {ids : List NodeId}
    (hids : ∀ id ∈ ids, id.index < bound ∧ id.index < g.size) :
    (faithfulness g bindings c.backend full).Ensures c s (Eval.each earlier.complete ids)
      (AnswersAll bindings c.backend full (ids.mapM (g.denote bindings c.backend))) := by
  induction ids generalizing s with
  | nil => exact .pure fun _ => ⟨.nil, fun _ => ⟨_, rfl⟩⟩
  | cons id ids ih =>
    obtain ⟨hid, hsize⟩ := hids id List.mem_cons_self
    rw [List.mapM_cons]
    refine (h.complete id s hid hsize).bind (fun out t ht _ hout => ?_) fun e t _ _ he hfull => ?_
    · refine (ih fun n hn => hids n (List.mem_cons_of_mem id hn)).bind
        (fun outs u hu htu houts => ?_) fun e u _ _ he hfull => ?_
      · refine .pure fun _ => ⟨.cons (ht.means_later hu htu hout.1.1) houts.1, fun hfull => ?_⟩
        obtain ⟨r, hr⟩ := hout.1.2 hfull
        obtain ⟨rs, hrs⟩ := houts.2 hfull
        exact ⟨r :: rs, by rw [hr, hrs]; rfl⟩
      · obtain ⟨r, hr⟩ := hout.1.2 hfull
        rw [hr, he hfull]
        rfl
    · rw [he.1 hfull]
      rfl

theorem flowGroup_faithful (h : earlier.Truthful g bindings full c bound)
    (hids : ∀ id ∈ o.references, id.index < bound ∧ id.index < g.size) :
    (faithfulness g bindings c.backend full).Ensures c s (earlier.flowGroup o)
      (Answers bindings c.backend full
        (.list <$> o.members.mapM (g.denote bindings c.backend))) := by
  refine (each_faithful h fun id hid => hids id (Operation.references_of_mem_members hid)).bind
    (fun outs t _ _ houts => ?_) fun e t _ _ he hfull => ?_
  · refine .pure fun _ => ⟨houts.1.list, fun hfull => ?_⟩
    obtain ⟨rs, hrs⟩ := houts.2 hfull
    exact ⟨.list rs, by rw [hrs]; rfl⟩
  · rw [he hfull]
    rfl

/-- The copy stands for the operation, which is left only if not everything is evaluated. -/
theorem defer_faithful (hg : g.WellFormed) (hnode : g.node? id = some node)
    (hkind : node.kind = .operation o) (hop : o.op.isPure = true) (hleft : ¬ full) :
    (faithfulness g bindings c.backend full).Ensures c s (.defer id o)
      (Answers bindings c.backend full
        (o.denote (g.denote bindings c.backend) c.backend node.dtype)) := by
  intro hs
  have hsize := Graph.lt_size_of_node? hnode
  -- Copies are added behind the nodes of `g`, so the node is none of them.
  have hsymbolic : s.isSymbolic id = false := by
    cases h : s.isSymbolic id with
    | false => rfl
    | true =>
      have hcopy := hs.copies id (by simpa [isSymbolic] using h)
      exact absurd hsize (Nat.not_lt.mpr hcopy)
  have hnode' := hs.graph.node? hnode
  obtain ⟨g', copy, hadd⟩ := Graph.exists_addDeferred hnode' o
  obtain ⟨r, hr, hrun⟩ := Eval.defer_run (c := c) hsymbolic hadd
  rw [hrun]
  have hcoherent := hs.coherent.withCopy hnode' hkind hadd
  have hlater := (step_withCopy hs.coherent hadd 0).toLater
  have hquiet := Quiet.report (s.withCopy g' copy) hr
  have hcopy : copy.index = s.graph.size := by
    obtain ⟨n, -, hinsert⟩ := Graph.addDeferred_eq_ok.mp hadd
    cases hinsert
    rfl
  have hgrown : s.graph.size ≤ g'.size := hlater.graph.size_le
  have hpure : g'.Pure := hs.pure.addDeferred hop hadd
  have hextends : g'.Extends s.graph := hlater.toGrows.extends hpure
  have hold : g.size ≤ s.graph.size := (Graph.Evolves.of_extends hs.graph).size_le
  have hfaithful : Faithful g bindings c.backend full (s.withCopy g' copy) :=
    { coherent := hcoherent
      graph := hextends.trans hs.graph
      pure := hpure
      context := hs.context
      copies := by
        intro n hn
        rcases List.mem_cons.mp hn with rfl | hn
        · exact hcopy ▸ hold
        · exact hs.copies n hn
      memo := by
        intro i out hmem
        obtain ⟨hlt, hmeans, -⟩ := hs.memo i out hmem
        exact ⟨hlt, hmeans.extends hs.wellFormed hcoherent.graph hextends,
          fun hfull => absurd hfull hleft⟩
      full := fun hfull => absurd hfull hleft }
  refine ⟨hfaithful.quiet hquiet, hlater.trans hquiet.later, ⟨?_, ?_⟩, fun h => absurd h hleft⟩
  · intro n hn
    cases List.mem_singleton.mp hn
    exact hcoherent.symbolic copy List.mem_cons_self
  · exact hs.means_copy hg hnode hkind hadd hcoherent.graph

/-- Only random arrays depend on the generator. -/
theorem compute_outcome {args : Arguments} (h : (Op.kernel args.kernel).isPure = true)
    (backend : Backend) {γ γ' : Type} (rng : Source γ) (rng' : Source γ') :
    (args.compute backend rng).outcome = (args.compute backend rng').outcome := by
  unfold Arguments.compute
  cases hkernel : args.kernel with
  | random distribution =>
    rw [hkernel] at h
    cases h
  | _ => rfl

theorem compute_faithful {args : Arguments} (h : (Op.kernel args.kernel).isPure = true) :
    (faithfulness g bindings c.backend full).Ensures c s (.compute args)
      (Answers bindings c.backend full (do
        return .value (← (args.compute c.backend .dry).outcome))) := by
  have hquiet := Quiet.reports s (args.compute c.backend s.rng).rng _
    (args.compute_reports c.backend s.rng)
  intro hs
  rw [Eval.compute_run, compute_outcome h c.backend .dry s.rng]
  refine ⟨hs.quiet hquiet, hquiet.later, ?_⟩
  cases (args.compute c.backend s.rng).outcome with
  | ok v => exact ⟨.of_eq_ok rfl rfl, fun _ => ⟨_, rfl⟩⟩
  | error e => exact fun _ => rfl

theorem kernel_faithful (hg : g.WellFormed) (h : earlier.Truthful g bindings full c bound)
    (hids : ∀ id ∈ o.references, id.index < bound ∧ id.index < g.size)
    (hnode : g.node? id = some node) (hkind : node.kind = .operation o) {kernel : Kernel}
    (hop : o.op = .kernel kernel) (hpure : o.op.isPure = true) :
    (faithfulness g bindings c.backend full).Ensures c s
      (do
        match ← earlier.gather id kernel o with
        | some args => .compute args
        | none => .defer id o)
      (Answers bindings c.backend full
        (o.denote (g.denote bindings c.backend) c.backend node.dtype)) := by
  have hdenote : o.denote (g.denote bindings c.backend) c.backend node.dtype = (do
      let args ← o.arguments (g.denote bindings c.backend) kernel node.dtype
      return .value (← (args.compute c.backend .dry).outcome)) := by
    simp only [Operation.denote, hop]
  refine (gather_finds (fun n hn => resolve_faithful h (hids n hn).1 (hids n hn).2)
    fun t ht => ht.graph.node? hnode).bind (fun found t _ _ hfound => ?_) fun e t _ _ he hfull => ?_
  · cases found with
    | none => exact defer_faithful hg hnode hkind hpure hfound
    | some args =>
      have hargs : o.arguments (g.denote bindings c.backend) kernel node.dtype = .ok args := hfound
      rw [hdenote, hargs]
      apply compute_faithful
      rw [Operation.kernel_of_arguments hargs, ← hop]
      exact hpure
  · rw [hdenote, he hfull]
    rfl

theorem cond_faithful (hg : g.WellFormed) (h : earlier.Truthful g bindings full c bound)
    (hids : ∀ id ∈ o.references, id.index < bound ∧ id.index < g.size)
    (hnode : g.node? id = some node) (hkind : node.kind = .operation o)
    (hop : o.op = .control .cond) :
    (faithfulness g bindings c.backend full).Ensures c s (earlier.cond id o)
      (Answers bindings c.backend full
        (o.denote (g.denote bindings c.backend) c.backend node.dtype)) := by
  simp only [cond, Operation.denote, hop]
  cases hpred : o.options.get? "pred" with
  | none => exact .fail fun _ _ => rfl
  | some option =>
    cases option with
    | dtype t => exact .fail fun _ _ => rfl
    | nodes ids => exact .fail fun _ _ => rfl
    | value v => exact identity_faithful h hids
    | node pred =>
      obtain ⟨hlt, hsize⟩ := hids pred (Operation.mem_references_of_option hpred List.mem_cons_self)
      refine (resolve_faithful h hlt hsize s).bind (fun found t _ _ hfound => ?_)
        fun e t _ _ he hfull => ?_
      · cases found with
        | none =>
          have hdefer : (faithfulness g bindings c.backend full).Ensures c t (.defer id o) _ :=
            defer_faithful hg hnode hkind (by rw [hop]; rfl) hfound
          simpa only [Operation.denote, hop, hpred] using hdefer
        | some v =>
          dsimp only
          rw [show pred.valueIn (g.denote bindings c.backend) = .ok v from hfound]
          exact identity_faithful h hids
      · dsimp only
        rw [he hfull]
        rfl

theorem perform_faithful (hg : g.WellFormed) (h : earlier.Truthful g bindings full c bound)
    (hids : ∀ id ∈ o.references, id.index < bound ∧ id.index < g.size)
    (hnode : g.node? id = some node) (hkind : node.kind = .operation o)
    (hpure : o.op.isPure = true) :
    (faithfulness g bindings c.backend full).Ensures c s (earlier.perform id o)
      (Answers bindings c.backend full
        (o.denote (g.denote bindings c.backend) c.backend node.dtype)) := by
  unfold perform
  split
  · rename_i update hop
    rw [hop] at hpure
    cases hpure
  · rename_i hop
    simp only [Operation.denote, hop]
    exact flowGroup_faithful h hids
  · rename_i hop
    simp only [Operation.denote, hop]
    exact identity_faithful h hids
  · rename_i hop
    simp only [Operation.denote, hop]
    exact identity_faithful h hids
  · rename_i hop
    simp only [Operation.denote, hop]
    exact print_faithful hg h hids
  · rename_i hop
    exact cond_faithful hg h hids hnode hkind hop
  · rename_i hop
    simp only [Operation.denote, hop]
    exact .fail fun _ _ => rfl
  · rename_i kernel hop
    exact kernel_faithful hg h hids hnode hkind hop hpure

end Earlier

end Dataflow
