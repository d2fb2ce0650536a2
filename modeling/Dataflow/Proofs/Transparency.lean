import Dataflow.Proofs.Faithfulness
import Dataflow.Proofs.Session

/-!
# Evaluation is transparent

The results that an evaluator remembers, and the operations that it leaves for later, make no
difference to what comes out. In a graph without assignments, random arrays and breakpoints, a node
evaluates to what it means, whatever was evaluated before. If something is retained, then completing
the output later comes to the same as evaluating the node at once.
-/

namespace Dataflow

variable (lib : Library Rng)

open State

namespace State

variable {g : Graph} {bindings : List (String × Value)} {backend : Backend} {full : Prop}
variable {c : Settings} {s t : State} {x y : Except Failure Output} {r : Except Failure Output}

theorem Answers.of_rooted (h : Answers bindings backend full x r t) (hxy : rooted x = rooted y)
    (hok : full → ∃ out, y = .ok out) : Answers bindings backend full y r t := by
  cases r with
  | ok out => exact ⟨⟨h.1.known, h.1.agrees.trans hxy⟩, hok⟩
  | error e =>
    intro hfull
    obtain ⟨out, rfl⟩ := hok hfull
    rw [h hfull] at hxy
    cases hxy

theorem Completes.of_rooted (h : Completes bindings backend full x r t)
    (hxy : rooted x = rooted y) (hok : full → ∃ out, y = .ok out) :
    Completes bindings backend full y r t :=
  ⟨h.1.of_rooted hxy hok, h.2⟩

/-- If everything is evaluated, then the outcome is exactly what was meant. -/
theorem Completes.eq (h : Completes bindings backend full x r t) (hfull : full) : r = x := by
  cases r with
  | ok out => exact (h.1.1.eq_ok (h.2 out rfl hfull)).symm
  | error e => exact (h.1 hfull).symm

/-- If everything is evaluated, then a node that is left of an earlier one is run. -/
theorem Faithful.goes_on (hs : Faithful g bindings backend full s) (hfull : full)
    {last next : NodeId}
    (hnext : s.Spared (fun _ => True) last.index next) : ¬ (next = last ∨ s.stays next = true) := by
  have hstays := hs.stays_eq_false hfull next
  have hlt := Earlier.lt_of_spared hnext hstays
  rintro (rfl | hstays')
  · exact absurd hlt (Nat.lt_irrefl _)
  · simp [hstays] at hstays'

end State

/-! ## Outputs -/

namespace Output

section Completion

variable (g : Graph) (bindings : List (String × Value)) (full : Prop) (c : Settings)

/-- A node that is there in the state `s`. If it does not stay as it is, then it is evaluated to
what it means. -/
structure Forced (complete : NodeId → Eval Output) (s : State) (n : NodeId) : Prop where
  known : n.index < s.graph.size
  complete : ∀ t, Later s t → t.stays n = false → n.index < g.size ∧
    (faithfulness g bindings c.backend full).Ensures c t (complete n)
      (Completes bindings c.backend full (g.denote bindings c.backend n))

end Completion

variable {g : Graph} {bindings : List (String × Value)} {full : Prop} {c : Settings}
variable {complete : NodeId → Eval Output}

theorem Forced.later {s t : State} {n : NodeId} (h : Forced g bindings full c complete s n)
    (hst : Later s t) : Forced g bindings full c complete t n where
  known := Nat.lt_of_lt_of_le h.known hst.graph.size_le
  complete u htu := h.complete u (hst.trans htu)

mutual

theorem completeWith_faithful (hg : g.WellFormed) : ∀ (o : Output) (s : State),
    (∀ n ∈ o.nodes, Forced g bindings full c complete s n) →
    (faithfulness g bindings c.backend full).Ensures c s (o.completeWith complete)
      (Completes bindings c.backend full (o.denote (s.graph.denote bindings c.backend)))
  | .value v, s, _ => .pure fun _ => ⟨⟨.of_eq_ok rfl rfl, fun _ => ⟨_, rfl⟩⟩, fun _ h _ => by
      cases h; rfl⟩
  | .node id, s, h => by
    intro hs
    have hid := h id List.mem_cons_self
    rw [completeWith_node_run]
    split
    · rename_i hstays
      -- A node that stays as it is means itself.
      have hleft : ¬ full := fun hfull => by simp [hs.stays_eq_false hfull] at hstays
      exact ⟨hs, Later.refl s, ⟨⟨by simpa using hid.known, rfl⟩, fun hfull => absurd hfull hleft⟩,
        fun _ _ hfull => absurd hfull hleft⟩
    · rename_i hstays
      obtain ⟨hsize, hcomplete⟩ := hid.complete s (Later.refl s) (by simpa using hstays)
      have hdenote : (Output.node id).denote (s.graph.denote bindings c.backend) =
          g.denote bindings c.backend id := hs.denote_eq hg hsize
      rw [hdenote]
      exact hcomplete hs
  | .list items, s, h => by
    refine (completeItemsWith_faithful hg items s h).bind (fun rs t _ _ hrs => ?_)
      fun e t _ _ he => ?_
    · obtain ⟨⟨hmeans, hok⟩, hnodes⟩ := hrs
      refine .pure fun _ => ⟨⟨hmeans.list, fun hfull => ?_⟩, ?_⟩
      · obtain ⟨os, hos⟩ := hok hfull
        exact ⟨.list os, by unfold denote; rw [hos]; rfl⟩
      · rintro _ ⟨⟩ hfull
        exact hnodes rs rfl hfull
    · refine ⟨fun hfull => ?_, by simp⟩
      unfold denote
      rw [he.1 hfull]
      rfl

theorem completeItemsWith_faithful (hg : g.WellFormed) : ∀ (os : List Output) (s : State),
    (∀ n ∈ nodesOfItems os, Forced g bindings full c complete s n) →
    (faithfulness g bindings c.backend full).Ensures c s (completeItemsWith complete os)
      fun r t => AnswersAll bindings c.backend full
          (denoteItems (s.graph.denote bindings c.backend) os) r t ∧
        ∀ rs, r = .ok rs → full → nodesOfItems rs = []
  | [], s, _ => .pure fun _ => ⟨⟨.nil, fun _ => ⟨_, rfl⟩⟩, fun _ h _ => by cases h; rfl⟩
  | o :: os, s, h => by
    refine .of_inv fun hs => (completeWith_faithful hg o s fun n hn =>
      h n (List.mem_append_left _ hn)).bind (fun r t ht hst hr => ?_) fun e t _ _ he => ?_
    · have hos : ∀ n ∈ nodesOfItems os, Forced g bindings full c complete s n :=
        fun n hn => h n (List.mem_append_right _ hn)
      -- Completing the first item may add copies, which do not change what the others mean.
      have hdenote : denoteItems (t.graph.denote bindings c.backend) os =
          denoteItems (s.graph.denote bindings c.backend) os :=
        denoteItems_congr fun n hn => Graph.denote_extends hs.wellFormed ht.wellFormed
          (hst.toGrows.extends ht.pure) (hos n hn).known
      refine (completeItemsWith_faithful hg os t fun n hn => (hos n hn).later hst).bind
        (fun rs u hu htu hrs => ?_) fun e u _ _ he => ?_
      · rw [hdenote] at hrs
        obtain ⟨⟨hmeans, hok⟩, hnodes⟩ := hrs
        refine .pure fun _ => ⟨⟨.cons (ht.means_later hu htu hr.1.1) hmeans, fun hfull => ?_⟩, ?_⟩
        · obtain ⟨r', hr'⟩ := hr.1.2 hfull
          obtain ⟨rs', hrs'⟩ := hok hfull
          exact ⟨r' :: rs', by unfold denoteItems; rw [hr', hrs']; rfl⟩
        · rintro _ ⟨⟩ hfull
          exact List.append_eq_nil_iff.mpr ⟨hr.2 r rfl hfull, hnodes rs rfl hfull⟩
      · rw [hdenote] at he
        refine ⟨fun hfull => ?_, by simp⟩
        obtain ⟨r', hr'⟩ := hr.1.2 hfull
        unfold denoteItems
        rw [hr', he.1 hfull]
        rfl
    · refine ⟨fun hfull => ?_, by simp⟩
      unfold denoteItems
      rw [he.1 hfull]
      rfl

end

end Output

/-! ## Running and completing nodes -/

namespace Earlier

variable {earlier : Earlier} {g : Graph} {bindings : List (String × Value)} {full : Prop}
variable {c : Settings} {bound bound' : Nat} {s t : State} {id : NodeId} {node : Node}
variable {o : Operation}

theorem runOperation_faithful (hg : g.WellFormed) (hpure : g.Pure)
    (h : earlier.Truthful g bindings full c id.index)
    (hsound : earlier.Sound (fun _ => True) c id.index)
    (hnode : g.node? id = some node) (hkind : node.kind = .operation o) {name : String} :
    (faithfulness g bindings c.backend full).Ensures c s
      (earlier.runOperation id name (.operation o))
      (Answers bindings c.backend full (g.denote bindings c.backend id)) := by
  intro hs
  have hids : ∀ r ∈ o.references, r.index < id.index ∧ r.index < g.size := by
    intro r hr
    have hlt := hg.lt_of_operation hnode hkind r hr
    exact ⟨hlt, Nat.lt_trans hlt (Graph.lt_size_of_node? hnode)⟩
  have hdenote : g.denote bindings c.backend id =
      (o.denote (g.denote bindings c.backend) c.backend node.dtype).mapError (g.wrap id) := by
    rw [Graph.denote_eq hg]
    simp only [Graph.denoteNode, hnode, hkind]
  have hregime : (coherence (fun _ => True) (id.index + 1)).Ensures c s
      (earlier.runOperation id name (.operation o)) _ :=
    runOperation_ensures hsound (hs.graph.node? hnode) hkind
  obtain ⟨hcoherent, hstep, -⟩ := hregime hs.coherent
  cases hlookup : s.memo.lookup id with
  | some known =>
    rw [runOperation_hit hlookup]
    have hquiet := Quiet.report s (r := .remembered name) rfl
    have ht := hs.quiet hquiet
    obtain ⟨-, hanswers⟩ := ht.memo id known (mem_of_lookup hlookup)
    exact ⟨ht, hquiet.later, hanswers⟩
  | none =>
    obtain ⟨ht, hst, hanswers⟩ :=
      perform_faithful hg h hids hnode hkind (hpure.operations id node o hnode hkind) hs
    cases hperform : earlier.perform id o c s with
    | mk r t =>
      rw [hperform] at ht hst hanswers
      cases r with
      | error e =>
        rw [runOperation_error hlookup hperform]
        refine ⟨ht, hst, fun hfull => ?_⟩
        rw [hdenote, hanswers hfull, (ht.full hfull).1]
        rfl
      | ok out =>
        -- Without a breakpoint, the result is remembered and nothing else happens.
        obtain ⟨hmeans, hok⟩ := hanswers
        rw [runOperation_ok hlookup hperform (fire_unwatched (ht.pure.watched?_eq_none id))]
          at hcoherent hstep ⊢
        have hmeans' : Means bindings c.backend (t.recorded id out) out
            (g.denote bindings c.backend id) :=
          ⟨hmeans.known, by rw [hdenote, rooted_wrap]; exact hmeans.agrees⟩
        have hok' : full → ∃ r, g.denote bindings c.backend id = .ok r := by
          intro hfull
          obtain ⟨r, hr⟩ := hok hfull
          exact ⟨r, by rw [hdenote, hr]; rfl⟩
        refine ⟨⟨hcoherent, ht.graph, ht.pure, ht.context, ht.copies, ?_, ht.full⟩,
          hstep.toLater, hmeans', hok'⟩
        intro i result hmem
        rcases List.mem_cons.mp hmem with heq | hmem
        · cases heq
          exact ⟨Graph.lt_size_of_node? hnode, hmeans', hok'⟩
        · obtain ⟨hlt, hold, hok⟩ := ht.memo i result hmem
          exact ⟨hlt, ⟨hold.known, hold.agrees⟩, hok⟩

theorem runNode_faithful (hg : g.WellFormed) (hpure : g.Pure)
    (h : earlier.Truthful g bindings full c bound)
    (hsound : earlier.Sound (fun _ => True) c bound) (hid : id.index ≤ bound)
    (hsize : id.index < g.size) :
    (faithfulness g bindings c.backend full).Ensures c s (earlier.runNode id)
      (Answers bindings c.backend full (g.denote bindings c.backend id)) := by
  obtain ⟨node, hnode⟩ := Graph.exists_node?_of_lt hsize
  have hdenote : g.denote bindings c.backend id = _ := Graph.denote_eq hg id
  simp only [Graph.denoteNode, hnode] at hdenote
  refine .state ?_
  split
  · rename_i hretained
    refine .pure fun hs => ⟨hs.means_node hg hsize rfl, fun hfull => ?_⟩
    simp [Context.isRetained, (hs.full hfull).2.2] at hretained
  · refine .of_inv fun hs =>
      .of_eq (Eval.bind_run_ok (Eval.node_run_some (hs.graph.node? hnode))) ?_
    refine (report_faithful rfl).bind (fun _ t ht _ _ => ?_) fun _ _ _ _ habsurd => by cases habsurd
    -- The meaning of the node follows its kind, just as running it does.
    cases hkind : node.kind with
    | literal v =>
      simp only [hkind] at hdenote
      exact .pure fun _ => ⟨.of_eq_ok hdenote rfl, fun _ => ⟨_, hdenote⟩⟩
    | reference target =>
      simp only [hkind] at hdenote
      have hlt := hg.lt_of_reference hnode hkind
      rw [hdenote]
      exact h.run target t (Nat.lt_of_lt_of_le hlt hid) (Nat.lt_trans hlt hsize)
    | «variable» stored =>
      cases stored with
      | none =>
        simp only [hkind] at hdenote
        exact .fail fun _ _ => hdenote
      | some v =>
        simp only [hkind] at hdenote
        refine .bind (P := fun r _ => r = .ok ()) (.modify fun hs => ?_) (fun _ u _ _ _ => ?_)
          fun _ _ _ _ habsurd => by cases habsurd
        · exact ⟨hs.quiet (Quiet.recordRead t id), (Quiet.recordRead t id).later, rfl⟩
        · exact .pure fun _ => ⟨.of_eq_ok hdenote rfl, fun _ => ⟨_, hdenote⟩⟩
    | placeholder =>
      simp only [hkind] at hdenote
      refine .state ?_
      have hbinding : t.context.binding? node.name = bindings.lookup node.name := by
        rw [Context.binding?, ht.context]
      rw [hbinding]
      split
      · rename_i v hv
        simp only [hv] at hdenote
        exact .pure fun _ => ⟨.of_eq_ok hdenote rfl, fun _ => ⟨_, hdenote⟩⟩
      · rename_i hv
        simp only [hv] at hdenote
        exact .fail fun _ _ => hdenote
    | operation o =>
      exact runOperation_faithful hg hpure (h.mono hid) (hsound.mono hid) hnode hkind

/-- Nothing is run if there is no node to be run. -/
theorem runNode_missing (hs : s.graph.node? id = none)
    (hretained : s.context.isRetained id = false) :
    earlier.runNode id c s = (.error (.noSuchNode id.index), s) := by
  unfold runNode
  rw [Eval.state_bind_run, if_neg (by simp [hretained])]
  exact Eval.bind_run_error (Eval.node_run_none hs)

theorem force_list_faithful (hg : g.WellFormed) (h : earlier.Truthful g bindings full c bound)
    {origin last : NodeId} {remaining : Nat} {items : List Output}
    (hlast : last.index ≤ bound) (hsize : last.index < g.size)
    (hknown : ∀ n ∈ (Output.list items).nodes, n.index < s.graph.size)
    (hspared : ∀ n ∈ (Output.list items).nodes, s.Spared (fun _ => True) last.index n) :
    (faithfulness g bindings c.backend full).Ensures c s
      (earlier.force origin remaining last (.list items))
      (Completes bindings c.backend full
        ((Output.list items).denote (s.graph.denote bindings c.backend))) := by
  have hforced : ∀ n ∈ (Output.list items).nodes,
      Output.Forced g bindings full c earlier.complete s n := by
    refine fun n hn => ⟨hknown n hn, fun t hst hstays => ?_⟩
    have hlt := lt_of_spared (hst.spared (hspared n hn)) hstays
    exact ⟨Nat.lt_trans hlt hsize, h.complete n t (Nat.lt_of_lt_of_le hlt hlast)
      (Nat.lt_trans hlt hsize)⟩
  cases remaining <;> exact Output.completeWith_faithful hg (.list items) s hforced

/-- Forcing ends before it is stopped, because every node that is run lies before the last one. -/
theorem force_faithful (hg : g.WellFormed) (hpure : g.Pure)
    (h : earlier.Truthful g bindings full c bound)
    (hsound : earlier.Sound (fun _ => True) c bound)
    {origin last : NodeId} {remaining : Nat} {current : Output}
    (horigin : origin.index < g.size) (hlast : last.index ≤ bound) (hsize : last.index < g.size)
    (hmeans : Means bindings c.backend s current (g.denote bindings c.backend origin))
    (hok : full → ∃ r, g.denote bindings c.backend origin = .ok r)
    (hspared : ∀ n ∈ current.nodes, s.Spared (fun _ => True) last.index n)
    (hremaining : full → last.index ≤ remaining) :
    (faithfulness g bindings c.backend full).Ensures c s
      (earlier.force origin remaining last current)
      (Completes bindings c.backend full (g.denote bindings c.backend origin)) := by
  induction remaining generalizing last current s with
  | zero =>
    cases current with
    | value v => exact .pure fun _ => ⟨⟨hmeans, hok⟩, fun _ h _ => by cases h; rfl⟩
    | list items =>
      exact (force_list_faithful hg h hlast hsize hmeans.known hspared).conseq
        fun r t _ _ hr => hr.of_rooted hmeans.agrees hok
    | node next =>
      have hnext := hspared next List.mem_cons_self
      refine .stays ?_
      split
      · rename_i hstops
        exact .pure fun hs =>
          ⟨⟨hmeans, hok⟩, fun _ _ hfull => (hs.goes_on hfull hnext hstops).elim⟩
      · rename_i hgoes
        -- There is a node before `last`, so something was left if nothing may be run any more.
        have hlt := lt_of_spared hnext (by simpa using (not_or.mp hgoes).2)
        have hleft : ¬ full := fun hfull => absurd (hremaining hfull) (by omega)
        refine .settings (.of_inv fun hs => ?_)
        obtain ⟨node, hnode⟩ := Graph.exists_node?_of_lt horigin
        refine .of_eq (Eval.bind_run_ok (Eval.node_run_some (hs.graph.node? hnode))) ?_
        refine (report_faithful rfl).bind (fun _ t ht hst _ => ?_)
          fun _ _ _ _ habsurd => by cases habsurd
        exact .pure fun _ =>
          ⟨⟨hs.means_later ht hst hmeans, hok⟩, fun _ _ hfull => absurd hfull hleft⟩
  | succ remaining ih =>
    cases current with
    | value v => exact .pure fun _ => ⟨⟨hmeans, hok⟩, fun _ h _ => by cases h; rfl⟩
    | list items =>
      exact (force_list_faithful hg h hlast hsize hmeans.known hspared).conseq
        fun r t _ _ hr => hr.of_rooted hmeans.agrees hok
    | node next =>
      have hnext := hspared next List.mem_cons_self
      refine .stays ?_
      split
      · rename_i hstops
        exact .pure fun hs =>
          ⟨⟨hmeans, hok⟩, fun _ _ hfull => (hs.goes_on hfull hnext hstops).elim⟩
      · rename_i hgoes
        have hlt := lt_of_spared hnext (by simpa using (not_or.mp hgoes).2)
        have hle : next.index ≤ bound := by omega
        have hsize' := Nat.lt_trans hlt hsize
        refine .of_inv fun hs => ?_
        -- The node that was left stands for the node that the evaluation began with.
        have hagrees : rooted (g.denote bindings c.backend next) =
            rooted (g.denote bindings c.backend origin) :=
          (congrArg rooted (hs.denote_eq hg hsize')).symm.trans hmeans.agrees
        refine ((runNode_faithful hg hpure h hsound hle hsize').and
          (runNode_ensures hsound hle) Faithful.coherent).bind
          (fun out t _ _ hout => ?_) fun e t _ _ he => ?_
        · obtain ⟨hanswers, hrests⟩ := hout
          exact ih hle hsize' (hanswers.of_rooted hagrees hok).1 hrests.spared
            fun hfull => by have := hremaining hfull; omega
        · exact ⟨he.1.of_rooted hagrees hok, by simp⟩

theorem completeNode_faithful (hg : g.WellFormed) (hpure : g.Pure)
    (h : earlier.Truthful g bindings full c bound)
    (hsound : earlier.Sound (fun _ => True) c bound) (hcap : full → g.size ≤ c.maxIterations)
    (hid : id.index ≤ bound) (hsize : id.index < g.size) :
    (faithfulness g bindings c.backend full).Ensures c s (earlier.completeNode id)
      (Completes bindings c.backend full (g.denote bindings c.backend id)) := by
  refine ((runNode_faithful hg hpure h hsound hid hsize).and
    (runNode_ensures hsound hid) Faithful.coherent).bind (fun first t _ _ hfirst => ?_)
    fun e t _ _ he => ⟨he.1, by simp⟩
  obtain ⟨⟨hmeans, hok⟩, hrests⟩ := hfirst
  exact .settings (force_faithful hg hpure h hsound hsize hid hsize hmeans hok hrests.spared
    fun hfull => by have := hcap hfull; omega)

theorem below_truthful (hg : g.WellFormed) (hpure : g.Pure)
    (hcap : full → g.size ≤ c.maxIterations) (bound : Nat) :
    (below bound).Truthful g bindings full c bound := by
  refine below_satisfies (fun bound h id s hid => ?_) bound
  have hsound := below_sound (fun _ => True) c bound
  exact ⟨runNode_faithful hg hpure h hsound hid, completeNode_faithful hg hpure h hsound hcap hid⟩

end Earlier

/-! ## Whole evaluations -/

namespace Eval

variable {g : Graph} {bindings : List (String × Value)} {full : Prop} {c : Settings}

theorem run_faithful (hg : g.WellFormed) (hpure : g.Pure) (hcap : full → g.size ≤ c.maxIterations)
    {id : NodeId} (hid : id.index < g.size) (s : State) :
    (faithfulness g bindings c.backend full).Ensures c s (run id)
      (Answers bindings c.backend full (g.denote bindings c.backend id)) :=
  (Earlier.below_truthful hg hpure hcap (id.index + 1)).run id s (Nat.lt_succ_self _) hid

theorem complete_faithful (hg : g.WellFormed) (hpure : g.Pure)
    (hcap : full → g.size ≤ c.maxIterations) {id : NodeId} (hid : id.index < g.size) (s : State) :
    (faithfulness g bindings c.backend full).Ensures c s (complete id)
      (Completes bindings c.backend full (g.denote bindings c.backend id)) :=
  (Earlier.below_truthful hg hpure hcap (id.index + 1)).complete id s (Nat.lt_succ_self _) hid

theorem completeOutput_faithful (hg : g.WellFormed) (hpure : g.Pure)
    (hcap : full → g.size ≤ c.maxIterations) {out : Output} {s : State}
    (hout : ∀ n ∈ out.nodes, n.index < s.graph.size ∧ n.index < g.size) :
    (faithfulness g bindings c.backend full).Ensures c s (completeOutput out)
      (Completes bindings c.backend full (out.denote (s.graph.denote bindings c.backend))) :=
  Output.completeWith_faithful hg out s fun n hn =>
    ⟨(hout n hn).1, fun t _ _ =>
      ⟨(hout n hn).2, complete_faithful hg hpure hcap (hout n hn).2 t⟩⟩

end Eval

/-- The context gives values for placeholders, and everything is to be evaluated. -/
structure Context.Supplies (context : Context) (bindings : List (String × Value)) : Prop where
  bindings : context.bindings = bindings
  retained : context.retained = []

namespace State

variable {g : Graph} {bindings : List (String × Value)} {full : Prop} {c : Settings} {s : State}

theorem faithful_start (hg : g.WellFormed) (hpure : g.Pure) {context : Context}
    (hbindings : context.bindings = bindings) (hretained : full → context.retained = [])
    (config : Config) (spare : UInt64) {backend : Backend} :
    Faithful g bindings backend full (.start lib g context config spare) where
  coherent := coherent_start lib hg context config spare
  graph := .refl g
  pure := hpure
  context := hbindings
  copies := by simp [start]
  memo := by simp [start]
  full hfull := ⟨rfl, rfl, hretained hfull⟩

theorem Faithful.with_context {backend : Backend} (hs : Faithful g bindings backend full s)
    {context : Context} (h : context.Supplies bindings) :
    Faithful g bindings backend full { s with context } where
  coherent := hs.coherent.with_context context
  graph := hs.graph
  pure := hs.pure
  context := h.bindings
  copies := hs.copies
  memo id out hmem := by
    obtain ⟨hlt, hmeans, hok⟩ := hs.memo id out hmem
    exact ⟨hlt, ⟨hmeans.known, hmeans.agrees⟩, hok⟩
  full hfull := ⟨(hs.full hfull).1, (hs.full hfull).2.1, h.retained⟩

/-- A node that is not there is asked for in vain. -/
theorem missing_faithful {earlier : Earlier} {id : NodeId} (hid : ¬ id.index < g.size) :
    (faithfulness g bindings c.backend True).Ensures c s (earlier.runNode id)
      fun r _ => r = .error (.noSuchNode id.index) := by
  refine .of_inv fun hs => .of_eq (y := .fail _) ?_ (.fail fun _ => rfl)
  obtain ⟨hgraph, -, hretained⟩ := hs.full trivial
  refine Earlier.runNode_missing ?_ (by simp [Context.isRetained, hretained])
  rw [hgraph]
  exact Graph.node?_eq_none (Nat.not_lt.mp hid)

/-- Whatever is asked for, an evaluator that retains nothing stays faithful. -/
theorem call_faithful (hg : g.WellFormed) (hpure : g.Pure) (hcap : g.size ≤ c.maxIterations)
    (call : Call) : (faithfulness g bindings c.backend True).Ensures c s call.eval
      (OnResult fun _ _ => True) := by
  have htrivial : ∀ (r : Except Failure Output) (t : State), OnResult (fun _ _ => True) r t := by
    rintro (_ | _) _ <;> trivial
  refine call.eval_ensures (fun id _ t => ?_) (fun id _ t => ?_) s
  · by_cases hid : id.index < g.size
    · exact (Eval.run_faithful hg hpure (fun _ => hcap) hid t).conseq fun r u _ _ _ => htrivial r u
    · exact (missing_faithful hid).conseq fun r u _ _ _ => htrivial r u
  · by_cases hid : id.index < g.size
    · exact (Eval.complete_faithful hg hpure (fun _ => hcap) hid t).conseq
        fun r u _ _ _ => htrivial r u
    · exact (missing_faithful hid).bind (fun _ _ _ _ habsurd => by cases habsurd)
        fun e u _ _ _ => htrivial _ u

/-- Induction on the calls of the session. -/
theorem after_faithful (hg : g.WellFormed) (hpure : g.Pure) (hcap : g.size ≤ c.maxIterations)
    {session : Session} (hsession : ∀ entry ∈ session, entry.1.Supplies bindings)
    (hs : ∀ context : Context, context.Supplies bindings →
      Faithful g bindings c.backend True { s with context })
    {context : Context} (hcontext : context.Supplies bindings) :
    Faithful g bindings c.backend True { s.after c session with context } := by
  induction session generalizing s with
  | nil => exact hs context hcontext
  | cons first rest ih =>
    obtain ⟨context, call⟩ := first
    obtain ⟨hcall, -, -⟩ := call_faithful hg hpure hcap call
      (hs context (hsession _ List.mem_cons_self))
    exact ih (fun entry hentry => hsession entry (List.mem_cons_of_mem _ hentry))
      fun _ hcontext => hcall.with_context hcontext

/-! ## Transparency -/

/-- Whatever an evaluator was used for before, with the same values for the placeholders, evaluating
a node completely has the outcome that the node means, down to the nodes around a failure. -/
theorem complete_after_session (hg : g.Built) (hpure : g.Pure) (hcap : g.size ≤ c.maxIterations)
    (first : Context) (config : Config) (spare : UInt64) {session : Session}
    (hsession : ∀ entry ∈ session, entry.1.Supplies bindings) {context : Context}
    (hcontext : context.Supplies bindings) {id : NodeId} (hid : id.index < g.size) :
    (Eval.complete id c { (State.start lib g first config spare).after c session with context }).1 =
      g.denote bindings c.backend id := by
  -- The first context is replaced in the first call, so it need not supply the values.
  have hinitial : ∀ context : Context, context.Supplies bindings →
      Faithful g bindings c.backend True { State.start lib g first config spare with context } :=
    fun context h => faithful_start lib hg.wellFormed hpure h.bindings (fun _ => h.retained)
      config spare
  have hs := after_faithful hg.wellFormed hpure hcap hsession hinitial hcontext
  obtain ⟨-, -, hcompletes⟩ :=
    Eval.complete_faithful hg.wellFormed hpure (fun _ => hcap) hid _ hs
  exact hcompletes.eq trivial

/-- A sum of negations, after its summands were evaluated in different ways. -/
theorem complete_after_session_negate :
    let g := Graph.ofSteps [.placeholder "x" .int32 none,
      .operation "y" ⟨.kernel (.unary .negate), [⟨0⟩], .empty⟩,
      .operation "z" ⟨.kernel (.binary (.arithmetic .add)), [⟨0⟩, ⟨1⟩], .empty⟩]
    let context := Context.empty.bind "x" (.scalar (.int 3))
    let s := (State.start .standard g .empty .standard 0).after ⟨32, .cpu⟩
      [(context, .run ⟨1⟩), (context, .complete ⟨7⟩), (context, .runAll [⟨2⟩, ⟨0⟩])]
    (Eval.complete ⟨2⟩ ⟨32, .cpu⟩ { s with context }).1 = g.denote context.bindings .cpu ⟨2⟩ :=
  complete_after_session .standard (Graph.built_ofSteps _) (by decide) (by decide) .empty .standard
    0 (by simp only [List.forall_mem_cons]; exact ⟨⟨rfl, rfl⟩, ⟨rfl, rfl⟩, ⟨rfl, rfl⟩, by simp⟩)
    ⟨rfl, rfl⟩ (by decide)

/-- An evaluation that left operations for later means the same as one that did not: completing its
output in the graph that it left behind gives the same results, and fails for the same reasons. -/
theorem completeOutput_of_deferred (hg : g.Built) (hpure : g.Pure) {context : Context}
    (config : Config) (spare : UInt64) {c' : Settings} (hbackend : c'.backend = c.backend)
    {id : NodeId} (hid : id.index < g.size) {out : Output}
    (hrun : Eval.complete id c (.start lib g context config spare) = (.ok out, s))
    (hcap : s.graph.size ≤ c'.maxIterations) {context' : Context}
    (hcontext : context'.Supplies context.bindings) (config' : Config) (spare' : UInt64) :
    let later := (Eval.completeOutput out c' (.start lib s.graph context' config' spare')).1
    let atOnce := (Eval.complete id c' (.start lib g context' config' spare')).1
    (∀ v, later = .ok v ↔ atOnce = .ok v) ∧
      ∀ e, later = .error e → ∃ e', atOnce = .error e' ∧ e'.rootCause = e.rootCause := by
  have hs₀ : Faithful g context.bindings c.backend False (.start lib g context config spare) :=
    faithful_start lib hg.wellFormed hpure rfl False.elim config spare
  obtain ⟨hs, -, hout⟩ := Eval.complete_faithful hg.wellFormed hpure False.elim hid _ hs₀
  rw [hrun] at hs hout
  obtain ⟨⟨hmeans, -⟩, -⟩ := hout
  have hsize : g.size ≤ s.graph.size := (Graph.Evolves.of_extends hs.graph).size_le
  have hknown : ∀ n ∈ out.nodes, n.index < s.graph.size ∧ n.index < s.graph.size :=
    fun n hn => ⟨hmeans.known n hn, hmeans.known n hn⟩
  -- The graph that is left behind, with its copies, is a graph to begin with like any other.
  obtain ⟨-, -, hlater⟩ := Eval.completeOutput_faithful hs.wellFormed hs.pure (fun _ => hcap)
    (s := .start lib s.graph context' config' spare') hknown
    (faithful_start lib hs.wellFormed hs.pure hcontext.bindings (fun _ => hcontext.retained)
      config' spare')
  obtain ⟨-, -, hatOnce⟩ := Eval.complete_faithful hg.wellFormed hpure
    (fun _ => Nat.le_trans hsize hcap) hid _
    (faithful_start lib hg.wellFormed hpure hcontext.bindings (fun _ => hcontext.retained)
      config' spare')
  intro later atOnce
  apply rooted_eq_iff.mp
  calc rooted later
      = rooted (out.denote (s.graph.denote context.bindings c'.backend)) :=
        congrArg rooted (hlater.eq trivial)
    _ = rooted (g.denote context.bindings c'.backend id) := by
        rw [hbackend]
        exact hmeans.agrees
    _ = rooted atOnce := congrArg rooted (hatOnce.eq trivial).symm

/-- A negation that was left for later because its operand was retained. -/
theorem completeOutput_of_deferred_negate :
    let g := Graph.ofSteps [.placeholder "x" .int32 none,
      .operation "y" ⟨.kernel (.unary .negate), [⟨0⟩], .empty⟩]
    let context := Context.empty.bind "x" (.scalar (.int 3))
    let partly := Eval.complete ⟨1⟩ ⟨32, .cpu⟩ (.start .standard g (context.retain ⟨0⟩) .standard 0)
    let later := (Eval.completeOutput (.node ⟨2⟩) ⟨32, .cpu⟩
      (.start .standard partly.2.graph context .standard 0)).1
    let atOnce := (Eval.complete ⟨1⟩ ⟨32, .cpu⟩ (.start .standard g context .standard 0)).1
    partly.1 = .ok (.node ⟨2⟩) ∧ (∀ v, later = .ok v ↔ atOnce = .ok v) ∧
      ∀ e, later = .error e → ∃ e', atOnce = .error e' ∧ e'.rootCause = e.rootCause := by
  intro g context partly later atOnce
  have hrun : Eval.complete ⟨1⟩ ⟨32, .cpu⟩ (.start .standard g (context.retain ⟨0⟩) .standard 0) =
      (.ok (.node ⟨2⟩), partly.2) := rfl
  have hcontext : context.Supplies (context.retain ⟨0⟩).bindings := ⟨rfl, rfl⟩
  exact ⟨rfl, completeOutput_of_deferred .standard (Graph.built_ofSteps _) (by decide) .standard 0
    rfl (by decide) hrun (by decide) hcontext .standard 0⟩

end State

end Dataflow
