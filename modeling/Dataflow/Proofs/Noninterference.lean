import Dataflow.Proofs.Agreement
import Dataflow.Proofs.Simulation
import Dataflow.Proofs.Deferral

/-!
# What was not read has no influence

A complete evaluation notes every variable whose value it looks at. If it succeeds, then what the
other variables store makes no difference: in every graph that agrees on the variables that were
read, the evaluation has the same result and reads the same variables, and writes the same values.
-/

namespace Dataflow

variable (lib : Library Rng)

open State

namespace State

variable {s s' t : State} {g : Graph} {id copy : NodeId} {R : NodeId → Prop}

/-- A write to the node was reported. -/
def Wrote (s : State) (id : NodeId) : Prop :=
  ∃ node, s.graph.node? id = some node ∧ node.name ∈ s.reportedWrites.map (·.2.1)

/-- Only the copy is new after it was added. -/
theorem wrote_of_addDeferred {o : Operation} (hadd : s.graph.addDeferred id o = .ok (t.graph, copy))
    (hwrites : t.reportedWrites = s.reportedWrites) {i : NodeId} (h : t.Wrote i) :
    s.Wrote i ∨ i = copy := by
  obtain ⟨n, hn, hwritten⟩ := h
  rw [hwrites] at hwritten
  obtain ⟨hextends, hsize, hcopy, -⟩ := Graph.addDeferred_copy hadd
  have hlt := Graph.lt_size_of_node? hn
  rcases Nat.lt_or_eq_of_le (show i.index ≤ s.graph.size by omega) with hlt | heq
  · obtain ⟨m, hm⟩ := Graph.exists_node?_of_lt hlt
    cases (hextends.node? hm).symm.trans hn
    exact .inl ⟨n, hm, hwritten⟩
  · exact .inr (congrArg NodeId.mk (heq.trans hcopy.symm))

/-- A write is to the one node of its name. -/
theorem wrote_of_wrote (hs : s.graph.WellFormed) {w : Write} {node : Node}
    (hnode : s.graph.node? id = some node) (hname : node.name = w.2.1) {i : NodeId}
    (h : (s.wrote (some w)).Wrote i) : s.Wrote i ∨ i = id := by
  obtain ⟨n', hn', hwritten⟩ := h
  obtain ⟨n, hn, rfl⟩ := Option.map_eq_some_iff.mp
    ((Graph.node?_replay s.graph [w] i).symm.trans hn')
  have hsame : (n.written w).name = n.name := Node.name_eq_of_bare (Node.bare_written n w)
  simp only [wrote_reportedWrites, Option.toList_some, List.map_append, List.mem_append,
    List.map_cons, List.map_nil, List.mem_singleton, List.foldl_cons, List.foldl_nil, hsame]
    at hwritten
  rcases hwritten with hold | hnew
  · exact .inl ⟨n, hn, hold⟩
  · exact .inr (hs.names i id n node hn hnode (hnew.trans hname.symm))

/-- The two states differ in the graph only, and the graphs agree on the variables in `R` and on
those that were written. -/
structure Echoes (R : NodeId → Prop) (s s' : State) : Prop where
  rest : s' = { s with graph := s'.graph }
  graph : s.graph.Agrees (fun id => R id ∨ s.Wrote id) s'.graph

namespace Echoes

/-- A change in which the graph is left alone and nothing is written. -/
theorem quiet (h : Echoes R s s') (hgraph : t.graph = s.graph)
    (hwrites : t.reportedWrites = s.reportedWrites) :
    Echoes R t { t with graph := s'.graph } := by
  refine ⟨rfl, ?_⟩
  rw [hgraph]
  exact h.graph.mono fun i hi => by simpa [Wrote, hgraph, hwrites] using hi

theorem memo (h : Echoes R s s') : s'.memo = s.memo := by rw [h.rest]

theorem symbolic (h : Echoes R s s') : s'.symbolic = s.symbolic := by rw [h.rest]

theorem rng (h : Echoes R s s') : s'.rng = s.rng := by rw [h.rest]

theorem context (h : Echoes R s s') : s'.context = s.context := by rw [h.rest]

theorem events (h : Echoes R s s') : s'.events = s.events := by rw [h.rest]

end Echoes

end State

namespace Simulation

variable {g : Graph} {R : NodeId → Prop} {c : Settings} {s s' : State} {id : NodeId}

/-- The first run reads only variables in `R`, and the second has come as far in another graph. -/
def reading (g : Graph) (R : NodeId → Prop) : Simulation where
  origin := g
  within id := id.index < g.size
  readable := R
  rel := Echoes R
  step _ _ := True

theorem reading_leads {t t' : State} (h : Echoes R t t') : (reading g R).Leads s s' t t' :=
  ⟨h, trivial, trivial⟩

theorem reading_compute {args : Arguments} :
    Simulates (reading g R) c s (.compute args) (.compute args) where
  reads := by rw [Eval.compute_run]; exact List.Subset.refl _
  result a t s' hrun _ hs' := by
    have hs' : Echoes R s s' := hs'
    rw [Eval.compute_run] at hrun
    obtain ⟨ha, rfl⟩ := Prod.mk.inj hrun
    rw [Eval.compute_run, hs'.rng, hs'.events, ha, hs'.rest]
    refine ⟨_, rfl, reading_leads (hs'.quiet rfl ?_)⟩
    exact (Quiet.reports s _ _ (args.compute_reports c.backend s.rng)).reportedWrites

theorem reading_defer {node : Node} {o : Operation} (hnode : s.graph.node? id = some node) :
    Simulates (reading g R) c s (.defer id o) (.defer id o) where
  reads := by rw [Eval.defer_context hnode]; exact List.Subset.refl _
  result out t s' hrun _ hs' := by
    have hs' : Echoes R s s' := hs'
    cases hsymbolic : s.isSymbolic id with
    | true =>
      have hsymbolic' : s'.isSymbolic id = true := by rwa [isSymbolic, hs'.symbolic]
      cases (Eval.defer_run_symbolic hsymbolic).symm.trans hrun
      exact ⟨s', Eval.defer_run_symbolic hsymbolic', reading_leads hs'⟩
    | false =>
      have hsymbolic' : s'.isSymbolic id = false := by rwa [isSymbolic, hs'.symbolic]
      obtain ⟨h, copy, hadd⟩ := Graph.exists_addDeferred hnode o
      obtain ⟨⟨origin, horigin⟩, added, hadded⟩ := Eval.node?_of_addDeferred hadd
      cases (Eval.defer_run_of_nodes hsymbolic hadd horigin hadded).symm.trans hrun
      -- The copies have the same name, and they are reported alike.
      obtain ⟨h', hadd', hagrees⟩ := hs'.graph.addDeferred hadd
      obtain ⟨origin', horigin', hbare⟩ := hagrees.exists_node? horigin
      obtain ⟨added', hadded', hbare'⟩ := hagrees.exists_node? hadded
      have hname : origin'.name = origin.name := Node.name_eq_of_bare hbare
      have hname' : added'.name = added.name := Node.name_eq_of_bare hbare'
      refine ⟨_, Eval.defer_run_of_nodes hsymbolic' hadd' horigin' hadded',
        reading_leads ⟨?_, hagrees.mono ?_⟩⟩
      · rw [hname, hname', hs'.rest]
        rfl
      · rintro i (hi | hi)
        · exact .inl (.inl hi)
        · refine (wrote_of_addDeferred hadd ?_ hi).imp_left .inr
          exact (Quiet.report (s.withCopy h copy) rfl).reportedWrites

theorem reading_write (hs : s.graph.WellFormed) {update : Update} {v : Value} :
    Simulates (reading g R) c s (.write update id v) (.write update id v) where
  reads := by rw [Eval.write_context hs]; exact List.Subset.refl _
  result out t s' hrun _ hs' := by
    have hs' : Echoes R s s' := hs'
    obtain ⟨node, stored, w, hnode, -, rfl, hrun', hstored⟩ :=
      Eval.write_run_agrees hs hs'.graph hrun
    refine ⟨_, hrun', reading_leads ⟨?_, hstored.mono ?_⟩⟩
    · rw [hs'.rest]
      rfl
    · rintro i (hi | hi)
      · exact .inl (.inl hi)
      · exact (wrote_of_wrote hs hnode rfl hi).imp_left .inr

/-- The simulation needs nothing of the graph but that it has no breakpoints. -/
theorem reading_lawful (hg : g.WellFormed) (hwatched : ∀ node ∈ g.nodes, node.watched = false) :
    (reading g R).Lawful False c where
  refl _ := trivial
  trans _ _ := trivial
  known _ hid := hid
  closed a b ha hr := Nat.lt_trans (hg.lt_of_refers hr) ha
  steps _ _ h := h.elim
  symbolic h := Echoes.symbolic h
  retained h := by rw [Echoes.context h]
  bindings h := by rw [Echoes.context h]
  node {s s'} h {id n} _ hn := by
    have hs' : Echoes R s s' := h
    obtain ⟨n', hn', hbare⟩ := hs'.graph.exists_node? hn
    refine ⟨n', hn', hbare, fun hread => ?_⟩
    have hsame := hs'.graph.node? id (.inl hread)
    rw [hn', hn] at hsame
    exact Option.some.inj hsame
  unwatched id _ := Graph.watched?_eq_none hwatched id
  report {s s'} h {r} hr := by
    have hs' : Echoes R s s' := h
    rw [hs'.events, hs'.rest]
    exact reading_leads (hs'.quiet rfl (Quiet.report s hr).reportedWrites)
  recordRead {s s'} h id := by
    have hs' : Echoes R s s' := h
    rw [hs'.context, hs'.rest]
    exact reading_leads (hs'.quiet rfl rfl)
  compute _ _ _ _ _ := reading_compute
  defer _ _ hnode _ _ := reading_defer hnode
  write hs _ _ _ _ _ := reading_write hs.graph

/-- Both runs know the same results. -/
theorem reading_memoizes (laws : (reading g R).Lawful False c) :
    Earlier.Memoizes (reading g R) False c := by
  intro id o hid hperform b b' s node hb hb' hs hnode hkind hretained
  cases hknown : s.memo.lookup id with
  | some known =>
    exact Earlier.runOperation_simulates_of_hit laws hknown fun s' hs' => by
      rw [Echoes.memo hs', hknown]
  | none =>
    refine Earlier.runOperation_simulates_of_miss laws
      ((Earlier.below_tracked False c b).mono hb) hid hs hnode hkind hknown hretained
      (hperform b b' s node hb hb' hs hnode hkind hretained)
      (fun s' hs' => by rw [Echoes.memo hs', hknown]) fun t t' out h => ?_
    have ht : Echoes R t t' := h
    rw [ht.rest]
    exact reading_leads (ht.quiet rfl rfl)

end Simulation

namespace State

/-- If a complete evaluation succeeds in a graph without breakpoints, it does so in the same way in
every graph that stores the same in the variables that were read. Afterwards the graphs agree on
these and on the variables that were written. -/
theorem complete_of_agreeing_reads {g g' : Graph} (hg : g.WellFormed)
    (hwatched : ∀ node ∈ g.nodes, node.watched = false) (context : Context) (config : Config)
    (seed spare spare' : UInt64) {c : Settings} {id : NodeId} (hid : id.index < g.size)
    {out : Output} {t : State}
    (hrun : Eval.complete id c (start lib g context (config.withSeed seed) spare) = (.ok out, t))
    (hagrees : g.Agrees (· ∈ t.context.reads) g') : ∃ t',
      Eval.complete id c (start lib g' context (config.withSeed seed) spare') = (.ok out, t') ∧
      t'.context.reads = t.context.reads ∧
      t.graph.Agrees (fun i => i ∈ t.context.reads ∨ t.Wrote i) t'.graph := by
  have laws := Simulation.reading_lawful (R := (· ∈ t.context.reads)) (c := c) hg hwatched
  have hstart : (Simulation.reading g (· ∈ t.context.reads)).Ready False
      (start lib g context (config.withSeed seed) spare) :=
    { accounted_start lib hg context (config.withSeed seed) spare with origin := .refl g }
  have hecho : Echoes (· ∈ t.context.reads) (start lib g context (config.withSeed seed) spare)
      (start lib g' context (config.withSeed seed) spare') := by
    refine ⟨rfl, hagrees.mono ?_⟩
    rintro i (hi | ⟨n, -, hn⟩)
    · exact hi
    · simp [start, reportedWrites] at hn
  obtain ⟨t', hrun', ht, -, -⟩ :=
    (Eval.complete_simulates laws (Simulation.reading_memoizes laws) hid hstart).result
      out t _ hrun (fun i hi => hi) hecho
  have ht : Echoes (· ∈ t.context.reads) t t' := ht
  exact ⟨t', hrun', by rw [ht.context], ht.graph⟩

/-- An assignment reads the variable that it takes the value from, and not the one that it sets. -/
theorem complete_of_agreeing_reads_assign :
    let g (initial : Int64) := Graph.ofSteps [.variable "a" .int32 (some (.scalar (.int 1))),
      .variable "b" .int32 (some (.scalar (.int initial))),
      .operation "set" ⟨.control (.assign .set), [⟨1⟩, ⟨0⟩], .empty⟩]
    let start (initial : Int64) (spare : UInt64) : State :=
      .start .standard (g initial) .empty (Config.standard.withSeed 7) spare
    let t := (Eval.complete ⟨2⟩ ⟨32, .cpu⟩ (start 2 0)).2
    t.context.reads = [⟨0⟩] ∧ ∃ t', Eval.complete ⟨2⟩ ⟨32, .cpu⟩ (start 5 1) =
        (.ok (.value (.scalar (.int 1))), t') ∧
      t'.context.reads = [⟨0⟩] ∧
      t.graph.Agrees (fun i => i ∈ t.context.reads ∨ t.Wrote i) t'.graph := by
  intro g start t
  have hrun : Eval.complete ⟨2⟩ ⟨32, .cpu⟩ (start 2 0) =
      (.ok (.value (.scalar (.int 1))), t) := rfl
  refine ⟨rfl, complete_of_agreeing_reads .standard (Graph.built_ofSteps _).wellFormed (by decide)
    .empty .standard 7 0 1 (by decide) hrun ⟨rfl, rfl, fun i hi => ?_⟩⟩
  obtain rfl : i = ⟨0⟩ := List.mem_singleton.mp hi
  rfl

end State

end Dataflow
