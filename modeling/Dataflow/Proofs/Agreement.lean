import Dataflow.Proofs.Preservation

/-!
# Graphs that differ in stored values

Two graphs with the same nodes, of which only the variables may store different values. Such graphs
grow in the same way, and a write makes them agree on the variable that it names.
-/

namespace Dataflow

/-- A write to a variable leaves nothing of what was stored before. -/
theorem Node.written_eq_of_bare {n n' : Node} {w : Write} (h : n'.bare = n.bare)
    (hname : n.name = w.2.1) : n'.written w = n.written w := by
  have hname' : n'.name = w.2.1 := (name_eq_of_bare h).trans hname
  by_cases hn : ∃ stored, n.kind = .variable stored
  · obtain ⟨stored, hkind⟩ := hn
    obtain ⟨stored', hkind'⟩ := exists_variable_of_bare h hkind
    rw [written_of_variable hkind, written_of_variable hkind', if_pos hname, if_pos hname']
    simp only [bare, hkind, hkind', Node.mk.injEq] at h ⊢
    simpa using h
  · rw [eq_of_bare_eq_of_not_variable h fun stored hkind => hn ⟨stored, hkind⟩]

namespace Graph

/-- The graphs have the same nodes under the same names, and those for which `on` holds store the
same. -/
structure Agrees (on : NodeId → Prop) (g g' : Graph) : Prop where
  bare : g'.bare = g.bare
  index : g'.index = g.index
  node? : ∀ id, on id → g'.node? id = g.node? id

variable {on on' : NodeId → Prop} {g g' h : Graph} {id copy : NodeId} {n : Node} {o : Operation}

theorem size_eq_of_bare (hbare : g'.bare = g.bare) : g'.size = g.size := by
  simpa [Graph.bare, size] using congrArg List.length hbare

theorem freeName_of_index (hindex : g'.index = g.index) (name : String) :
    g'.freeName name = g.freeName name := by
  cases g
  cases g'
  cases hindex
  rfl

namespace Agrees

theorem refl (g : Graph) : g.Agrees on g := ⟨rfl, rfl, fun _ _ => rfl⟩

theorem symm (hg : g.Agrees on g') : g'.Agrees on g :=
  ⟨hg.bare.symm, hg.index.symm, fun id hid => (hg.node? id hid).symm⟩

theorem mono (hg : g.Agrees on g') (h : ∀ id, on' id → on id) : g.Agrees on' g' :=
  ⟨hg.bare, hg.index, fun id hid => hg.node? id (h id hid)⟩

theorem wellFormed (hg : g.Agrees on g') (hwell : g.WellFormed) : g'.WellFormed :=
  hwell.of_bare hg.bare hg.index

theorem exists_node? (hg : g.Agrees on g') (hn : g.node? id = some n) :
    ∃ n', g'.node? id = some n' ∧ n'.bare = n.bare :=
  Evolves.node? (show g.bare <+: g'.bare from hg.bare ▸ List.prefix_rfl) hn

/-- A node is added with the same name and at the same position. -/
theorem insert (hg : g.Agrees on g') (name : String) (dtype : DType) (shape : Option Shape)
    (isConst : Bool) (kind : NodeKind) :
    (g'.insert name dtype shape isConst kind).2 = (g.insert name dtype shape isConst kind).2 ∧
      (g.insert name dtype shape isConst kind).1.Agrees (fun id => on id ∨ id.index = g.size)
        (g'.insert name dtype shape isConst kind).1 := by
  have hsize := size_eq_of_bare hg.bare
  have hinserted : g'.inserted name dtype shape isConst kind =
      g.inserted name dtype shape isConst kind := by
    simp only [inserted, hsize, freeName_of_index hg.index]
  have hbare : ∀ g : Graph, (g.insert name dtype shape isConst kind).1.bare =
      g.bare ++ [(g.inserted name dtype shape isConst kind).bare] := by
    intro g
    simp [Graph.bare, Graph.insert, inserted, size]
  have hindex : (g'.insert name dtype shape isConst kind).1.index =
      (g.insert name dtype shape isConst kind).1.index := by
    simp only [Graph.insert, hsize, freeName_of_index hg.index, hg.index]
  refine ⟨congrArg NodeId.mk hsize, by rw [hbare, hbare, hg.bare, hinserted], hindex,
    fun id hid => ?_⟩
  rw [node?_insert, node?_insert, hinserted, hsize]
  split
  · rfl
  · rename_i hnew
    exact hg.node? id (hid.resolve_right hnew)

/-- A copy is added alike, and the graphs agree on it. -/
theorem addDeferred (hg : g.Agrees on g') (hadd : g.addDeferred id o = .ok (h, copy)) :
    ∃ h', g'.addDeferred id o = .ok (h', copy) ∧ h.Agrees (fun i => on i ∨ i = copy) h' := by
  obtain ⟨n, hn, hinsert⟩ := addDeferred_eq_ok.mp hadd
  obtain ⟨n', hn', hbare⟩ := hg.exists_node? hn
  have hdtype : n'.dtype = n.dtype := Node.dtype_eq_of_bare hbare
  have hshape : n'.shape = n.shape := by rw [← Node.bare_shape, hbare, Node.bare_shape]
  obtain ⟨hcopy, hagrees⟩ :=
    hg.insert s!"{o.op.tag}_deferred" n.dtype n.shape false (.operation o)
  obtain rfl : h = _ := congrArg Prod.fst hinsert
  obtain rfl : copy = _ := congrArg Prod.snd hinsert
  refine ⟨_, addDeferred_eq_ok.mpr ⟨n', hn', ?_⟩, hagrees.mono ?_⟩
  · rw [hdtype, hshape]
    exact Prod.ext rfl hcopy.symm
  · rintro i (hi | rfl)
    · exact .inl hi
    · exact .inr rfl

/-- A value is stored alike, and the graphs agree on the variable afterwards. -/
theorem store (hg : g.Agrees on g') (hwell : g.WellFormed) {v w : Value}
    (hstore : g.store id v = .ok (h, w)) :
    ∃ h', g'.store id v = .ok (h', w) ∧ h.Agrees (fun i => on i ∨ i = id) h' := by
  obtain ⟨n, stored, hn, hkind, hcast, -⟩ := store_eq_ok hstore
  obtain ⟨n', hn', hbare⟩ := hg.exists_node? hn
  obtain ⟨stored', hkind'⟩ := Node.exists_variable_of_bare hbare hkind
  have hdtype : n'.dtype = n.dtype := Node.dtype_eq_of_bare hbare
  have hname : n'.name = n.name := Node.name_eq_of_bare hbare
  obtain ⟨h', hstore'⟩ := store_of_variable hn' hkind' (hdtype ▸ hcast)
  refine ⟨h', hstore', ?_⟩
  obtain ⟨m, hm, hh⟩ := hwell.store_eq hstore .set
  obtain ⟨m', hm', hh'⟩ := (hg.wellFormed hwell).store_eq hstore' .set
  obtain rfl : h = g.replay [(.set, m.name, w)] := hh
  obtain rfl : h' = g'.replay [(.set, m'.name, w)] := hh'
  cases hn.symm.trans hm
  cases hn'.symm.trans hm'
  refine ⟨by rw [bare_replay, bare_replay, hg.bare], hg.index, fun i hi => ?_⟩
  rw [node?_replay, node?_replay, hname]
  rcases hi with hi | rfl
  · rw [hg.node? i hi]
  · rw [hn, hn']
    exact congrArg some (Node.written_eq_of_bare hbare rfl)

end Agrees

end Graph

/-- In states whose graphs differ in stored values only, a write takes the same course. -/
theorem Eval.write_run_agrees {on : NodeId → Prop} {c : Settings} {s s' t : State} {id : NodeId}
    {update : Update} {v : Value} {out : Output} (hs : s.graph.WellFormed)
    (hagrees : s.graph.Agrees on s'.graph) (hrun : write update id v c s = (.ok out, t)) :
    ∃ node stored w, s.graph.node? id = some node ∧ node.kind = .variable stored ∧
      t = s.wrote (some (update, node.name, w)) ∧
      write update id v c s' = (.ok out, s'.wrote (some (update, node.name, w))) ∧
      (s.wrote (some (update, node.name, w))).graph.Agrees (fun i => on i ∨ i = id)
        (s'.wrote (some (update, node.name, w))).graph := by
  cases hstore : s.graph.store id v with
  | error e => cases (write_run_error hstore).symm.trans hrun
  | ok r =>
    obtain ⟨g, w⟩ := r
    obtain ⟨node, stored, hnode, hkind, -, -⟩ := Graph.store_eq_ok hstore
    obtain ⟨g', hstore', hstored⟩ := hagrees.store hs hstore
    obtain ⟨node', hnode', hbare⟩ := hagrees.exists_node? hnode
    have hname : node'.name = node.name := Node.name_eq_of_bare hbare
    have hrun' := write_run (c := c) update (hagrees.wellFormed hs) hstore' hnode'
    rw [hname] at hrun'
    -- Both graphs are what the write makes of them.
    obtain ⟨m, hm, hg⟩ := hs.store_eq hstore update
    obtain ⟨m', hm', hg'⟩ := (hagrees.wellFormed hs).store_eq hstore' update
    cases hnode.symm.trans hm
    cases hnode'.symm.trans hm'
    obtain rfl : g = s.graph.replay [(update, node.name, w)] := hg
    obtain rfl : g' = s'.graph.replay [(update, node.name, w)] := hname ▸ hg'
    obtain ⟨hout, rfl⟩ := Prod.mk.inj ((write_run update hs hstore hnode).symm.trans hrun)
    exact ⟨node, stored, w, hnode, hkind, rfl, hrun'.trans (by rw [hout]), hstored⟩

end Dataflow
