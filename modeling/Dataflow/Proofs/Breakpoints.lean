import Dataflow.Proofs.Mirror
import Dataflow.Proofs.Session

/-!
# Breakpoints only observe

A graph with breakpoints is evaluated as the same graph without them, as long as every operand that
a breakpoint looks at, besides what the operation needed, was at rest already or is steady. The
exception is a kernel that is left for later because of its first operand: the breakpoint may be the
first to evaluate the second operand, and that may write a variable or leave another operation for
later.
-/

namespace Dataflow

variable (lib : Library Rng)

open State

/-! ## Steps on the state -/

namespace Eval

variable {scene : Scene} {c : Settings} {s : State} {id : NodeId} {node : Node}
variable {o : Operation}

theorem compute_follows (args : Arguments) : Follows scene c s (compute args) where
  memo := by simp [compute_run]
  graph := by rw [compute_run]; exact .refl _
  mirrors _ s' hs' := by
    rw [compute_run, compute_run, hs'.rng]
    exact ⟨rfl, hs'.graph, hs'.memo, hs'.symbolic, rfl, hs'.bindings, hs'.retained⟩

theorem defer_follows (hnode : s.graph.node? id = some node) : Follows scene c s (defer id o) := by
  cases hsymbolic : s.isSymbolic id with
  | true =>
    exact .of_eq (y := pure (.node id)) (defer_run_symbolic hsymbolic)
      (fun s' hs' => defer_run_symbolic ((hs'.isSymbolic id).trans hsymbolic)) (.pure _)
  | false =>
    obtain ⟨g, copy, hadd⟩ := Graph.exists_addDeferred hnode o
    obtain ⟨r, -, hrun⟩ := defer_run (c := c) hsymbolic hadd
    -- The copy has the same position in both graphs, and a breakpoint in neither.
    refine .of_moved (y := pure (.node copy)) hrun rfl (.of_extends (Graph.addDeferred_copy hadd).1)
      (fun s' hs' => ?_) (.pure _)
    obtain ⟨r', -, hrun'⟩ := defer_run (c := c) ((hs'.isSymbolic id).trans hsymbolic)
      (hs'.graph ▸ Graph.addDeferred_unwatched hadd)
    refine ⟨{ s'.withCopy g.unwatched copy with events := s'.events.push (.report r') }, ?_, hrun'⟩
    exact ⟨rfl, hs'.memo, congrArg (copy :: ·) hs'.symbolic, hs'.rng, hs'.bindings, hs'.retained⟩

theorem write_follows (hs : Coherent scene.idle s) {update : Update} {target : NodeId} {v : Value} :
    Follows scene c s (write update target v) := by
  have hstore' : ∀ s', Mirrors scene c.backend s s' → s'.graph.store target v =
      (fun r => (r.1.unwatched, r.2)) <$> s.graph.store target v :=
    fun s' hs' => by rw [hs'.graph, Graph.store_unwatched]
  cases hstore : s.graph.store target v with
  | error e =>
    refine .of_eq (y := .fail e) (write_run_error hstore) (fun s' hs' => ?_) (.fail e)
    exact write_run_error (by rw [hstore' s' hs', hstore]; rfl)
  | ok r =>
    obtain ⟨g, w⟩ := r
    obtain ⟨n, -, hg⟩ := hs.graph.store_eq hstore update
    -- What is left to do is to look up the name of the variable for the report.
    have hrun : ∀ {t : State} {g' : Graph}, t.graph.store target v = .ok (g', w) →
        write update target v c t = (do
          report (.wrote update (← Eval.node target).name w)
          return .value w : Eval Output) c { t with graph := g' } := by
      intro t g' h
      exact bind_run_ok (onGraph_run_ok h)
    refine .of_moved (hrun hstore) rfl ?_ (fun s' hs' => ?_)
      (.node (fun _ => rfl) fun n _ => .report (.pure _))
    · rw [show g = _ from hg]
      exact .replay s.graph _
    · refine ⟨{ s' with graph := g.unwatched }, ?_, hrun (by rw [hstore' s' hs', hstore]; rfl)⟩
      exact ⟨rfl, hs'.memo, hs'.symbolic, hs'.rng, hs'.bindings, hs'.retained⟩

end Eval

namespace Earlier

/-- The nodes below `bound` are evaluated in the same way without breakpoints. -/
abbrev Followed (earlier : Earlier) (scene : Scene) (c : Settings) (bound : Nat) : Prop :=
  earlier.Satisfies bound (fun _ s x => scene.Reached s → Follows scene c s x)
    (fun _ s x => scene.Reached s → Follows scene c s x)

/-- What is known of the nodes below `bound`. -/
structure Reliable (earlier : Earlier) (scene : Scene) (c : Settings) (bound : Nat) : Prop where
  sound : earlier.Sound scene.idle c bound
  resting : earlier.Resting scene.idle c bound
  steadfast : earlier.Steadfast scene c bound
  unwatched : earlier.Steadfast scene.unwatched c bound

variable {earlier : Earlier} {scene : Scene} {c : Settings} {bound bound' : Nat}
variable {s t u : State} {id : NodeId} {node : Node} {o : Operation}

theorem Reliable.mono (h : earlier.Reliable scene c bound) (hle : bound' ≤ bound) :
    earlier.Reliable scene c bound' :=
  ⟨h.sound.mono hle, h.resting.mono hle, h.steadfast.mono hle, h.unwatched.mono hle⟩

theorem below_reliable (hg : scene.graph.WellFormed) (c : Settings) (bound : Nat) :
    (below bound).Reliable scene c bound :=
  ⟨below_sound scene.idle c bound, below_resting scene.idle c bound, below_steadfast hg c bound,
    below_steadfast hg.unwatched c bound⟩

/-! ## Operands -/

theorem resolve_follows (h : earlier.Reliable scene c bound) (hf : earlier.Followed scene c bound)
    (hs : scene.Reached s) (hid : id.index < bound) : Follows scene c s (earlier.resolve id) :=
  .bind hs (hf.complete id s hid hs) (complete_ensures h.sound hid) fun _ _ _ _ _ => .pure _

theorem resolveAll_follows (h : earlier.Reliable scene c bound)
    (hf : earlier.Followed scene c bound) (hs : scene.Reached s) {ids : List NodeId}
    (hids : ∀ id ∈ ids, id.index < bound) :
    Follows scene c s (earlier.resolveAll ids) := by
  induction ids generalizing s with
  | nil => exact .pure _
  | cons id ids ih =>
    have hid := hids id List.mem_cons_self
    have hids := fun n hn => hids n (List.mem_cons_of_mem id hn)
    refine .bind hs (resolve_follows h hf hs hid) (resolve_ensures h.sound hid) fun v t ht _ _ => ?_
    cases v with
    | none => exact .pure _
    | some v =>
      refine .bind ht (ih ht hids) (resolveAll_ensures h.sound hids) fun vs u _ _ _ => ?_
      cases vs <;> exact .pure _

theorem resolveOption_follows (h : earlier.Reliable scene c bound)
    (hf : earlier.Followed scene c bound) (hs : scene.Reached s) {option : OptionValue}
    (hids : ∀ id ∈ option.references, id.index < bound) :
    Follows scene c s (earlier.resolveOption option) := by
  cases option with
  | value v => exact .pure _
  | dtype t => exact .pure _
  | node id =>
    have hid := hids id List.mem_cons_self
    exact .bind hs (resolve_follows h hf hs hid) (resolve_ensures h.sound hid)
      fun _ _ _ _ _ => .pure _
  | nodes ids =>
    exact .bind hs (resolveAll_follows h hf hs hids) (resolveAll_ensures h.sound hids)
      fun _ _ _ _ _ => .pure _

theorem resolveOptions_follows (h : earlier.Reliable scene c bound)
    (hf : earlier.Followed scene c bound) (hs : scene.Reached s)
    {entries : List (String × OptionValue)}
    (hids : ∀ entry ∈ entries, ∀ id ∈ entry.2.references, id.index < bound) :
    Follows scene c s (earlier.resolveOptions entries) := by
  induction entries generalizing s with
  | nil => exact .pure _
  | cons entry entries ih =>
    obtain ⟨key, option⟩ := entry
    have hoption := hids _ List.mem_cons_self
    have hids := fun e he => hids e (List.mem_cons_of_mem _ he)
    refine .bind hs (resolveOption_follows h hf hs hoption) (resolveOption_ensures h.sound hoption)
      fun r t ht _ _ => ?_
    cases r with
    | none => exact .pure _
    | some r =>
      refine .bind ht (ih ht hids) (resolveOptions_ensures h.sound hids) fun rs u _ _ _ => ?_
      cases rs <;> exact .pure _

theorem gather_follows (h : earlier.Reliable scene c bound) (hf : earlier.Followed scene c bound)
    (hs : scene.Reached s) (hids : ∀ id ∈ o.references, id.index < bound) {kernel : Kernel} :
    Follows scene c s (earlier.gather id kernel o) := by
  have hoperands : ∀ id ∈ o.operands, id.index < bound :=
    fun id hid => hids id (List.mem_append_left _ hid)
  have hoptions : ∀ entry ∈ o.options.entries, ∀ id ∈ entry.2.references, id.index < bound :=
    fun entry hentry id hid =>
      hids id (Operation.mem_references_of_entry hentry hid)
  refine .bind hs (resolveAll_follows h hf hs hoperands) (resolveAll_ensures h.sound hoperands)
    fun vs t ht _ _ => ?_
  cases vs with
  | none => exact .pure _
  | some vs =>
    refine .bind ht (resolveOptions_follows h hf ht hoptions)
      (resolveOptions_ensures h.sound hoptions) fun rs u _ _ _ => ?_
    cases rs with
    | none => exact .pure _
    | some rs => exact .node (fun _ => rfl) fun n _ => .pure _

theorem operand_follows {α : Type} {i : Nat} {k : NodeId → Eval α}
    (hk : ∀ id, o.operands[i]? = some id → Follows scene c s (k id)) :
    Follows scene c s (operand o i >>= k) := by
  unfold operand
  split
  · rename_i id hid
    exact hk id hid
  · exact .of_eq (y := .fail _) (Eval.bind_run_error rfl) (fun _ _ => Eval.bind_run_error rfl)
      (.fail _)

/-! ## Operations -/

theorem identity_follows (hf : earlier.Followed scene c bound) (hs : scene.Reached s)
    (hids : ∀ r ∈ o.references, r.index < bound) {i : Nat} :
    Follows scene c s (do earlier.complete (← operand o i)) :=
  operand_follows fun id hid =>
    hf.complete id s (hids id (Operation.mem_references_of_operand hid)) hs

theorem assign_follows (h : earlier.Reliable scene c bound) (hf : earlier.Followed scene c bound)
    (hs : scene.Reached s) (hids : ∀ r ∈ o.references, r.index < bound)
    (hnode : s.graph.node? id = some node) (hkind : node.kind = .operation o) {update : Update} :
    Follows scene c s (earlier.assign id o update) := by
  refine operand_follows fun target htarget => operand_follows fun source hsource => ?_
  have hlt := hids source (Operation.mem_references_of_operand hsource)
  have hlt' := hids target (Operation.mem_references_of_operand htarget)
  refine .bind hs (resolve_follows h hf hs hlt) (resolve_ensures h.sound hlt) fun v t ht hst _ => ?_
  cases v with
  | none => exact Eval.defer_follows (hst.graph.operation hnode hkind)
  | some v =>
    dsimp only
    split
    · exact Eval.write_follows ht.toCoherent
    · refine .bind ht (resolve_follows h hf ht hlt') (resolve_ensures h.sound hlt')
        fun old u hu htu _ => ?_
      cases old with
      | none => exact Eval.defer_follows ((hst.trans htu).graph.operation hnode hkind)
      | some old =>
        dsimp only
        split
        · exact Eval.write_follows hu.toCoherent
        · exact .fail _

theorem each_follows (h : earlier.Reliable scene c bound) (hf : earlier.Followed scene c bound)
    (hs : scene.Reached s) {ids : List NodeId}
    (hids : ∀ id ∈ ids, id.index < bound) :
    Follows scene c s (Eval.each earlier.complete ids) := by
  induction ids generalizing s with
  | nil => exact .pure _
  | cons id ids ih =>
    have hid := hids id List.mem_cons_self
    have hids := fun n hn => hids n (List.mem_cons_of_mem id hn)
    refine .bind hs (hf.complete id s hid hs) (complete_ensures h.sound hid) fun r t ht _ _ => ?_
    exact .bind ht (ih ht hids) (each_ensures h.sound hids) fun rs u _ _ _ => .pure _

theorem flowGroup_follows (h : earlier.Reliable scene c bound) (hf : earlier.Followed scene c bound)
    (hs : scene.Reached s) (hids : ∀ r ∈ o.references, r.index < bound) :
    Follows scene c s (earlier.flowGroup o) := by
  have hmembers : ∀ r ∈ o.members, r.index < bound :=
    fun r hr => hids r (Operation.references_of_mem_members hr)
  exact .bind hs (each_follows h hf hs hmembers) (each_ensures h.sound hmembers)
    fun _ _ _ _ _ => .pure _

theorem print_follows (h : earlier.Reliable scene c bound) (hf : earlier.Followed scene c bound)
    (hs : scene.Reached s) (hids : ∀ r ∈ o.references, r.index < bound) :
    Follows scene c s (earlier.print o) := by
  refine operand_follows fun input hinput => ?_
  have hlt := hids input (Operation.mem_references_of_operand hinput)
  exact .bind hs (hf.complete input s hlt hs) (complete_ensures h.sound hlt)
    fun shown t _ _ _ => .report (.pure _)

theorem cond_follows (h : earlier.Reliable scene c bound) (hf : earlier.Followed scene c bound)
    (hs : scene.Reached s) (hids : ∀ r ∈ o.references, r.index < bound)
    (hnode : s.graph.node? id = some node) (hkind : node.kind = .operation o) :
    Follows scene c s (earlier.cond id o) := by
  unfold cond
  dsimp only
  split
  · rename_i pred hpred
    have hlt := hids pred (Operation.mem_references_of_option hpred List.mem_cons_self)
    refine .bind hs (resolve_follows h hf hs hlt) (resolve_ensures h.sound hlt)
      fun v t ht hst _ => ?_
    cases v with
    | some v => exact identity_follows hf ht hids
    | none => exact Eval.defer_follows (hst.graph.operation hnode hkind)
  · exact identity_follows hf hs hids
  · exact .fail _

theorem perform_follows (h : earlier.Reliable scene c bound) (hf : earlier.Followed scene c bound)
    (hs : scene.Reached s) (hids : ∀ r ∈ o.references, r.index < bound)
    (hnode : s.graph.node? id = some node) (hkind : node.kind = .operation o) :
    Follows scene c s (earlier.perform id o) := by
  unfold perform
  split
  · exact assign_follows h hf hs hids hnode hkind
  · exact flowGroup_follows h hf hs hids
  · exact identity_follows hf hs hids
  · exact identity_follows hf hs hids
  · exact print_follows h hf hs hids
  · exact cond_follows h hf hs hids hnode hkind
  · exact .fail _
  · refine .bind hs (gather_follows h hf hs hids) (gather_ensures h.sound hids)
      fun args t _ hst _ => ?_
    cases args with
    | some args => exact Eval.compute_follows args
    | none => exact Eval.defer_follows (hst.graph.operation hnode hkind)

/-! ## Running operations -/

/-- In an undisturbed run, the operands that a breakpoint evaluates are at rest or steady. -/
theorem fire_undisturbed (h : earlier.Reliable scene c id.index)
    (hids : ∀ r ∈ o.references, r.index < id.index) (ht : scene.Reached t)
    (hnode : t.graph.node? id = some node) (hkind : node.kind = .operation o)
    (hnew : id ∉ t.memo.map Prod.fst) {out : Output} (hperformed : Performed scene.idle id o out t)
    (hfire : earlier.fire id o out c (t.remembered id out) = (.ok (), u))
    (hmemo : (t.remembered id out).memo <:+ u.memo) (hgraph : t.graph.Evolves u.graph)
    (hu : scene.Undisturbed u) (hknows : scene.Knows c.backend (t.remembered id out).memo) :
    Gentle scene (t.remembered id out) u ∧ scene.Knows c.backend u.memo := by
  have hremembered := ht.remembered hnode hkind hnew hperformed.left
  have hnode' : (t.remembered id out).graph.node? id = some node :=
    remembered_evolves.operation hnode hkind
  have hundisturbed : scene.Undisturbed (t.remembered id out) :=
    hu.before hremembered.toCoherent hmemo (by rw [remembered_graph]; exact hgraph.of_replay)
  cases hwatched : node.watched with
  | false =>
    have hnone : (t.remembered id out).graph.watched? id = none := by
      simp [Graph.watched?, hnode', hwatched]
    cases (fire_unwatched hnone).symm.trans hfire
    exact ⟨.refl _, hknows⟩
  | true =>
    -- What was at rest before the result was remembered is at rest afterwards.
    have hlater : ∀ {input}, AtRest scene.idle t.graph t.memo input →
        AtRest scene.idle (t.remembered id out).graph (t.remembered id out).memo input :=
      fun hrest => hrest.mono remembered_evolves (List.subset_cons_self ..)
    have hinputs : o.op.isControl = false → ∀ i < 2, ∀ input, o.operands[i]? = some input →
        AtRest scene.idle (t.remembered id out).graph (t.remembered id out).memo input ∨
          scene.Steady input := by
      intro hcontrol i hi input hinput
      have hevaluated := hperformed.evaluated hcontrol
      -- For a value, all operands were evaluated. Otherwise only the first one was for certain.
      by_cases hvalue : ∃ v, out = .value v
      · exact .inl (hlater (hevaluated.rest hvalue input (List.mem_of_getElem? hinput)))
      · obtain rfl | rfl : i = 0 ∨ i = 1 := by omega
        · have hfirst := hevaluated.first input (by rw [List.head?_eq_getElem?]; exact hinput)
          exact .inl (hlater hfirst)
        · have hglimpsed : (t.remembered id out).graph.glimpsed? id out = some input := by
            have hresult : ∀ v, out ≠ .value v := fun v hv => hvalue ⟨v, hv⟩
            rw [Graph.glimpsed?_eq hnode' hkind hwatched hcontrol hresult, hinput]
          exact (hundisturbed.calm.1 input hglimpsed).imp_left fun hrest =>
            hrest.mono (.refl _) (List.subset_cons_self ..)
    have hsettled := hremembered.settled hundisturbed.writes hknows
    obtain ⟨hu, hgentle, -⟩ := fire_gentle h.steadfast h.sound h.resting hids hinputs
      (fun n hn => remembered_left (hperformed.left n hn)) ⟨hremembered.toExact, hsettled⟩
    rw [hfire] at hu hgentle
    exact ⟨hgentle, hu.2.memo⟩

/-- A steady operation is run with the same outcome, whatever is known of it so far. -/
theorem runOperation_follows_of_steady (hg : scene.graph.WellFormed)
    (h : earlier.Reliable scene c id.index) (hs : scene.Reached s)
    (hnode : s.graph.node? id = some node) (hkind : node.kind = .operation o)
    (hsteady : scene.Steady id) {name : String} :
    Follows scene c s (earlier.runOperation id name (.operation o)) := by
  have hensures : (coherence scene.idle (id.index + 1)).Ensures c s
      (earlier.runOperation id name (.operation o)) (OnResult (Rests scene.idle id)) :=
    runOperation_ensures h.sound hnode hkind
  obtain ⟨-, hst, -⟩ := hensures hs.toCoherent
  refine ⟨hst.memo, hst.graph, fun hundisturbed s' hs' => ?_⟩
  have hundisturbed := hundisturbed.before hs.toCoherent hst.memo hst.graph
  -- Each run may know the result or not: both come to what the node means.
  have hsettled := hs.settled hundisturbed.writes hs'.memo.left
  have hsettled' := hs'.settled hsettled
  have hnode : scene.graph.node? id = some node :=
    (hsettled.graph.node? id hsteady).symm.trans hnode
  have hnode' : scene.unwatched.graph.node? id = some node.unwatched := by
    rw [Scene.unwatched, Graph.node?_unwatched, hnode]
    rfl
  have hsteadily : (steadiness scene c.backend).Ensures c s
      (earlier.runOperation id name (.operation o)) fun r _ => r = scene.denote c.backend id :=
    runOperation_steady hg h.steadfast hsteady hnode hkind
  have hsteadily' : (steadiness scene.unwatched c.backend).Ensures c s'
      (earlier.runOperation id name (.operation o))
      fun r _ => r = scene.unwatched.denote c.backend id :=
    runOperation_steady hg.unwatched h.unwatched hsteady.unwatched hnode' hkind
  obtain ⟨ht, hst, hr⟩ := hsteadily hsettled
  obtain ⟨ht', hst', hr'⟩ := hsteadily' hsettled'
  refine ⟨by rw [hr', hr, Scene.denote_unwatched], ?_⟩
  exact hs'.gentle hst ht.memo hst'.of_unwatched ht'.knows_of_unwatched

theorem runOperation_follows_of_hit (hsteady : ¬ scene.Steady id) {known : Output}
    (hlookup : s.memo.lookup id = some known) {name : String} :
    Follows scene c s (earlier.runOperation id name (.operation o)) := by
  refine .of_moved (y := pure known) (runOperation_hit hlookup) rfl (.refl _) (fun s' hs' => ?_)
    (.pure known)
  refine ⟨{ s' with events := s'.events.push (.report (.remembered name)) }, ?_,
    runOperation_hit ((hs'.memo.results id hsteady).trans hlookup)⟩
  exact ⟨hs'.graph, hs'.memo, hs'.symbolic, hs'.rng, hs'.bindings, hs'.retained⟩

theorem runOperation_follows_of_miss (h : earlier.Reliable scene c id.index)
    (hf : earlier.Followed scene c id.index) (hs : scene.Reached s)
    (hnode : s.graph.node? id = some node) (hkind : node.kind = .operation o)
    (hsteady : ¬ scene.Steady id) (hlookup : s.memo.lookup id = none) {name : String} :
    Follows scene c s (earlier.runOperation id name (.operation o)) := by
  have hids := hs.graph.lt_of_operation hnode hkind
  have hlookup' : ∀ s', Mirrors scene c.backend s s' → s'.memo.lookup id = none :=
    fun s' hs' => (hs'.memo.results id hsteady).trans hlookup
  obtain ⟨hmemo, hgraph, hmirrors⟩ := perform_follows h hf hs hids hnode hkind
  obtain ⟨t, ht, hst, hrecords⟩ := perform_reaches (c := c) h.sound hids hnode hkind hs.toCoherent
  have ht := hs.later ht hst.toLater
  cases hperform : earlier.perform id o c s with
  | mk r u =>
    rw [hperform] at hrecords hmemo hgraph hmirrors
    have hperform' : ∀ s', (earlier.perform id o c s').1 = r →
        earlier.perform id o c s' = (r, (earlier.perform id o c s').2) :=
      fun _ hr => Prod.ext hr rfl
    cases r with
    | error e =>
      have hrun : earlier.runOperation id name (.operation o) c s =
          (.error (u.graph.wrap id e), u) :=
        runOperation_error hlookup hperform
      refine ⟨by rw [hrun]; exact hmemo, by rw [hrun]; exact hgraph,
        fun hundisturbed s' hs' => ?_⟩
      rw [hrun] at hundisturbed ⊢
      obtain ⟨hr', hu'⟩ := hmirrors hundisturbed s' hs'
      rw [runOperation_error (hlookup' s' hs') (hperform' s' hr'), hu'.graph, Graph.wrap_unwatched]
      exact ⟨rfl, hu'⟩
    | ok out =>
      obtain ⟨hu, hperformed⟩ := hrecords
      have hu : u = t.wrote (t.graph.write? id out) := hu
      have hstate := remember_wrote hu
      have hnode' := hst.graph.operation hnode hkind
      have hnew := Step.new hst (Nat.le_refl _) hlookup
      obtain ⟨v, hfire, -, htv, hremembered⟩ := remember_fire h.sound hids ht.toCoherent hnode'
        hkind hnew hperformed.left
      have hrun : earlier.runOperation id name (.operation o) c s = (.ok out, v) :=
        runOperation_ok hlookup hperform (by rw [hstate]; exact hfire)
      refine ⟨by rw [hrun]; exact hst.memo.trans htv.memo,
        by rw [hrun]; exact hst.graph.trans htv.graph, fun hundisturbed s' hs' => ?_⟩
      rw [hrun] at hundisturbed ⊢
      -- The two runs agree on performing the operation, then on remembering the result, and at last
      -- only one of them has a breakpoint, which evaluates steady nodes at most.
      have hbefore : scene.Undisturbed u := hu ▸ hundisturbed.wrote ht.toCoherent htv.toLater _
      obtain ⟨hr', hu'⟩ := hmirrors hbefore s' hs'
      have hmirrors' := hu'.remember hsteady out
      rw [hstate] at hmirrors'
      obtain ⟨hgentle, hknows⟩ := fire_undisturbed h hids ht hnode' hkind hnew hperformed hfire
        hremembered htv.graph hundisturbed hmirrors'.memo.left
      have hunwatched : ((earlier.perform id o c s').2.graph).watched? id = none := by
        rw [hu'.graph, Graph.watched?_unwatched]
      rw [runOperation_ok (hlookup' s' hs') (hperform' s' hr') (fire_unwatched hunwatched)]
      exact ⟨rfl, hmirrors'.gentle hgentle hknows (.refl _) hmirrors'.memo.right⟩

theorem runOperation_follows (hg : scene.graph.WellFormed) (h : earlier.Reliable scene c id.index)
    (hf : earlier.Followed scene c id.index) (hs : scene.Reached s)
    (hnode : s.graph.node? id = some node) (hkind : node.kind = .operation o) {name : String} :
    Follows scene c s (earlier.runOperation id name (.operation o)) := by
  by_cases hsteady : scene.Steady id
  · exact runOperation_follows_of_steady hg h hs hnode hkind hsteady
  · cases hlookup : s.memo.lookup id with
    | some known => exact runOperation_follows_of_hit hsteady hlookup
    | none => exact runOperation_follows_of_miss h hf hs hnode hkind hsteady hlookup

/-! ## Running and completing nodes -/

theorem runNode_follows (hg : scene.graph.WellFormed) (h : earlier.Reliable scene c bound)
    (hf : earlier.Followed scene c bound) (hs : scene.Reached s) (hid : id.index ≤ bound) :
    Follows scene c s (earlier.runNode id) := by
  refine .state (fun s' hs' => by rw [hs'.isRetained]) ?_
  split
  · exact .pure _
  · refine .node (fun _ => rfl) fun node hnode => .report ?_
    have hquiet := Quiet.report s (r := .entered node.kind.label node.name) rfl
    have ht := hs.later (hquiet.coherent hs.toCoherent) hquiet.later
    split
    · exact .pure _
    · rename_i target hkind
      have hlt := hs.graph.lt_of_reference hnode hkind
      exact hf.run target _ (Nat.lt_of_lt_of_le hlt hid) ht
    · exact .fail _
    · exact .recordRead (.pure _)
    · refine .state (fun s' hs' => by rw [Context.binding?, hs'.bindings]; rfl) ?_
      split
      · exact .pure _
      · exact .fail _
    · rename_i hkind
      exact runOperation_follows hg (h.mono hid) (hf.mono hid) ht hnode hkind

mutual

theorem completeWith_follows (h : earlier.Reliable scene c bound)
    (hf : earlier.Followed scene c bound) (hid : id.index ≤ bound) :
    ∀ (out : Output) (s : State), scene.Reached s →
    (∀ n ∈ out.nodes, s.Spared scene.idle id.index n) →
    Follows scene c s (out.completeWith earlier.complete)
  | .value v, s, _, _ => .pure _
  | .node n, s, hs, hspared => by
    refine .stays ?_
    split
    · exact .pure _
    · rename_i hstays
      have hlt := lt_of_spared (hspared n List.mem_cons_self) (by simpa using hstays)
      exact hf.complete n s (Nat.lt_of_lt_of_le hlt hid) hs
  | .list items, s, hs, hspared =>
    .bind hs (completeItemsWith_follows h hf hid items s hs hspared)
      (completeItemsWith_spared h.sound hid hspared) fun _ _ _ _ _ => .pure _

theorem completeItemsWith_follows (h : earlier.Reliable scene c bound)
    (hf : earlier.Followed scene c bound) (hid : id.index ≤ bound) :
    ∀ (outs : List Output) (s : State), scene.Reached s →
    (∀ n ∈ Output.nodesOfItems outs, s.Spared scene.idle id.index n) →
    Follows scene c s (Output.completeItemsWith earlier.complete outs)
  | [], s, _, _ => .pure _
  | out :: outs, s, hs, hspared => by
    have hout := fun n hn => hspared n (List.mem_append_left _ hn)
    have houts := fun n hn => hspared n (List.mem_append_right _ hn)
    refine .bind hs (completeWith_follows h hf hid out s hs hout)
      (completeWith_spared h.sound hid hout) fun r t ht hst _ => ?_
    have houts := fun n hn => (Step.toLater hst).spared (houts n hn)
    exact .bind ht (completeItemsWith_follows h hf hid outs t ht houts)
      (completeItemsWith_spared h.sound hid houts) fun _ _ _ _ _ => .pure _

end

theorem force_follows (hg : scene.graph.WellFormed) (h : earlier.Reliable scene c bound)
    (hf : earlier.Followed scene c bound) (hs : scene.Reached s) (hid : id.index ≤ bound)
    {origin last : NodeId} {remaining : Nat} {current : Output}
    (hspared : ∀ n ∈ current.nodes, s.Spared scene.idle id.index n) :
    Follows scene c s (earlier.force origin remaining last current) := by
  induction remaining generalizing last current s with
  | zero =>
    cases current with
    | value v => exact .pure _
    | list items => exact completeWith_follows h hf hid (.list items) s hs hspared
    | node next =>
      refine .stays ?_
      split
      · exact .pure _
      · exact .settings (.node (fun _ => rfl) fun _ _ => .report (.pure _))
  | succ remaining ih =>
    cases current with
    | value v => exact .pure _
    | list items => exact completeWith_follows h hf hid (.list items) s hs hspared
    | node next =>
      refine .stays ?_
      split
      · exact .pure _
      · rename_i hgoes
        -- What is left of an earlier node is spared once more when that node is run.
        have hlt := lt_of_spared (hspared next List.mem_cons_self)
          (by simpa using (not_or.mp hgoes).2)
        have hle : next.index ≤ bound := by omega
        refine .bind hs (runNode_follows hg h hf hs hle) (runNode_ensures h.sound hle)
          fun out t ht _ hout => ih ht fun n hn => ?_
        exact .inl (Coherent.left_of_spared ht.toCoherent hlt (hout.spared n hn))

theorem completeNode_follows (hg : scene.graph.WellFormed) (h : earlier.Reliable scene c bound)
    (hf : earlier.Followed scene c bound) (hs : scene.Reached s) (hid : id.index ≤ bound) :
    Follows scene c s (earlier.completeNode id) :=
  .bind hs (runNode_follows hg h hf hs hid) (runNode_ensures h.sound hid) fun _ _ ht _ hfirst =>
    .settings (force_follows hg h hf ht hid hfirst.spared)

theorem below_followed (hg : scene.graph.WellFormed) (c : Settings) (bound : Nat) :
    (below bound).Followed scene c bound := by
  refine below_satisfies (fun bound hf id s hid => ?_) bound
  have h := below_reliable hg c bound
  exact ⟨fun hs => runNode_follows hg h hf hs hid, fun hs => completeNode_follows hg h hf hs hid⟩

end Earlier

/-! ## Whole evaluations -/

namespace State

/-- The scene of a run from the state `s` to the state `t`. -/
def sceneTo (s t : State) : Scene where
  idle id := s.context.isRetained id = true
  graph := s.graph
  bindings := s.context.bindings
  written name := ∃ w ∈ t.writes, w.2.1 = name

theorem reached_start {g : Graph} (hg : g.WellFormed) (context : Context) (config : Config)
    (spare : UInt64) (t : State) : ((State.start lib g context config spare).sceneTo t).Reached
      (.start lib g context config spare) where
  graph := hg
  once := List.nodup_nil
  operations := by simp [start]
  left := by simp [start]
  symbolic := by simp [start]
  retained := fun _ h => h
  performed := rfl
  idle := fun _ h => h
  grown := by simp [sceneTo, start, writes, Graph.Extends.refl]
  bindings := rfl

theorem mirrors_start (scene : Scene) (backend : Backend) (g : Graph) (context : Context)
    (config : Config) (spare : UInt64) : Mirrors scene backend (.start lib g context config spare)
      (.start lib g.unwatched context config spare) :=
  ⟨rfl, ⟨fun _ _ => rfl, by simp [Scene.Knows, start], by simp [Scene.Knows, start]⟩,
    rfl, rfl, rfl, rfl⟩

/-- In a calm run, breakpoints make no difference: the outcome, the stored values and the number of
nodes are those of the same graph without breakpoints. -/
theorem breakpoints_only_observe {g : Graph} (hg : g.Built) (context : Context) (config : Config)
    (spare : UInt64) (c : Settings) (id : NodeId) :
    let start := State.start lib g context config spare
    let watched := Eval.complete id c start
    let plain := Eval.complete id c (.start lib g.unwatched context config spare)
    (start.sceneTo watched.2).Calm watched.2.graph watched.2.memo →
      plain.1 = watched.1 ∧
      (∀ n, plain.2.graph.stored? n = watched.2.graph.stored? n) ∧
      plain.2.graph.size = watched.2.graph.size := by
  intro start watched plain hcalm
  have hreached := reached_start lib hg.wellFormed context config spare watched.2
  have hfollowed : (Earlier.below (id.index + 1)).Followed (start.sceneTo watched.2) c
      (id.index + 1) := Earlier.below_followed hg.wellFormed c _
  have hfollows := hfollowed.complete id start (Nat.lt_succ_self _) hreached
  -- The scene counts as written just what the whole run writes.
  have hundisturbed : (start.sceneTo watched.2).Undisturbed watched.2 :=
    ⟨hcalm, fun w hw => ⟨w, hw, rfl⟩⟩
  obtain ⟨houtcome, hmirrors⟩ := hfollows.mirrors hundisturbed _ (mirrors_start ..)
  have hgraph : plain.2.graph = watched.2.graph.unwatched := hmirrors.graph
  exact ⟨houtcome, fun n => by rw [hgraph, Graph.stored?_unwatched],
    by rw [hgraph, Graph.size_unwatched]⟩

/-- A sum with a breakpoint that is left for later while its second operand is a literal. -/
theorem breakpoints_only_observe_literal :
    let g := Graph.ofSteps [.placeholder "x" .int32 none, .constant "one" (.scalar (.int 1)),
      .operation "sum" ⟨.kernel (.binary (.arithmetic .add)), [⟨0⟩, ⟨1⟩], .empty⟩, .watch ⟨2⟩]
    let context := Context.empty.retain ⟨0⟩
    let watched := Eval.complete ⟨2⟩ ⟨32, .cpu⟩ (.start .standard g context .standard 0)
    let plain := Eval.complete ⟨2⟩ ⟨32, .cpu⟩ (.start .standard g.unwatched context .standard 0)
    plain.1 = watched.1 ∧ (∀ n, plain.2.graph.stored? n = watched.2.graph.stored? n) ∧
      plain.2.graph.size = watched.2.graph.size := by
  apply breakpoints_only_observe .standard (Graph.built_ofSteps _) _ .standard 0 ⟨32, .cpu⟩ ⟨2⟩
  refine ⟨fun input hinput => .inr ?_, trivial⟩
  cases show some (⟨1⟩ : NodeId) = some input from hinput
  refine .leaf (by decide : ¬ (Context.empty.retain ⟨0⟩).isRetained ⟨1⟩ = true) rfl rfl ?_
  rintro ⟨w, hw, -⟩
  cases hw

/-- A sum that is left for later because of its first operand. The breakpoint is the first to
evaluate the second operand, which is an assignment. -/
theorem breakpoints_may_write :
    let g := Graph.ofSteps [.placeholder "x" .int32 none,
      .variable "v" .int32 (some (.scalar (.int 0))), .constant "one" (.scalar (.int 1)),
      .operation "set" ⟨.control (.assign .set), [⟨1⟩, ⟨2⟩], .empty⟩,
      .operation "sum" ⟨.kernel (.binary (.arithmetic .add)), [⟨0⟩, ⟨3⟩], .empty⟩, .watch ⟨4⟩]
    let context := Context.empty.retain ⟨0⟩
    let watched := Eval.complete ⟨4⟩ ⟨32, .cpu⟩ (.start .standard g context .standard 0)
    let plain := Eval.complete ⟨4⟩ ⟨32, .cpu⟩ (.start .standard g.unwatched context .standard 0)
    plain.2.graph.stored? ⟨1⟩ ≠ watched.2.graph.stored? ⟨1⟩ := by
  intro g context watched plain h
  -- Equality of values is not decided by evaluation, but the truth of a value is.
  have htruthy : (plain.2.graph.stored? ⟨1⟩).map Value.truthy =
      (watched.2.graph.stored? ⟨1⟩).map Value.truthy := congrArg (Option.map Value.truthy) h
  revert htruthy
  decide +kernel

end State

end Dataflow
