import Dataflow.Proofs.Frame
import Dataflow.Proofs.Inferring
import Dataflow.Proofs.Rectangular

/-!
# Static shapes and values

A value that a node is evaluated to has the shape that the node declares, if the operations on the
way are regular and what is assigned to the variables suits them. A variable keeps the shape that it
was declared with, but stores any value.
-/

namespace Dataflow

variable (lib : Library Rng)

open State

/-- The output has the shape, and a node that is left declares it. -/
def Output.HasShape (g : Graph) (σ : Shape) : Output → Prop
  | .value v => σ = .known v.dims
  | .node n => g.shapeOf (some n) = some σ
  | .list _ => False

/-- The node is there, and the output has the shape that it declares, if it declares one. -/
structure Graph.Yields (g : Graph) (id : NodeId) (out : Output) : Prop where
  there : id.index < g.size
  shape : ∀ {σ}, g.shapeOf (some id) = some σ → out.HasShape g σ

namespace Graph

variable {g g' : Graph} {id : NodeId} {out : Output}

theorem Yields.of_node? {node : Node} (hnode : g.node? id = some node)
    (h : ∀ {σ}, node.shape = some σ → out.HasShape g σ) : g.Yields id out where
  there := lt_size_of_node? hnode
  shape hσ := h ((shapeOf_of_node? hnode).symm.trans hσ)

theorem Yields.mono (h : g.Yields id out) (hshapes : g.SameShapes g') : g'.Yields id out where
  there := Nat.lt_of_lt_of_le h.there hshapes.size_le
  shape hσ := by
    rw [hshapes.shapeOf id h.there] at hσ
    have hout := h.shape hσ
    cases out with
    | value v => exact hout
    | node n => exact hshapes.shapeOf_eq_some hout
    | list items => exact hout

/-- An output that has a value has the shape of that value. -/
theorem Yields.of_toValue? {v : Value} {σ : Shape} (h : g.Yields id out)
    (hv : out.toValue? = some v) (hσ : g.shapeOf (some id) = some σ) : σ = .known v.dims := by
  have hout := h.shape hσ
  cases out with
  | value w =>
    cases hv
    exact hout
  | node n => cases hv
  | list items => cases hout

end Graph

/-- An assignment assigns a node that declares the shape of the variable, or a value of that
shape. -/
def State.AssignmentsFit (base : Graph) (s : State) : Prop :=
  ∀ ⦃id node o update v σ⦄, (id, .value v) ∈ s.memo → s.graph.node? id = some node →
    node.kind = .operation o → o.op = .control (.assign update) → node.shape = some σ →
    base.shapeOf o.operands[1]? = some σ ∨ σ = .known v.dims

theorem State.AssignmentsFit.before {base : Graph} {s t : State} (h : t.AssignmentsFit base)
    (hst : Advances s t) : s.AssignmentsFit base := fun _ _ _ _ _ _ hmem hnode hkind hop hσ =>
  h (hst.memo hmem) (hst.graph.operation hnode hkind) hkind hop hσ

/-- What was done so far suits the declared shapes: the assignments, and the operations that were
performed, of which every one is regular and declares a shape that some value has. -/
structure State.Suited (base : Graph) (s : State) : Prop where
  assignments : s.AssignmentsFit base
  regular : ∀ ⦃id out node o⦄, (id, out) ∈ s.memo → s.graph.node? id = some node →
    node.kind = .operation o → o.Regular s.graph ∧ ∀ σ, node.shape = some σ → σ.Possible

theorem State.Suited.before {base : Graph} {s t : State} (h : t.Suited base) (hst : Advances s t) :
    s.Suited base where
  assignments := h.assignments.before hst
  regular id out node o hmem hnode hkind := by
    obtain ⟨hregular, hpossible⟩ :=
      h.regular (hst.memo hmem) (hst.graph.operation hnode hkind) hkind
    exact ⟨(Graph.SameShapes.evolves hst.graph).regular_of_later hregular, hpossible⟩

theorem State.Suited.of_alike {base : Graph} {s t : State} (h : t.Suited base) (hst : Alike s t) :
    s.Suited base where
  assignments := by simpa [AssignmentsFit, hst.graph, hst.memo] using h.assignments
  regular := by simpa [hst.graph, hst.memo] using h.regular

/-- The conduct of values that have the shapes of their nodes, for a caller who supplies nothing to
an evaluator that started with the graph `base`. -/
def Conduct.shaping (base : Graph) : Conduct where
  inv s := s.graph.Inferred ∧ base.SameShapes s.graph ∧
    s.context.bindings = [] ∧ s.context.retained = [] ∧
    (s.Suited base → s.graph.Fitted ∧ ∀ id out, (id, out) ∈ s.memo → s.graph.Yields id out)
  gives
    | id, .ok out, s => s.Suited base → s.graph.Yields id out
    | _, .error _, _ => True
  left _ _ := True

theorem exists_of_getElem?_forall₂ {α β : Type} {V : α → β → Prop} {xs : List α} {ys : List β}
    (h : List.Forall₂ V xs ys) {i : Nat} {y : β} (hy : ys[i]? = some y) :
    ∃ x, xs[i]? = some x ∧ V x y := by
  obtain ⟨hlt, rfl⟩ := List.getElem?_eq_some_iff.mp hy
  have hx : i < xs.length := h.length_eq ▸ hlt
  exact ⟨xs[i], List.getElem?_eq_getElem hx, h.get hx hlt⟩

/-- An option that is a value is handed on as it is. -/
theorem Arguments.Gathered.value? {args : Arguments} {V : NodeId → Value → Prop} {kernel : Kernel}
    {node : Node} {o : Operation} (h : args.Gathered V kernel node o) {key : String} {v : Value}
    (hv : o.options.get? key = some (.value v)) : args.value? key = some v := by
  have hoptions := h.options
  unfold Options.get? at hv
  unfold Arguments.value?
  generalize o.options.entries = entries at hoptions hv
  generalize args.options = options at hoptions
  induction hoptions with
  | nil => cases hv
  | @cons entry r entries options hr hrest ih =>
    obtain ⟨name, option⟩ := entry
    obtain ⟨name', r⟩ := r
    obtain ⟨rfl, hresolves⟩ := hr
    rw [List.lookup_cons] at hv ⊢
    split at hv
    · cases hv
      cases r with
      | value w => simp_all [OptionValue.Resolves]
      | values ws => cases hresolves
    · rename_i hne
      simp only [hne]
      exact ih hv

namespace Conduct

variable {base : Graph} {c : Settings} {id : NodeId} {node : Node} {o : Operation}
variable {s t : State} {y : Eval Output}

theorem shape_of_valued {r : NodeId} {v : Value} {σ : Shape} (hfit : s.Suited base)
    (h : Valued (shaping base).regime ((shaping base).operand c) s r v)
    (hσ : s.graph.shapeOf (some r) = some σ) : σ = .known v.dims := by
  obtain ⟨out, ⟨u, hus, hgives, -⟩, hv⟩ := h
  have hus : Advances u s := hus
  have hyields := (hgives (hfit.before hus)).mono (.evolves hus.graph)
  exact hyields.of_toValue? hv hσ

/-- What is gathered for a kernel has the extents that the graph knows. -/
theorem shaped_of_gathered {kernel : Kernel} {args : Arguments} (hfit : s.Suited base)
    (hop : o.op = .kernel kernel)
    (h : args.Gathered (Valued (shaping base).regime ((shaping base).operand c) s) kernel node o) :
    args.Shaped s.graph o where
  kernel := by rw [hop, h.kernel]
  length := h.operands.length_eq.symm
  operand hv hσ := by
    obtain ⟨r, hr, hvalued⟩ := exists_of_getElem?_forall₂ h.operands hv
    rw [hr] at hσ
    exact shape_of_valued hfit hvalued hσ
  literal hv := h.value? hv

/-- What is assigned has the shape of the variable if the nodes declare the same shape. -/
theorem shape_of_updates {update : Update} {v : Value} {σ : Shape} (hfit : s.Suited base)
    (h : o.Updates (Valued (shaping base).regime ((shaping base).operand c) s) update (.ok v))
    (htarget : s.graph.shapeOf o.operands[0]? = some σ)
    (hsource : s.graph.shapeOf o.operands[1]? = some σ) : σ = .known v.dims := by
  generalize hresult : Except.ok v = result at h
  cases h with
  | set hr hv =>
    cases hresult
    rw [hr] at hsource
    exact shape_of_valued hfit hv hsource
  | @apply _ _ old new _ hl hr hold hnew =>
    rw [hl] at htarget
    rw [hr] at hsource
    cases shape_of_valued hfit hold htarget
    have hdims := Shape.known_inj.mp (shape_of_valued hfit hnew hsource)
    rw [Value.dims_binary_of_dims_eq hdims hresult.symm]

/-- What an assignment stores has the shape that the assignment declares. -/
theorem Performing.hasShape_of_written {update : Update} {target : NodeId} {v : Value}
    {out : Output} {σ : Shape}
    (h : (shaping base).Performing c id node o s (Eval.write update target v))
    (hop : o.op = .control (.assign update))
    (hv : o.Updates (Valued (shaping base).regime ((shaping base).operand c) s) update (.ok v))
    (hrun : Eval.write update target v c s = (.ok out, t))
    (hfit : Suited base (t.recorded id out)) (hσ : node.shape = some σ) :
    out.HasShape t.graph σ := by
  obtain ⟨hinferred, hbase, -⟩ := h.inv
  have hst := h.advances hrun
  have houtcome := (Eval.write_outcome h.coherent.graph update v).symm.trans
    (congrArg Prod.fst hrun)
  obtain ⟨r, hstore, rfl⟩ := Except.map_eq_ok.mp houtcome
  have hoperation := hst.graph.operation h.found h.kind
  rcases hfit.assignments List.mem_cons_self hoperation h.kind hop hσ with hsource | hfits
  · -- The shapes of the nodes are compared, and storing the value casts it and keeps its extents.
    obtain ⟨_, _, -, -, hcast, -⟩ := Graph.store_eq_ok hstore
    have htarget := (hinferred.operation h.found h.kind).1.symm.trans hσ
    simp only [Graph.resultShape, hop, List.head?_eq_getElem?] at htarget
    have hassigned := shape_of_updates (hfit.before (hst.trans (.remember t id _))) hv htarget
      (hbase.shapeOf_eq_some hsource)
    exact hassigned.trans (congrArg _ (Value.dims_cast hcast).symm)
  · exact hfits

/-- The result of an operation has the shape that the operation declares. -/
theorem Performing.hasShape {out : Output} {σ : Shape}
    (h : (shaping base).Performing c id node o s y) (hrun : y c s = (.ok out, t))
    (hfit : Suited base (t.recorded id out)) (hσ : node.shape = some σ) :
    out.HasShape t.graph σ := by
  obtain ⟨hinferred, -⟩ := h.inv
  have hst := h.advances hrun
  have hbefore : s.Suited base := hfit.before (hst.trans (.remember t id out))
  have hresult := (hinferred.operation h.found h.kind).1.symm.trans hσ
  cases h.last with
  | failed => cases hrun
  | refused => cases hrun
  | computed hop hnode hargs =>
    rw [Eval.compute_run] at hrun
    obtain ⟨v, hv, rfl⟩ := Except.map_eq_ok.mp (congrArg Prod.fst hrun)
    obtain ⟨hregular, hpossible⟩ :=
      hfit.regular List.mem_cons_self (hst.graph.operation h.found h.kind) h.kind
    have hregular := (Graph.SameShapes.evolves hst.graph).regular_of_later hregular
    exact (shaped_of_gathered hbefore hop hargs).compute hregular hresult (hpossible σ hσ) hv
  | written hop _ hv =>
    exact h.hasShape_of_written hop hv hrun hfit hσ
  | deferred =>
    cases hsymbolic : s.isSymbolic id with
    | true =>
      cases (Eval.defer_run_symbolic hsymbolic).symm.trans hrun
      exact (Graph.shapeOf_of_node? h.found).trans hσ
    | false =>
      obtain ⟨g, copy, hadd⟩ := Graph.exists_addDeferred h.found o
      obtain ⟨r, -, hdefer⟩ := Eval.defer_run (c := c) hsymbolic hadd
      cases hdefer.symm.trans hrun
      exact (Graph.shapeOf_addDeferred h.found hadd).trans hσ
  | @passed r _ hr hgives =>
    cases hrun
    have hyields := hgives.1 hbefore
    cases hr with
    | identity hop hr =>
      simp only [Graph.resultShape, hop, List.head?_eq_getElem?, hr] at hresult
      exact hyields.shape hresult
    | stopGradient hop hr =>
      simp only [Graph.resultShape, hop, List.head?_eq_getElem?, hr] at hresult
      exact hyields.shape hresult
    | cond hop => simp [Graph.resultShape, hop] at hresult
  | grouped hop => simp [Graph.resultShape, hop] at hresult
  | @printed r _ _ hop hr =>
    cases hrun
    simp only [Graph.resultShape, hop, List.head?_eq_getElem?, hr] at hresult
    exact hresult

theorem Performing.yields {out : Output} (h : (shaping base).Performing c id node o s y)
    (hrun : y c s = (.ok out, t)) (hfit : Suited base (t.recorded id out)) :
    t.graph.Yields id out where
  there := Nat.lt_of_lt_of_le (Graph.lt_size_of_node? h.found) (h.advances hrun).graph.size_le
  shape hσ := by
    have hshapes := Graph.SameShapes.evolves (h.advances hrun).graph
    rw [hshapes.shapeOf id (Graph.lt_size_of_node? h.found), Graph.shapeOf_of_node? h.found] at hσ
    exact h.hasShape hrun hfit hσ

/-- The values of the variables still have the shapes of the variables after an operation. -/
theorem Performing.fitted {out : Output} (h : (shaping base).Performing c id node o s y)
    (hrun : y c s = (.ok out, t)) (hfit : Suited base (t.recorded id out))
    (hs : s.graph.Fitted) : t.graph.Fitted := by
  obtain ⟨hinferred, -⟩ := h.inv
  cases h.changes hrun with
  | none halike => rwa [halike.graph]
  | copied _ hadd => exact hs.addDeferred hadd
  | stored hop htarget hstore =>
    refine hs.store hstore fun σ hσ => ?_
    have hshape := (hinferred.operation h.found h.kind).1
    simp only [Graph.resultShape, hop, List.head?_eq_getElem?, htarget, hσ] at hshape
    exact h.hasShape hrun hfit hshape

theorem shaping_lawful (base : Graph) (c : Settings) : (shaping base).Lawful c where
  alike h hs := by
    obtain ⟨hinferred, hbase, hbindings, hretained, hvalues⟩ := hs
    refine ⟨h.graph ▸ hinferred, h.graph ▸ hbase, h.bindings.trans hbindings,
      h.retained.trans hretained, fun hfit => ?_⟩
    rw [h.graph, h.memo]
    exact hvalues (hfit.of_alike h)
  leaves _ _ _ := trivial
  lasts _ _ := trivial
  retained hs hretained := by
    obtain ⟨-, -, -, -, hnone, -⟩ := hs
    simp [Context.isRetained, hnone] at hretained
  missing _ _ _ := trivial
  leaf {id node r s} hs _ hnode h := by
    obtain ⟨hinferred, -, hbindings, -, hvalues⟩ := hs.2
    cases h with
    | literal hkind =>
      exact fun _ => .of_node? hnode fun hσ =>
        (Option.some.inj ((hinferred.literal hnode hkind).symm.trans hσ)).symm
    | @initialized v hkind =>
      exact fun hfit => .of_node? hnode fun {σ} hσ => (hvalues hfit).1 id node v σ hnode hkind hσ
    | bound _ hbinding => simp [Context.binding?, hbindings] at hbinding
    | uninitialized => trivial
    | unbound => trivial
  reference {id node target r s} hs _ hnode hkind h := by
    obtain ⟨hinferred, -⟩ := hs.2
    cases r with
    | error e => trivial
    | ok out =>
      exact fun hfit => .of_node? hnode fun hσ =>
        (h hfit).shape ((hinferred.reference hnode hkind).symm.trans hσ)
  remembered hs hmem hfit := (hs.2.2.2.2.2 hfit).2 _ _ hmem
  failed _ _ := trivial
  performed {id node o y s out t} h hrun hcoherent := by
    obtain ⟨hgraph, hbase, hbindings, hretained, hvalues⟩ := h.inv
    have hchanges := h.changes hrun
    have hst := h.advances hrun
    have hkeeps : t.graph.Inferred := Graph.stable_inferred.changes hchanges h.found h.kind hgraph
    have hyields (hfit : Suited base (t.recorded id out)) : t.graph.Yields id out :=
      h.yields hrun hfit
    refine ⟨⟨hkeeps, hbase.trans (.evolves hst.graph), hst.bindings.trans hbindings,
      hst.retained.trans hretained, fun hfit => ?_⟩, hyields⟩
    obtain ⟨hfitted, hmemo⟩ := hvalues (hfit.before (hst.trans (.remember t id out)))
    refine ⟨h.fitted (t := t) hrun hfit hfitted, fun i r hmem => ?_⟩
    -- The memo has one new entry, and the others keep their shapes.
    rw [State.recorded_memo, hchanges.memo] at hmem
    cases hmem with
    | head => exact hyields hfit
    | tail _ hmem => exact (hmemo i r hmem).mono (.evolves hst.graph)
  later {id out out' s t} h hst hbecomes _ := by
    intro hfit
    have hyields := (h (hfit.before hst)).mono (.evolves hst.graph)
    cases hbecomes with
    | same => exact hyields
    | items => exact ⟨hyields.there, fun hσ => hyields.shape hσ⟩
    | onward hnext => exact ⟨hyields.there, fun hσ => (hnext hfit).shape (hyields.shape hσ)⟩
  blocked _ _ _ _ := trivial

end Conduct

/-! ## Evaluations from scratch -/

/-- What is assigned to a variable has the shape that the variable declares: the node that is
assigned declares it as well, or the values that are written, all in `ws`, have it. -/
def Graph.Suits (g : Graph) (ws : List Write) : Prop :=
  ∀ ⦃id node o update target n σ⦄, g.node? id = some node → node.kind = .operation o →
    o.op = .control (.assign update) → o.operands[0]? = some target → g.node? target = some n →
    n.shape = some σ →
    g.shapeOf o.operands[1]? = some σ ∨ ∀ w ∈ ws, w.2.1 = n.name → σ = .known w.2.2.dims

/-- An operation is one of the graph at the start, or a copy of one. -/
theorem State.Framed.exists_operation {g : Graph} {s : State} (hs : Framed g s) {id : NodeId}
    {node : Node} {o : Operation} (hnode : s.graph.node? id = some node)
    (hkind : node.kind = .operation o) :
    ∃ i n, g.node? i = some n ∧ n.kind = .operation o ∧ n.shape = node.shape := by
  by_cases hlt : id.index < g.size
  · exact ⟨id, node, hs.graph.operation_before hlt hnode hkind, hkind, rfl⟩
  · have hsymbolic := (hs.symbolic id).mpr ⟨Nat.le_of_not_lt hlt, Graph.lt_size_of_node? hnode⟩
    obtain ⟨origin, horigin, -, n, _, o', hn, hadded, hnkind, haddedkind, -, hshape, -⟩ :=
      hs.copied id hsymbolic
    cases hnode.symm.trans hadded
    cases hkind.symm.trans haddedkind
    exact ⟨origin, n, hs.graph.operation_before horigin hn hnkind, hnkind, hshape.symm⟩

/-- The results of assignments are what they wrote. -/
theorem State.assignmentsFit_of_suits {g : Graph} {s : State} (hg : g.Inferred) (hs : Framed g s)
    (hsuits : g.Suits s.writes) : s.AssignmentsFit g := by
  intro id node o update v σ hmem hnode hkind hop hσ
  obtain ⟨i, n, hn, hnkind, hshape⟩ := hs.exists_operation hnode hkind
  have hresult := (hg.operation hn hnkind).1
  obtain ⟨op, operands, options⟩ := o
  cases hop
  rw [hshape, hσ] at hresult
  cases operands with
  | nil => cases hresult
  | cons target rest =>
    obtain ⟨stored, hstored, hstoredσ⟩ := Graph.exists_of_shapeOf hresult.symm
    refine (hsuits hn hnkind rfl rfl hstored hstoredσ).imp_right fun hall => ?_
    obtain ⟨stored', hstored', hbare⟩ := hs.graph.node? hstored
    refine hall (update, stored'.name, v) ?_ (Node.name_eq_of_bare hbare)
    refine List.mem_filterMap.mpr ⟨(id, .value v), List.mem_reverse.mpr hmem, ?_⟩
    simp [Graph.write?, hnode, hkind, hstored']

/-- The operations that were performed are regular, and of the shapes that they declare there are
values. -/
def Graph.RegularIn (g : Graph) (s : State) : Prop :=
  ∀ ⦃id out node o⦄, (id, out) ∈ s.performed → s.graph.node? id = some node →
    node.kind = .operation o → o.Regular g ∧ ∀ σ, node.shape = some σ → σ.Possible

/-- In a regular graph nothing else can be performed. -/
theorem Graph.Regular.regularIn {g : Graph} {s : State} (hg : g.Regular) (hs : Framed g s) :
    g.RegularIn s := by
  rintro id out node o - hnode hkind
  obtain ⟨i, n, hn, hnkind, hshape⟩ := hs.exists_operation hnode hkind
  exact ⟨hg.operation hn hnkind, fun σ hσ => hg.possible hn (hshape.trans hσ)⟩

theorem State.suited_of_regularIn {g : Graph} {s : State} (hg : g.Inferred) (hs : Framed g s)
    (hperformed : s.performed = s.memo) (hregular : g.RegularIn s) (hsuits : g.Suits s.writes) :
    s.Suited g where
  assignments := assignmentsFit_of_suits hg hs hsuits
  regular id out node o hmem hnode hkind := by
    obtain ⟨i, n, hn, hnkind, -⟩ := hs.exists_operation hnode hkind
    exact (hregular (hperformed ▸ hmem) hnode hkind).imp_left
      ((Graph.SameShapes.evolves hs.graph).regular (hg.operation hn hnkind).2)

theorem Conduct.shaping_start {g : Graph} (hg : g.Built) (config : Config) (spare : UInt64) :
    (shaping g).regime.inv (.start lib g .empty config spare) :=
  ⟨coherent_start lib hg.wellFormed .empty config spare, hg.inferred, .refl g, rfl, rfl,
    fun _ => ⟨hg.fitted, fun _ _ hmem => by cases hmem⟩⟩

/-- The shape that a node of a built graph declares is that of every value that it is evaluated to,
if no placeholder is bound. That takes that all operations that are performed on the way are
regular, and that what is assigned to the variables suits them, since any value is stored. -/
theorem Graph.Built.declared_shape_of_value {g : Graph} (hg : g.Built) (config : Config)
    (spare : UInt64) (c : Settings) {id : NodeId} {node : Node} {σ : Shape} {v : Value} {t : State}
    (hnode : g.node? id = some node) (hσ : node.shape = some σ)
    (hrun : Eval.complete id c (.start lib g .empty config spare) = (.ok (.value v), t))
    (hregular : g.RegularIn t) (hsuits : g.Suits t.reportedWrites) : σ = .known v.dims := by
  obtain ⟨⟨hcoherent, -⟩, hadvances, hgives⟩ := Eval.complete_conducted
    (Conduct.shaping_lawful g c) id (Conduct.shaping_start lib hg config spare)
  obtain ⟨hframed, -⟩ := Eval.complete_conducted (Conduct.framed_lawful g c) id
    ⟨coherent_start lib hg.wellFormed .empty config spare, framed_start lib g .empty config spare⟩
  obtain ⟨-, hgrows, -⟩ := call_growth (c := c) (.complete id)
    (coherent_start lib hg.wellFormed .empty config spare)
  simp only [Call.eval, hrun] at hcoherent hadvances hgives hgrows hframed
  rw [(accounts_of_start hgrows).1] at hsuits
  have hyields :=
    hgives (suited_of_regularIn hg.inferred hframed.2 hcoherent.performed hregular hsuits)
  refine hyields.shape ?_
  rw [(SameShapes.evolves hadvances.graph).shapeOf id (lt_size_of_node? hnode)]
  exact (shapeOf_of_node? hnode).trans hσ

/-- A matrix that is assigned to a variable of its shape, and transposed. -/
theorem Graph.Built.declared_shape_of_value_transpose :
    let g := Graph.ofSteps [
      .variable "v" .int32 (some (.array [.array [.scalar (.int 1), .scalar (.int 2)]])),
      .constant "c" (.array [.array [.scalar (.int 3), .scalar (.int 4)]]),
      .operation "set" ⟨.control (.assign .set), [⟨0⟩, ⟨1⟩], .empty⟩,
      .operation "flipped" ⟨.kernel .transpose, [⟨2⟩], .empty⟩]
    let result := Eval.complete ⟨3⟩ ⟨32, .cpu⟩ (.start .standard g .empty .standard 0)
    let v := Value.array [.array [.scalar (.int 3)], .array [.scalar (.int 4)]]
    g.Regular ∧ (g.node? ⟨3⟩).bind (·.shape) = some (.known [2, 1]) ∧
      g.Suits result.2.reportedWrites ∧ result.1 = .ok (.value v) ∧
      Shape.known [2, 1] = .known v.dims := by
  intro g result v
  have hregular : g.Regular := by
    constructor
    · rintro ⟨_ | _ | _ | _ | n⟩ node σ hnode hσ <;> cases hnode <;> cases hσ <;> decide
    · rintro ⟨_ | _ | _ | _ | n⟩ node o hnode ho <;> cases hnode <;> cases ho
      all_goals exact ⟨fun h => by (cases h), fun h => by (cases h)⟩
  have hsuits (ws : List Write) : g.Suits ws := by
    rintro ⟨_ | _ | _ | _ | n⟩ node o update target n σ hnode hkind hop htarget hn hσ <;>
      cases hnode <;> cases hkind <;> cases hop
    cases htarget
    cases hn
    exact .inl hσ
  have hrun : result.1 = .ok (.value v) := rfl
  have hregularIn : g.RegularIn result.2 := hregular.regularIn
    (Eval.complete_conducted (Conduct.framed_lawful g ⟨32, .cpu⟩) ⟨3⟩
      ⟨coherent_start .standard (built_ofSteps _).wellFormed .empty .standard 0,
        framed_start .standard g .empty .standard 0⟩).1.2
  have hdeclared : g.shapeOf (some ⟨3⟩) = some (.known [2, 1]) := rfl
  obtain ⟨node, hnode, hσ⟩ := Graph.exists_of_shapeOf hdeclared
  exact ⟨hregular, rfl, hsuits _, hrun,
    declared_shape_of_value .standard (built_ofSteps _) .standard 0 ⟨32, .cpu⟩ hnode hσ
      (Prod.ext hrun rfl) hregularIn (hsuits _)⟩

/-- A number is stored in a variable that declares the shape of a vector. -/
theorem Graph.Built.declared_shape_of_value_fails :
    let g := Graph.ofSteps [
      .variable "v" .int32 (some (.array [.scalar (.int 1), .scalar (.int 2)])),
      .constant "c" (.scalar (.int 5)),
      .operation "set" ⟨.control (.assign .set), [⟨0⟩, ⟨1⟩], .empty⟩]
    let result := Eval.complete ⟨2⟩ ⟨32, .cpu⟩ (.start .standard g .empty .standard 0)
    let v := Value.scalar (.int 5)
    g.Built ∧ g.Regular ∧
      (∀ id node, g.node? id = some node → node.kind ≠ .placeholder ∧
        ∀ w, node.kind = .literal w ∨ node.kind = .variable (some w) → w.Rect ∧ 0 ∉ w.dims) ∧
      (g.node? ⟨2⟩).bind (·.shape) = some (.known [2]) ∧ result.1 = .ok (.value v) ∧
      v.dims.length ≠ (Shape.known [2]).rank := by
  intro g result v
  have hregular : g.Regular := by
    constructor
    · rintro ⟨_ | _ | _ | n⟩ node σ hnode hσ <;> cases hnode <;> cases hσ <;> decide
    · rintro ⟨_ | _ | _ | n⟩ node o hnode ho <;> cases hnode <;> cases ho
      exact ⟨fun h => by (cases h), fun h => by (cases h)⟩
  refine ⟨Graph.built_ofSteps _, hregular, ?_, rfl, rfl, by decide⟩
  rintro ⟨_ | _ | _ | n⟩ node hnode <;> cases hnode <;> refine ⟨fun h => by (cases h), ?_⟩
  · rintro w (hw | hw) <;> cases hw
    exact ⟨.array (by simp [Value.Rect.scalar]) (by simp [Value.dims]), by decide⟩
  · rintro w (hw | hw) <;> cases hw
    exact ⟨.scalar _, by decide⟩
  · rintro w (hw | hw) <;> cases hw

/-- A sum of no columns is transposed. No value has the declared shape, since a list without items
has no axes inside it. -/
theorem Graph.Built.declared_shape_of_value_fails_impossible :
    let g := Graph.ofSteps [.constant "five" (.scalar (.int 5)),
      .operation "extents" ⟨.kernel .shape, [⟨0⟩], .empty⟩,
      .constant "column" (.array [.array [.scalar (.int 1)], .array [.scalar (.int 2)]]),
      .operation "sum" ⟨.kernel (.binary (.arithmetic .add)), [⟨1⟩, ⟨2⟩], .empty⟩,
      .operation "flipped" ⟨.kernel .transpose, [⟨3⟩], .empty⟩]
    let result := Eval.complete ⟨4⟩ ⟨32, .cpu⟩ (.start .standard g .empty .standard 0)
    let v := Value.array []
    g.Built ∧ (∀ id node o, g.node? id = some node → node.kind = .operation o → o.Regular g) ∧
      g.Suits result.2.reportedWrites ∧
      (g.node? ⟨4⟩).bind (·.shape) = some (.known [0, 2]) ∧ result.1 = .ok (.value v) ∧
      v.dims.length ≠ (Shape.known [0, 2]).rank := by
  intro g result v
  refine ⟨built_ofSteps _, ?_, ?_, rfl, ?_, by decide⟩
  · rintro ⟨_ | _ | _ | _ | _ | n⟩ node o hnode ho <;> cases hnode <;> cases ho
    · exact ⟨fun h => by (cases h), fun h => by (cases h)⟩
    · refine ⟨fun _ ha hb _ => ?_, fun h => by (cases h)⟩
      cases ha
      cases hb
      decide
    · exact ⟨fun h => by (cases h), fun h => by (cases h)⟩
  · rintro ⟨_ | _ | _ | _ | _ | n⟩ node o update target n σ hnode hkind hop <;>
      cases hnode <;> cases hkind <;> cases hop
  · have hsum : Value.binary (.arithmetic .add) (.array [])
        (.array [.array [.scalar (.int 1)], .array [.scalar (.int 2)]]) =
          .ok (.array [.array [], .array []]) := by cbv
    -- The sum is computed while the transposition looks for its operand.
    let flip : Operation := ⟨.kernel .transpose, [⟨3⟩], .empty⟩
    obtain ⟨node, hnode, hkind, hunwatched⟩ : ∃ node, g.node? ⟨4⟩ = some node ∧
        node.kind = .operation flip ∧ node.watched = false := ⟨_, rfl, rfl, rfl⟩
    let s := State.start .standard g .empty .standard 0
    let entered := { s with events := s.events.push (.report (.entered node.kind.label node.name)) }
    have hinner : entered.graph.node? ⟨3⟩ = some _ := rfl
    obtain ⟨t, ht, htgraph⟩ := Earlier.completeNode_kernel hinner rfl rfl rfl rfl
      (show (Earlier.below 3).gather _ _ _ ⟨32, .cpu⟩ _ = _ from rfl)
      (congrArg Failure.ofFault hsum) rfl
    have hfound : t.graph.node? ⟨4⟩ = some node := (congrArg (·.node? ⟨4⟩) htgraph).trans hnode
    have hresolve := Eval.bind_run_ok (f := fun out => pure out.toValue?) ht
    have hall : (Earlier.below 4).resolveAll [⟨3⟩] ⟨32, .cpu⟩ _ = (.ok (some [_]), t) :=
      Eval.bind_run_ok hresolve
    have hgather : (Earlier.below 4).gather ⟨4⟩ .transpose flip ⟨32, .cpu⟩ _ = (.ok (some _), t) :=
      (Eval.bind_run_ok hall).trans (Eval.bind_run_ok (Eval.node_run_some hfound))
    obtain ⟨u, hu, -⟩ : ∃ u, (Earlier.below 4).completeNode ⟨4⟩ ⟨32, .cpu⟩ s = (.ok (.value v), u) ∧
        u.graph = t.graph :=
      Earlier.completeNode_kernel hnode hkind rfl rfl rfl hgather rfl
        (by simp [Graph.watched?, hfound, hunwatched])
    exact congrArg Prod.fst hu

/-- Zeros are asked for by an operand and by an option at once. -/
theorem Graph.Built.declared_shape_of_value_fails_listed :
    let g := Graph.ofSteps [.constant "a" (.array [.scalar (.int 2)]),
      .operation "zeros" ⟨.kernel (.fill .zeros), [⟨0⟩],
        ⟨[("shape", .value (.array [.scalar (.int 3)]))]⟩⟩]
    let result := Eval.complete ⟨1⟩ ⟨32, .cpu⟩ (.start .standard g .empty .standard 0)
    let v := Value.array [.scalar (.float 0.0), .scalar (.float 0.0)]
    g.Built ∧ (∀ id node σ, g.node? id = some node → node.shape = some σ → σ.Possible) ∧
      g.Suits result.2.reportedWrites ∧ (g.node? ⟨1⟩).bind (·.shape) = some (.known [3]) ∧
      result.1 = .ok (.value v) ∧ Shape.known [3] ≠ .known v.dims := by
  intro g result v
  refine ⟨built_ofSteps _, ?_, ?_, rfl, rfl, by decide⟩
  · rintro ⟨_ | _ | n⟩ node σ hnode hσ <;> cases hnode <;> cases hσ <;> decide
  · rintro ⟨_ | _ | n⟩ node o update target n σ hnode hkind hop <;>
      cases hnode <;> cases hkind
    cases hop

end Dataflow
