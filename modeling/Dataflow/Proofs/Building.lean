import Dataflow.Graph.Inference
import Dataflow.Proofs.Outcome
import Dataflow.Proofs.WellFormed

/-!
# Building steps

What the public steps do to a graph. A step looks at everything before it changes anything, so it
adds one node, or annotates one that is there, or fails and leaves the graph as it was.
-/

namespace Dataflow

/-! ## Computations in place -/

namespace Building

variable {α β : Type} {g g' : Graph} {x : Building α} {f : α → Building β}

theorem on_bind (x : Building α) (f : α → Building β) (g : Graph) :
    (x >>= f).on g = match x.on g with
      | (.ok a, g') => (f a).on g'
      | (.error e, g') => (.error e, g') := by
  unfold on ExceptT.run StateT.run Id.run
  simp only [bind, ExceptT.bind, ExceptT.mk, StateT.bind, ExceptT.bindCont]
  cases x g with
  | mk outcome g' => cases outcome <;> rfl

@[simp] theorem on_insert (name : String) (dtype : DType) (shape : Option Shape) (isConst : Bool)
    (kind : NodeKind) (g : Graph) : (insert name dtype shape isConst kind).on g =
      (.ok (g.insert name dtype shape isConst kind).2,
        (g.insert name dtype shape isConst kind).1) := rfl

@[simp] theorem on_node (id : NodeId) (g : Graph) : (node id).on g = (g.node id, g) := rfl

theorem discard_eq_bind (x : Building α) : discard x = x >>= fun _ => pure () := by
  rw [Functor.discard, map_const, Function.comp_apply, ← bind_pure_comp]

/-- Looking up nodes one after another succeeds if all of them are there. -/
theorem on_forM_node (ids : List NodeId) (g : Graph) :
    ∃ r, (ids.forM fun id => discard (node id)).on g = (r, g) ∧
      (r = .ok () → ∀ id ∈ ids, id.index < g.size) := by
  induction ids with
  | nil => exact ⟨.ok (), rfl, by simp⟩
  | cons id ids ih =>
    obtain ⟨r, hrun, hr⟩ := ih
    have hcons : (id :: ids).forM (fun id => discard (node id)) =
        node id >>= fun _ => ids.forM fun id => discard (node id) := by
      show discard (node id) >>= _ = _
      rw [discard_eq_bind, bind_assoc]
      rfl
    rw [hcons, on_bind, on_node]
    cases hnode : g.node id with
    | error e => exact ⟨.error e, rfl, by simp⟩
    | ok n =>
      refine ⟨r, hrun, fun h => List.forall_mem_cons.mpr ⟨?_, hr h⟩⟩
      exact Graph.lt_size_of_node? (Graph.node_eq_ok.mp hnode)

/-! ## All or nothing -/

/-- Performed on `g`, the computation gives a result and a graph as `P` says, or it fails and leaves
`g` as it was. -/
structure Atomic (g : Graph) (x : Building α) (P : α → Graph → Prop) : Prop where
  ok : ∀ {a g'}, x.on g = (.ok a, g') → P a g'
  error : ∀ {e g'}, x.on g = (.error e, g') → g' = g

namespace Atomic

variable {P Q : α → Graph → Prop} {R : β → Graph → Prop}

theorem insert {name : String} {dtype : DType} {shape : Option Shape} {isConst : Bool}
    {kind : NodeKind} : Atomic g (Building.insert name dtype shape isConst kind) fun id g' =>
      (g', id) = g.insert name dtype shape isConst kind where
  ok h := by
    cases h
    rfl
  error h := by cases h

theorem throw {e : Failure} : Atomic g (throw e : Building α) P where
  ok h := by cases h
  error h := by
    cases h
    rfl

theorem cases (h : Atomic g x P) :
    (∃ e, x.on g = (.error e, g)) ∨ ∃ a g', x.on g = (.ok a, g') ∧ P a g' := by
  cases hrun : x.on g with
  | mk outcome g' =>
    cases outcome with
    | ok a => exact .inr ⟨a, g', rfl, h.ok hrun⟩
    | error e =>
      obtain rfl := h.error hrun
      exact .inl ⟨e, rfl⟩

theorem mono (h : Atomic g x P) (hPQ : ∀ a g', P a g' → Q a g') : Atomic g x Q where
  ok hrun := hPQ _ _ (h.ok hrun)
  error := h.error

/-- After a look at the graph, which changes nothing. -/
theorem look {r : Except Failure α} (hx : x.on g = (r, g))
    (h : ∀ a, r = .ok a → Atomic g (f a) R) : Atomic g (x >>= f) R := by
  cases r with
  | ok a =>
    have hbind : (x >>= f).on g = (f a).on g := by rw [on_bind, hx]
    exact ⟨fun hrun => (h a rfl).ok (hbind ▸ hrun), fun hrun => (h a rfl).error (hbind ▸ hrun)⟩
  | error e =>
    have hbind : (x >>= f).on g = (.error e, g) := by rw [on_bind, hx]
    refine ⟨fun hrun => ?_, fun hrun => ?_⟩
    · cases hbind.symm.trans hrun
    · cases hbind.symm.trans hrun
      rfl

/-- What is done with the result does not change the graph. -/
theorem map (h : Atomic g x P) (k : α → β) (hP : ∀ a g', P a g' → R (k a) g') :
    Atomic g (x >>= fun a => pure (k a)) R := by
  constructor
  · intro b g' hrun
    rw [on_bind] at hrun
    split at hrun
    · rename_i hx
      cases hrun
      exact hP _ _ (h.ok hx)
    · cases hrun
  · intro e g' hrun
    rw [on_bind] at hrun
    split at hrun
    · cases hrun
    · rename_i hx
      cases hrun
      exact h.error hx

theorem discard (h : Atomic g x P) {S : Graph → Prop} (hP : ∀ a g', P a g' → S g') :
    Atomic g (discard x) fun _ g' => S g' := by
  rw [discard_eq_bind]
  exact h.map (fun _ => ()) hP

/-- A change that looks at nothing. -/
theorem modify {change : Graph → Graph} : Atomic g (modify change : Building Unit) fun _ g' =>
    g' = change g where
  ok h := by
    cases h
    rfl
  error h := by cases h

end Atomic

end Building

namespace Graph

open Building

variable {g g' : Graph} {id : NodeId} {node : Node} {o : Operation}

/-! ## Changing a node -/

theorem outcome_eq_ok {α : Type} {x : Building α} {a : α} :
    g.outcome x = .ok (g', a) ↔ x.on g = (.ok a, g') := by
  unfold outcome
  split <;> simp_all [and_comm]

theorem outcome_eq_error {α : Type} {x : Building α} {e : Failure} :
    g.outcome x = .error e ↔ (x.on g).1 = .error e := by
  unfold outcome
  split <;> simp_all

theorem on_update {change : Node → Node} (hnode : g.node? id = some node) :
    (Building.update id change).on g =
      (.ok (), { g with nodes := g.nodes.setIfInBounds id.index (change node) }) := by
  rw [Building.update, on_bind, on_node, node_of_node? hnode]
  rfl

theorem update_eq_ok {change : Node → Node} :
    g.update id change = .ok g' ↔ ∃ node, g.node? id = some node ∧
      g' = { g with nodes := g.nodes.setIfInBounds id.index (change node) } := by
  simp only [update, Except.map_eq_ok, Prod.exists, outcome_eq_ok]
  cases h : g.node? id with
  | none => simp [Building.update, on_bind, node_of_node?_none h]
  | some node => simp [on_update h, eq_comm]

theorem node?_update {change : Node → Node} (h : g.update id change = .ok g') (i : NodeId) :
    g'.node? i = if i = id then (g.node? i).map change else g.node? i := by
  obtain ⟨node, hnode, rfl⟩ := update_eq_ok.mp h
  have hlt := lt_size_of_node? hnode
  by_cases hi : i = id
  · subst hi
    rw [if_pos rfl, hnode]
    simp [node?, Array.getElem?_setIfInBounds_self_of_lt hlt]
  · have hne : id.index ≠ i.index := fun heq => hi (by cases i; cases id; simp_all)
    simp [node?, hi, hne]

theorem index_update {change : Node → Node} (h : g.update id change = .ok g') :
    g'.index = g.index := by
  obtain ⟨node, -, rfl⟩ := update_eq_ok.mp h
  rfl

/-- A change of a node keeps the graph well formed if it keeps the position, the name and the
references of the node. -/
theorem WellFormed.update {change : Node → Node} (hg : g.WellFormed)
    (h : g.update id change = .ok g')
    (houtline : ∀ n, g.node? id = some n → (change n).outline = n.outline) : g'.WellFormed := by
  refine hg.of_outline (index_update h) fun i => ?_
  rw [node?_update h]
  split
  · rename_i hi
    subst hi
    cases hn : g.node? i with
    | none => rfl
    | some n => exact congrArg some (houtline n hn)
  · rfl

end Graph

/-! ## Building steps -/

/-- A public step that adds or changes a node. -/
inductive BuildStep where
  | constant (name : String) (v : Value)
  | literal (name : String) (v : Value) (dtype : DType)
  | reference (name : String) (target : NodeId)
  | variable (name : String) (dtype : DType) (initial : Option Value)
  | placeholder (name : String) (dtype : DType) (shape : Option Shape)
  | operation (name : String) (o : Operation)
  | tagged (tag : String) (name : Option String) (operands : List NodeId) (options : Options)
  | watch (id : NodeId)
  | source (id : NodeId) (text : String)

/-- The name that a step asks for, if it adds a node. -/
def BuildStep.requested? : BuildStep → Option String
  | .constant name _ | .literal name _ _ | .reference name _ | .variable name _ _
  | .placeholder name _ _ | .operation name _ => some name
  | .tagged tag name _ _ => some (name.getD tag)
  | .watch _ | .source _ _ => none

/-- The operation is applied to as many operands as it takes. -/
def Operation.WithinArity (o : Operation) : Prop :=
  o.op.arity.1 ≤ o.operands.length ∧ o.operands.length ≤ o.op.arity.2

/-- What the step does in place. -/
def BuildStep.perform : BuildStep → Building Unit
  | .constant name v => discard (.addConstant name v)
  | .literal name v dtype => discard (.addLiteral name v dtype)
  | .reference name target => discard (.addReference name target)
  | .variable name dtype initial => discard (.addVariable name dtype initial)
  | .placeholder name dtype shape => discard (.addPlaceholder name dtype shape)
  | .operation name o => discard (.addOperation name o)
  | .tagged tag name operands options => discard (.addTagged tag name operands options)
  | .watch id => .watch id
  | .source id text => .setSource id text

/-- How a step ends on a graph, and the graph that it leaves. -/
def Graph.take (g : Graph) (step : BuildStep) : Except Failure Unit × Graph :=
  step.perform.on g

/-- A graph that building steps lead to, of which some may have failed. -/
inductive Graph.Built : Graph → Prop
  | empty : Built .empty
  | step {g : Graph} (hg : Built g) (step : BuildStep) : Built (g.take step).2

/-- The first node is the second one, but for where it was defined and whether it has a
breakpoint. -/
structure Node.Annotates (m n : Node) : Prop where
  id : m.id = n.id
  name : m.name = n.name
  dtype : m.dtype = n.dtype
  shape : m.shape = n.shape
  kind : m.kind = n.kind

theorem Node.Annotates.outline {m n : Node} (h : m.Annotates n) : m.outline = n.outline := by
  simp only [Node.outline, h.id, h.name, h.kind]

namespace Graph

open Building

variable {g g' : Graph} {id : NodeId} {node : Node} {o : Operation}

/-- What a building step declares of the node that it adds to the graph: the element type, what is
known of the shape, and the kind. -/
inductive Declares (g : Graph) : DType → Option Shape → NodeKind → Prop
  | literal {dtype : DType} {v w : Value} (hcast : v.cast dtype = .ok w) :
      Declares g dtype (some (.known w.dims)) (.literal w)
  | reference {target : NodeId} {node : Node} (hnode : g.node? target = some node) :
      Declares g node.dtype node.shape (.reference target)
  | uninitialized {dtype : DType} : Declares g dtype none (.variable none)
  | initialized {dtype : DType} {v w : Value} (hcast : v.cast dtype = .ok w) :
      Declares g dtype (some (.known w.dims)) (.variable (some w))
  | placeholder {dtype : DType} {shape : Option Shape} : Declares g dtype shape .placeholder
  | operation {o : Operation} (harity : o.WithinArity)
      (hreferences : ∀ id ∈ o.references, id.index < g.size) :
      Declares g (g.resultDType o) (g.resultShape o) (.operation o)

theorem Declares.lt_size {g : Graph} {dtype : DType} {shape : Option Shape} {kind : NodeKind}
    (h : g.Declares dtype shape kind) : ∀ r ∈ kind.references, r.index < g.size := by
  cases h with
  | reference hnode => simpa [NodeKind.references] using lt_size_of_node? hnode
  | operation _ hreferences => exact hreferences
  | _ => simp [NodeKind.references]

theorem Declares.withinArity {g : Graph} {dtype : DType} {shape : Option Shape} {o : Operation}
    (h : g.Declares dtype shape (.operation o)) : o.WithinArity := by
  cases h with
  | operation harity => exact harity

/-- A node is added that asked for the given name. -/
def Adds (g : Graph) (requested : String) (id : NodeId) (g' : Graph) : Prop :=
  ∃ dtype shape isConst kind, g.Declares dtype shape kind ∧
    (g', id) = g.insert requested dtype shape isConst kind

theorem atomic_insert {name : String} {dtype : DType} {shape : Option Shape} {isConst : Bool}
    {kind : NodeKind} (h : g.Declares dtype shape kind) :
    Atomic g (Building.insert name dtype shape isConst kind) (g.Adds name) :=
  Atomic.insert.mono fun _ _ hinsert => ⟨dtype, shape, isConst, kind, h, hinsert⟩

theorem ok_of_ofFault {α : Type} {r : Except Fault α} {a : α} (h : Failure.ofFault r = .ok a) :
    r = .ok a := by
  cases r with
  | ok b => simpa [Failure.ofFault] using h
  | error f => cases h

theorem atomic_addLiteral {name : String} {v : Value} {dtype : DType} :
    Atomic g (.addLiteral name v dtype) (g.Adds name) :=
  Atomic.look rfl fun _ hcast => atomic_insert (.literal (ok_of_ofFault hcast))

theorem atomic_addReference {name : String} {target : NodeId} :
    Atomic g (.addReference name target) (g.Adds name) :=
  Atomic.look (on_node ..) fun _ hnode => atomic_insert (.reference (node_eq_ok.mp hnode))

theorem atomic_addVariable {name : String} {dtype : DType} {initial : Option Value} :
    Atomic g (.addVariable name dtype initial) (g.Adds name) := by
  cases initial with
  | none => exact atomic_insert .uninitialized
  | some v =>
    exact Atomic.look rfl fun _ hcast => atomic_insert (.initialized (ok_of_ofFault hcast))

theorem atomic_addOperation {name : String} :
    Atomic g (.addOperation name o) (g.Adds name) := by
  unfold Building.addOperation
  dsimp only
  split
  · exact .throw
  · rename_i hcount
    have harity : o.WithinArity := by unfold Operation.WithinArity; omega
    obtain ⟨r, hrun, hr⟩ := on_forM_node o.references g
    exact Atomic.look hrun fun _ hok => Atomic.look rfl fun _ hg => by
      cases hg
      exact atomic_insert (.operation harity (hr hok))

theorem tag_of_opOfTag {tag : String} {op : Op} (h : opOfTag tag = .ok op) : op.tag = tag := by
  unfold opOfTag at h
  split at h
  · rename_i op' hop
    cases h
    simpa using List.find?_some hop
  · cases h

theorem atomic_addTagged {tag : String} {name : Option String} {operands : List NodeId}
    {options : Options} :
    Atomic g (.addTagged tag name operands options) (g.Adds (name.getD tag)) :=
  Atomic.look rfl fun _ hop => tag_of_opOfTag hop ▸ atomic_addOperation

theorem atomic_update {change : Node → Node} :
    Atomic g (.update id change) fun _ g' => g.update id change = .ok g' :=
  Atomic.look (on_node ..) fun node hnode => Atomic.modify.mono fun _ _ hg =>
    update_eq_ok.mpr ⟨node, node_eq_ok.mp hnode, hg⟩

/-- What a building step can do to a graph, and how it ends: it fails and changes nothing, or it
adds one node, or annotates a node that is there. -/
inductive Takes (g : Graph) (step : BuildStep) : Except Failure Unit × Graph → Prop
  | refused (e : Failure) : Takes g step (.error e, g)
  | added {name : String} {dtype : DType} {shape : Option Shape} {isConst : Bool} {kind : NodeKind}
      (hname : step.requested? = some name) (hdeclares : g.Declares dtype shape kind) :
      Takes g step (.ok (), (g.insert name dtype shape isConst kind).1)
  | annotated {id : NodeId} {change : Node → Node} {g' : Graph} (hname : step.requested? = none)
      (hupdate : g.update id change = .ok g') (hannotates : ∀ n, (change n).Annotates n) :
      Takes g step (.ok (), g')

theorem takes_of_adds {step : BuildStep} {x : Building NodeId} {name : String}
    (hname : step.requested? = some name) (hx : Atomic g x (g.Adds name)) :
    g.Takes step ((discard x).on g) := by
  have hdiscard := hx.discard (S := fun g' => ∃ id, g.Adds name id g') fun id _ h => ⟨id, h⟩
  obtain ⟨e, hrun⟩ | ⟨_, g', hrun, _, _, _, _, _, hdeclares, hinsert⟩ := hdiscard.cases
  · exact hrun ▸ .refused e
  · rw [hrun, show g' = _ from congrArg Prod.fst hinsert]
    exact .added hname hdeclares

theorem takes_of_update {step : BuildStep} {change : Node → Node} (hname : step.requested? = none)
    (hannotates : ∀ n, (change n).Annotates n) :
    g.Takes step ((Building.update id change).on g) := by
  obtain ⟨e, hrun⟩ | ⟨_, g', hrun, hupdate⟩ := (atomic_update (g := g)).cases
  · exact hrun ▸ .refused e
  · exact hrun ▸ .annotated hname hupdate hannotates

theorem takes (g : Graph) (step : BuildStep) : g.Takes step (g.take step) := by
  cases step with
  | constant => exact takes_of_adds rfl atomic_addLiteral
  | literal => exact takes_of_adds rfl atomic_addLiteral
  | reference => exact takes_of_adds rfl atomic_addReference
  | «variable» => exact takes_of_adds rfl atomic_addVariable
  | placeholder => exact takes_of_adds rfl (atomic_insert .placeholder)
  | operation => exact takes_of_adds rfl atomic_addOperation
  | tagged => exact takes_of_adds rfl atomic_addTagged
  | watch => exact takes_of_update rfl fun _ => ⟨rfl, rfl, rfl, rfl, rfl⟩
  | source => exact takes_of_update rfl fun _ => ⟨rfl, rfl, rfl, rfl, rfl⟩

theorem Takes.wellFormed {step : BuildStep} {r : Except Failure Unit × Graph}
    (h : g.Takes step r) (hg : g.WellFormed) : r.2.WellFormed := by
  cases h with
  | refused => exact hg
  | added _ hdeclares => exact hg.insert hdeclares.lt_size ..
  | annotated _ hupdate hannotates => exact hg.update hupdate fun n _ => (hannotates n).outline

/-- Every graph that building steps lead to is well formed. -/
theorem Built.wellFormed (hg : g.Built) : g.WellFormed := by
  induction hg with
  | empty => exact .empty
  | step _ step ih => exact (takes _ step).wellFormed ih

/-- The graph after building steps one after another, of which some may fail. -/
def ofSteps (steps : List BuildStep) : Graph :=
  steps.foldl (fun g step => (g.take step).2) .empty

theorem built_ofSteps (steps : List BuildStep) : (ofSteps steps).Built := by
  -- The steps may begin with any graph that was built, so that the induction goes through.
  have hfold : ∀ g : Graph, g.Built →
      (steps.foldl (fun g step => (g.take step).2) g).Built := by
    induction steps with
    | nil => exact fun _ hg => hg
    | cons step steps ih => exact fun g hg => ih _ (.step hg step)
  exact hfold .empty .empty

/-! ## Copies and stored values -/

theorem addDeferred_eq_ok {origin : NodeId} {r : Graph × NodeId} :
    g.addDeferred origin o = .ok r ↔ ∃ node, g.node? origin = some node ∧
      r = g.insert s!"{o.op.tag}_deferred" node.dtype node.shape false (.operation o) := by
  obtain ⟨g', copy⟩ := r
  rw [addDeferred, outcome_eq_ok, Building.addDeferred, on_bind, on_node]
  cases h : g.node? origin with
  | none => simp [node_of_node?_none h]
  | some node => simp [node_of_node? h, on_insert, Prod.ext_iff, and_comm, eq_comm]

/-- A copy refers to the same nodes as the operation, which lie before the operation. -/
theorem WellFormed.addDeferred (hg : g.WellFormed) {origin copy : NodeId}
    (hnode : g.node? origin = some node) (hkind : node.kind = .operation o)
    (hadd : g.addDeferred origin o = .ok (g', copy)) : g'.WellFormed := by
  obtain ⟨_, -, hinsert⟩ := addDeferred_eq_ok.mp hadd
  cases hinsert
  refine hg.insert (fun r hr => ?_) ..
  have := hg.references origin node hnode r (hkind ▸ hr)
  have := lt_size_of_node? hnode
  omega

theorem exists_addDeferred {origin : NodeId} (hnode : g.node? origin = some node) (o : Operation) :
    ∃ g' copy, g.addDeferred origin o = .ok (g', copy) :=
  ⟨_, _, addDeferred_eq_ok.mpr ⟨node, hnode, rfl⟩⟩

theorem atomic_store {v : Value} : Atomic g (.store id v) fun w g' =>
    ∃ node stored, g.node? id = some node ∧ node.kind = .variable stored ∧
      v.cast node.dtype = .ok w ∧
      g.update id (fun n => { n with kind := .variable (some w) }) = .ok g' := by
  refine .look (on_node ..) fun node hnode => ?_
  split
  · rename_i stored hkind
    refine .look rfl fun w hcast => atomic_update.map (fun _ => w) fun _ _ hupdate => ?_
    exact ⟨node, stored, node_eq_ok.mp hnode, hkind, ok_of_ofFault hcast, hupdate⟩
  · exact .throw

/-- A value is stored in a variable, and in nothing else. -/
theorem store_eq_ok {v : Value} {r : Graph × Value} (h : g.store id v = .ok r) :
    ∃ node stored, g.node? id = some node ∧ node.kind = .variable stored ∧
      v.cast node.dtype = .ok r.2 ∧
      g.update id (fun n => { n with kind := .variable (some r.2) }) = .ok r.1 :=
  atomic_store.ok (outcome_eq_ok.mp h)

/-- A value that is refused leaves the graph as it was. -/
theorem on_store_of_error {v : Value} {e : Failure} (h : g.store id v = .error e) :
    (Building.store id v).on g = (.error e, g) := by
  have hfails := outcome_eq_error.mp h
  exact Prod.ext hfails (atomic_store.error (Prod.ext hfails rfl))

/-- How storing a value ends, and what it leaves of the graph. -/
theorem on_store (g : Graph) (id : NodeId) (v : Value) : (Building.store id v).on g =
    match g.node? id with
    | none => (.error (.noSuchNode id.index), g)
    | some node =>
      match node.kind, v.cast node.dtype with
      | .variable _, .ok w => (.ok w, { g with
          nodes := g.nodes.setIfInBounds id.index { node with kind := .variable (some w) } })
      | .variable _, .error f => (.error (.fault f), g)
      | _, _ => (.error (.notAVariable node.name), g) := by
  rw [Building.store, on_bind, on_node]
  cases hnode : g.node? id with
  | none => rw [node_of_node?_none hnode]
  | some node =>
    rw [node_of_node? hnode]
    dsimp only
    cases node.kind with
    | «variable» stored =>
      cases v.cast node.dtype with
      | error f => rfl
      | ok w =>
        change (Building.update id _ >>= fun _ => pure w).on g = _
        rw [on_bind, on_update hnode]
        rfl
    | _ => rfl

theorem store_of_variable {stored : Option Value} {v w : Value} (hnode : g.node? id = some node)
    (hkind : node.kind = .variable stored) (hcast : v.cast node.dtype = .ok w) :
    ∃ h, g.store id v = .ok (h, w) := by
  simp [store, outcome, on_store, hnode, hkind, hcast]

/-- A value is refused for want of a node, of a variable or of a fitting element type. -/
theorem store_eq_error {v : Value} {e : Failure} (h : g.store id v = .error e) :
    (g.node? id = none ∧ e = .noSuchNode id.index) ∨
      ∃ node, g.node? id = some node ∧
        (e = .notAVariable node.name ∨ ∃ f, v.cast node.dtype = .error f ∧ e = .fault f) := by
  have hrun := on_store_of_error h
  rw [on_store] at hrun
  split at hrun
  · cases hrun
    exact .inl ⟨‹_›, rfl⟩
  · rename_i node hnode
    refine .inr ⟨node, hnode, ?_⟩
    split at hrun
    · cases hrun
    · cases hrun
      exact .inr ⟨_, ‹_›, rfl⟩
    · cases hrun
      exact .inl rfl

end Graph

end Dataflow
