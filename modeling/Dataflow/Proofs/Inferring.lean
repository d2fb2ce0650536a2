import Dataflow.Proofs.Stability
import Dataflow.Proofs.Extents

/-!
# Inferred shapes

The shape that a node declares is read off the node itself or off what the nodes that it refers to
declare, when it is added. As no node changes what it declares, it can be read off at any later
time.
-/

namespace Dataflow

/-- The second graph has the nodes of the first, and they declare the same of their shapes. -/
structure Graph.SameShapes (g g' : Graph) : Prop where
  size_le : g.size ≤ g'.size
  shapeOf : ∀ id : NodeId, id.index < g.size → g'.shapeOf (some id) = g.shapeOf (some id)

namespace Graph

variable {g g' g'' : Graph} {id : NodeId} {node : Node} {o : Operation}

theorem shapeOf_of_node? (h : g.node? id = some node) : g.shapeOf (some id) = node.shape := by
  simp [Graph.shapeOf, h]

theorem exists_of_shapeOf {σ : Shape} (h : g.shapeOf (some id) = some σ) :
    ∃ node, g.node? id = some node ∧ node.shape = some σ :=
  Option.bind_eq_some_iff.mp h

/-- A copy declares what its origin does. -/
theorem shapeOf_addDeferred {copy : NodeId} (h : g.node? id = some node)
    (hadd : g.addDeferred id o = .ok (g', copy)) : g'.shapeOf (some copy) = node.shape := by
  obtain ⟨origin, horigin, hinsert⟩ := addDeferred_eq_ok.mp hadd
  cases h.symm.trans horigin
  have hcopy := node?_insert g s!"{o.op.tag}_deferred" node.dtype node.shape false (.operation o)
    ⟨g.size⟩
  rw [if_pos rfl] at hcopy
  obtain ⟨rfl, rfl⟩ := Prod.mk.inj hinsert
  exact (shapeOf_of_node? hcopy).trans rfl

namespace SameShapes

theorem insert (g : Graph) (name : String) (dtype : DType) (shape : Option Shape) (isConst : Bool)
    (kind : NodeKind) : g.SameShapes (g.insert name dtype shape isConst kind).1 where
  size_le := by simp
  shapeOf id hid := by
    simp only [Graph.shapeOf, Option.bind_some]
    rw [node?_insert, if_neg (Nat.ne_of_lt hid)]

theorem update {change : Node → Node} (h : g.update id change = .ok g')
    (hshape : ∀ n, (change n).shape = n.shape) : g.SameShapes g' where
  size_le := by
    obtain ⟨node, -, rfl⟩ := update_eq_ok.mp h
    simp [size]
  shapeOf i _ := by
    simp only [Graph.shapeOf, Option.bind_some, node?_update h]
    split
    · cases g.node? i <;> simp [hshape]
    · rfl

theorem refl (g : Graph) : g.SameShapes g := ⟨Nat.le_refl _, fun _ _ => rfl⟩

theorem trans (h : g.SameShapes g') (h' : g'.SameShapes g'') : g.SameShapes g'' where
  size_le := Nat.le_trans h.size_le h'.size_le
  shapeOf id hid := (h'.shapeOf id (Nat.lt_of_lt_of_le hid h.size_le)).trans (h.shapeOf id hid)

theorem evolves (h : g.Evolves g') : g.SameShapes g' where
  size_le := h.size_le
  shapeOf id hid := by
    obtain ⟨node, hnode⟩ := exists_node?_of_lt hid
    obtain ⟨node', hnode', hbare⟩ := h.node? hnode
    rw [shapeOf_of_node? hnode, shapeOf_of_node? hnode', ← Node.bare_shape, hbare, Node.bare_shape]

variable (h : g.SameShapes g') (hreferences : ∀ r ∈ o.references, r.index < g.size)

include h

theorem references {ids : List NodeId} (hids : ∀ r ∈ ids, r.index < g.size) :
    ∀ r ∈ ids, r.index < g'.size :=
  fun r hr => Nat.lt_of_lt_of_le (hids r hr) h.size_le

theorem shapeOf_eq_some {id : Option NodeId} {σ : Shape} (hσ : g.shapeOf id = some σ) :
    g'.shapeOf id = some σ := by
  cases id with
  | none => cases hσ
  | some id =>
    obtain ⟨node, hnode, -⟩ := exists_of_shapeOf hσ
    rw [h.shapeOf id (lt_size_of_node? hnode), hσ]

/-- What is regular in a later graph was regular before. -/
theorem regular_of_later (hregular : o.Regular g') : o.Regular g where
  alike hop ha hb hσ := hregular.alike hop (h.shapeOf_eq_some ha) (h.shapeOf_eq_some hb) hσ
  listed := hregular.listed

include hreferences

theorem operand (i : Nat) : g'.shapeOf o.operands[i]? = g.shapeOf o.operands[i]? := by
  cases hr : o.operands[i]? with
  | none => rfl
  | some r => exact h.shapeOf r (hreferences r (Operation.mem_references_of_operand hr))

theorem resultShape : g'.resultShape o = g.resultShape o := by
  simp only [Graph.resultShape, List.head?_eq_getElem?, h.operand hreferences]

theorem regular (hregular : o.Regular g) : o.Regular g' where
  alike hop ha hb hσ := by
    rw [h.operand hreferences] at ha hb
    exact hregular.alike hop ha hb hσ
  listed := hregular.listed

end SameShapes

/-! ## Declared shapes -/

/-- The shape is what a node of the kind declares. Of a variable that is decided when it is added,
of a placeholder by whoever adds it. -/
inductive Tells (g : Graph) : NodeKind → Option Shape → Prop
  | literal {v : Value} : Tells g (.literal v) (some (.known v.dims))
  | reference {target : NodeId} (htarget : target.index < g.size) :
      Tells g (.reference target) (g.shapeOf (some target))
  | operation {o : Operation} (hreferences : ∀ r ∈ o.references, r.index < g.size) :
      Tells g (.operation o) (g.resultShape o)
  | variable {stored : Option Value} {shape : Option Shape} : Tells g (.variable stored) shape
  | placeholder {shape : Option Shape} : Tells g .placeholder shape

theorem Tells.mono {kind : NodeKind} {shape : Option Shape} (h : g.Tells kind shape)
    (hshapes : g.SameShapes g') : g'.Tells kind shape := by
  cases h with
  | literal => exact .literal
  | @reference target htarget =>
    rw [← hshapes.shapeOf target htarget]
    exact .reference (Nat.lt_of_lt_of_le htarget hshapes.size_le)
  | operation hreferences =>
    rw [← hshapes.resultShape hreferences]
    exact .operation (hshapes.references hreferences)
  | «variable» => exact .variable
  | placeholder => exact .placeholder

theorem Declares.tells {dtype : DType} {shape : Option Shape} {kind : NodeKind}
    (h : g.Declares dtype shape kind) : g.Tells kind shape := by
  cases h with
  | literal => exact .literal
  | reference hnode =>
    rw [← shapeOf_of_node? hnode]
    exact .reference (lt_size_of_node? hnode)
  | uninitialized => exact .variable
  | initialized => exact .variable
  | placeholder => exact .placeholder
  | operation _ hreferences => exact .operation hreferences

/-- All shapes are as they would be inferred now. -/
def Inferred (g : Graph) : Prop := ∀ id node, g.node? id = some node → g.Tells node.kind node.shape

/-- Values of all shapes exist, and all operations are regular. -/
structure Regular (g : Graph) : Prop where
  possible : ∀ {id node σ}, g.node? id = some node → node.shape = some σ → σ.Possible
  operation : ∀ {id node o}, g.node? id = some node → node.kind = .operation o → o.Regular g

/-- The values of the variables have the shapes that the variables declare. -/
def Fitted (g : Graph) : Prop :=
  ∀ id node v σ, g.node? id = some node → node.kind = .variable (some v) → node.shape = some σ →
    σ = .known v.dims

theorem Inferred.insert (hg : g.Inferred) {name : String} {dtype : DType} {shape : Option Shape}
    {isConst : Bool} {kind : NodeKind} (h : g.Tells kind shape) :
    (g.insert name dtype shape isConst kind).1.Inferred := by
  intro id node hnode
  rw [node?_insert] at hnode
  split at hnode
  · cases hnode
    exact h.mono (.insert ..)
  · exact (hg id node hnode).mono (.insert ..)

/-- A node may change as long as it declares the same shape and does not come to refer to another
node. -/
theorem Inferred.update (hg : g.Inferred) {change : Node → Node} (h : g.update id change = .ok g')
    (hshape : ∀ n, (change n).shape = n.shape)
    (hkind : ∀ n, g.node? id = some n → g.Tells n.kind n.shape → g.Tells (change n).kind n.shape) :
    g'.Inferred := by
  intro i node hnode
  have hshapes := SameShapes.update h hshape
  rw [node?_update h] at hnode
  split at hnode
  · rename_i hi
    subst hi
    obtain ⟨n, hn, rfl⟩ := Option.map_eq_some_iff.mp hnode
    rw [hshape]
    exact (hkind n hn (hg i n hn)).mono hshapes
  · exact (hg i node hnode).mono hshapes

theorem Inferred.store (hg : g.Inferred) {v w : Value} (h : g.store id v = .ok (g', w)) :
    g'.Inferred := by
  obtain ⟨-, -, -, -, -, hupdate⟩ := store_eq_ok h
  exact hg.update hupdate (fun _ => rfl) fun _ _ _ => .variable

theorem Takes.inferred {step : BuildStep} {r : Except Failure Unit × Graph} (h : g.Takes step r)
    (hg : g.Inferred) : r.2.Inferred := by
  cases h with
  | refused => exact hg
  | added _ hdeclares => exact hg.insert hdeclares.tells
  | annotated _ hupdate hannotates =>
    exact hg.update hupdate (fun n => (hannotates n).shape) fun n _ hn => (hannotates n).kind ▸ hn

theorem Built.inferred (hg : g.Built) : g.Inferred := by
  induction hg with
  | empty => simp [Inferred, Graph.empty, node?]
  | step _ step ih => exact (takes _ step).inferred ih

theorem Fitted.insert (hg : g.Fitted) {name : String} {dtype : DType} {shape : Option Shape}
    {isConst : Bool} {kind : NodeKind}
    (h : ∀ v σ, kind = .variable (some v) → shape = some σ → σ = .known v.dims) :
    (g.insert name dtype shape isConst kind).1.Fitted := by
  intro i node v σ hnode hkind hσ
  rw [node?_insert] at hnode
  split at hnode
  · cases hnode
    exact h v σ hkind hσ
  · exact hg i node v σ hnode hkind hσ

theorem Fitted.update (hg : g.Fitted) {change : Node → Node} (h : g.update id change = .ok g')
    (hchange : ∀ n, g.node? id = some n → ∀ v σ, (change n).kind = .variable (some v) →
      (change n).shape = some σ → σ = .known v.dims) : g'.Fitted := by
  intro i node v σ hnode hkind hσ
  rw [node?_update h] at hnode
  split at hnode
  · rename_i hi
    subst hi
    obtain ⟨n, hn, rfl⟩ := Option.map_eq_some_iff.mp hnode
    exact hchange n hn v σ hkind hσ
  · exact hg i node v σ hnode hkind hσ

theorem Fitted.store (hg : g.Fitted) {v w : Value} (h : g.store id v = .ok (g', w))
    (hw : ∀ σ, g.shapeOf (some id) = some σ → σ = .known w.dims) : g'.Fitted := by
  obtain ⟨-, -, -, -, -, hupdate⟩ := store_eq_ok h
  refine hg.update hupdate fun n hn u σ hu hσ => ?_
  cases hu
  exact hw σ ((shapeOf_of_node? hn).trans hσ)

theorem Fitted.addDeferred (hg : g.Fitted) {copy : NodeId}
    (h : g.addDeferred id o = .ok (g', copy)) : g'.Fitted := by
  obtain ⟨node, -, hinsert⟩ := addDeferred_eq_ok.mp h
  rw [show g' = _ from congrArg Prod.fst hinsert]
  exact hg.insert fun _ _ hkind => by cases hkind

theorem Takes.fitted {step : BuildStep} {r : Except Failure Unit × Graph} (h : g.Takes step r)
    (hg : g.Fitted) : r.2.Fitted := by
  cases h with
  | refused => exact hg
  | added _ hdeclares =>
    refine hg.insert fun v σ hkind hσ => ?_
    cases hdeclares <;> cases hkind
    exact (Option.some.inj hσ).symm
  | annotated _ hupdate hannotates =>
    refine hg.update hupdate fun n hn v σ hkind hσ => ?_
    exact hg _ n v σ hn ((hannotates n).kind ▸ hkind) ((hannotates n).shape ▸ hσ)

theorem Built.fitted (hg : g.Built) : g.Fitted := by
  induction hg with
  | empty => simp [Fitted, Graph.empty, node?]
  | step _ step ih => exact (takes _ step).fitted ih

theorem Inferred.literal (hg : g.Inferred) {v : Value} (hnode : g.node? id = some node)
    (hkind : node.kind = .literal v) : node.shape = some (.known v.dims) := by
  have htells := hg id node hnode
  rw [hkind] at htells
  generalize node.shape = shape at htells
  cases htells
  rfl

theorem Inferred.reference (hg : g.Inferred) {target : NodeId} (hnode : g.node? id = some node)
    (hkind : node.kind = .reference target) : node.shape = g.shapeOf (some target) := by
  have htells := hg id node hnode
  rw [hkind] at htells
  generalize node.shape = shape at htells
  cases htells
  rfl

theorem Inferred.operation (hg : g.Inferred) (hnode : g.node? id = some node)
    (hkind : node.kind = .operation o) :
    node.shape = g.resultShape o ∧ ∀ r ∈ o.references, r.index < g.size := by
  have htells := hg id node hnode
  rw [hkind] at htells
  generalize node.shape = shape at htells
  cases htells with
  | operation hreferences => exact ⟨rfl, hreferences⟩

/-- An evaluation keeps the shapes inferred. -/
theorem stable_inferred : Stable Inferred where
  store hg hstore := hg.store hstore
  copy _ hg hnode _ := hg.insert (hg _ _ hnode)

end Graph

end Dataflow
