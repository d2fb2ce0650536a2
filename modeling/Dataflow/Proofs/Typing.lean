import Dataflow.Proofs.Stability
import Dataflow.Proofs.Single

/-!
# Element types of stored values

What a literal or a variable holds has been cast to the element type of its node, and casting it
again changes nothing. This stays so while nodes are added and values are assigned.
-/

namespace Dataflow

/-! ## Casting -/

/-- What a cast gives is already in the representation of its type. -/
theorem Scalar.cast_cast {d : DType} {s t : Scalar} (h : s.cast d = .ok t) :
    t.cast d = .ok t := by
  cases d with
  | float32 =>
    obtain ⟨x, -, ht⟩ := Except.bind_eq_ok.mp h
    cases ht
    simp [cast, castFloat, asFloat, bind, Except.bind, pure, Except.pure, Single.round_round]
  | float64 =>
    obtain ⟨x, -, ht⟩ := Except.bind_eq_ok.mp h
    cases ht
    rfl
  | int32 =>
    obtain ⟨i, -, ht⟩ := Except.bind_eq_ok.mp h
    cases ht
    simp [cast, castInt, bind, Except.bind, pure, Except.pure]
  | int16 =>
    obtain ⟨i, -, ht⟩ := Except.bind_eq_ok.mp h
    cases ht
    simp [cast, castInt, bind, Except.bind, pure, Except.pure]
  | boolean =>
    obtain ⟨b, -, ht⟩ := Except.bind_eq_ok.mp h
    cases ht
    rfl
  | string =>
    cases h
    rfl
  | unknown => rfl

namespace Value

section Traverse

variable {f : Scalar → Except Fault Value}

mutual

/-- If what is put in the place of a scalar stays as it is, so does the whole value. -/
theorem traverse_traverse (hf : ∀ s w, f s = .ok w → w.traverse f = .ok w) :
    (v : Value) → ∀ {w}, v.traverse f = .ok w → w.traverse f = .ok w
  | .scalar s, w, h => hf s w h
  | .array items, w, h => by
    obtain ⟨ws, hws, hw⟩ := Except.bind_eq_ok.mp h
    cases hw
    simp [traverse, traverseItems_traverseItems hf items hws, bind, Except.bind, pure,
      Except.pure]

theorem traverseItems_traverseItems (hf : ∀ s w, f s = .ok w → w.traverse f = .ok w) :
    (vs : List Value) → ∀ {ws}, traverseItems f vs = .ok ws → traverseItems f ws = .ok ws
  | [], ws, h => by cases h; rfl
  | v :: vs, ws, h => by
    obtain ⟨w, hw, h⟩ := Except.bind_eq_ok.mp h
    obtain ⟨rest, hrest, h⟩ := Except.bind_eq_ok.mp h
    cases h
    simp [traverseItems, traverse_traverse hf v hw, traverseItems_traverseItems hf vs hrest,
      bind, Except.bind, pure, Except.pure]

end

end Traverse

/-- Casting is idempotent for each element type. -/
theorem cast_cast {d : DType} {v w : Value} (h : v.cast d = .ok w) : w.cast d = .ok w := by
  refine traverse_traverse (fun s t hs => ?_) v h
  obtain ⟨t, ht, hw⟩ := Except.bind_eq_ok.mp hs
  cases hw
  simp [traverse, Scalar.cast_cast ht, bind, Except.bind, pure, Except.pure]

end Value

/-! ## Typed graphs -/

/-- What the node holds is in the representation of its element type, and a literal has the shape
that the node declares. -/
structure Node.Typed (n : Node) : Prop where
  stored : ∀ v, n.kind.stored? = some v → v.cast n.dtype = .ok v
  shape : ∀ v, n.kind = .literal v → n.shape = some (.known v.dims)

theorem Node.Typed.of_stored_none {n : Node} (h : n.kind.stored? = none) : n.Typed where
  stored v hv := by cases h.symm.trans hv
  shape v hv := by
    rw [hv] at h
    cases h

namespace Graph

def Typed (g : Graph) : Prop := ∀ id node, g.node? id = some node → node.Typed

variable {g g' : Graph} {id : NodeId}

theorem Declares.typed {dtype : DType} {shape : Option Shape} {kind : NodeKind}
    (h : g.Declares dtype shape kind) (name : String) (isConst : Bool) :
    (g.inserted name dtype shape isConst kind).Typed := by
  cases h with
  | literal hcast =>
    refine ⟨fun v hv => ?_, fun v hv => ?_⟩
    · cases hv
      exact Value.cast_cast hcast
    · cases hv
      rfl
  | initialized hcast =>
    refine ⟨fun v hv => ?_, fun v hv => ?_⟩
    · cases hv
      exact Value.cast_cast hcast
    · cases hv
  | reference | uninitialized | placeholder | operation =>
    exact .of_stored_none rfl

theorem Typed.insert (hg : g.Typed) {name : String} {dtype : DType} {shape : Option Shape}
    {isConst : Bool} {kind : NodeKind} (h : (g.inserted name dtype shape isConst kind).Typed) :
    (g.insert name dtype shape isConst kind).1.Typed := by
  intro id node hnode
  rw [node?_insert] at hnode
  split at hnode
  · cases hnode
    exact h
  · exact hg id node hnode

theorem Typed.update (hg : g.Typed) {change : Node → Node} (h : g.update id change = .ok g')
    (hchange : ∀ n, g.node? id = some n → n.Typed → (change n).Typed) : g'.Typed := by
  intro i node hnode
  rw [node?_update h] at hnode
  split at hnode
  · rename_i hi
    subst hi
    obtain ⟨n, hn, rfl⟩ := Option.map_eq_some_iff.mp hnode
    exact hchange n hn (hg i n hn)
  · exact hg i node hnode

theorem Takes.typed {step : BuildStep} {r : Except Failure Unit × Graph} (h : g.Takes step r)
    (hg : g.Typed) : r.2.Typed := by
  cases h with
  | refused => exact hg
  | @added name dtype shape isConst kind _ hdeclares =>
    exact hg.insert (hdeclares.typed name isConst)
  | annotated _ hupdate hannotates =>
    refine hg.update hupdate fun n _ hn => ?_
    obtain ⟨-, -, hdtype, hshape, hkind⟩ := hannotates n
    exact ⟨by rw [hkind, hdtype]; exact hn.stored, by rw [hkind, hshape]; exact hn.shape⟩

/-- A value is cast before it is stored. -/
theorem Typed.store (hg : g.Typed) {v w : Value} (h : g.store id v = .ok (g', w)) : g'.Typed := by
  obtain ⟨node, stored, hnode, hkind, hcast, hupdate⟩ := store_eq_ok h
  refine hg.update hupdate fun n hn _ => ?_
  cases hnode.symm.trans hn
  refine ⟨fun v hv => ?_, fun v hv => by cases hv⟩
  cases hv
  exact Value.cast_cast hcast

theorem Typed.stable : Stable Typed where
  store hg hstore := hg.store hstore
  copy _ hg _ hkind := hg.insert (.of_stored_none (by rw [inserted, hkind]; rfl))

theorem Reached.typed (hg : g.Reached) : g.Typed :=
  hg.stable Typed.stable (by simp [Typed, Graph.empty, node?]) Takes.typed

/-- However building steps and evaluations were mixed, casting what a literal or a variable holds to
the element type of its node changes nothing, and the shape of a literal node is that of its
value. -/
theorem Reached.stored_values_typed (hg : g.Reached) (id : NodeId) (node : Node) (v : Value)
    (hnode : g.node? id = some node) (hv : node.kind.stored? = some v) :
    v.cast node.dtype = .ok v ∧
      (node.kind = .literal v → node.shape = some (.known v.dims)) :=
  ⟨(hg.typed id node hnode).stored v hv, (hg.typed id node hnode).shape v⟩

/-- A variable of a small type that was assigned a number beyond it. -/
theorem Reached.stored_values_typed_wraps :
    let base := ofSteps [.variable "v" .int16 (some (.scalar (.int 0))),
      .constant "large" (.scalar (.int 70000)),
      .operation "set" ⟨.control (.assign .set), [⟨0⟩, ⟨1⟩], .empty⟩]
    let g := ((State.start .standard base .empty .standard 0).after ⟨32, .cpu⟩
      [(.empty, .complete ⟨2⟩)]).graph
    ∃ node, g.node? ⟨0⟩ = some node ∧ node.kind = .variable (some (.scalar (.int 4464))) ∧
      (Value.scalar (.int 4464)).cast node.dtype = .ok (.scalar (.int 4464)) := by
  intro base g
  have hg : g.Reached := .evaluated (built_ofSteps _).reached .standard .empty .standard 0
    ⟨32, .cpu⟩ [(.empty, .complete ⟨2⟩)]
  exact ⟨_, rfl, rfl, (hg.stored_values_typed ⟨0⟩ _ _ rfl rfl).1⟩

end Graph

end Dataflow
