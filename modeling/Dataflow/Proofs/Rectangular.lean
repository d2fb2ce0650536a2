import Dataflow.Fault
import Dataflow.Proofs.Outcome

/-!
# Rectangular values

A value is rectangular if all items of a level have equal extents. Its scalars are then addressed by
multi-indices, and a computation on them that keeps their places is a table: its extents, and what
it puts at each multi-index.
-/

namespace Dataflow.Value

/-- At every level all items have equal extents. -/
inductive Rect : Value → Prop where
  | scalar (s : Scalar) : Rect (.scalar s)
  | array {vs : List Value} (items : ∀ v ∈ vs, Rect v)
    (even : ∀ v ∈ vs, ∀ w ∈ vs, v.dims = w.dims) : Rect (.array vs)

theorem Rect.of_mem {vs : List Value} {v : Value} (h : Rect (.array vs)) (hv : v ∈ vs) :
    v.Rect := by
  cases h with
  | array items _ => exact items v hv

theorem Rect.dims_eq {vs : List Value} {v : Value} (h : Rect (.array vs)) (hv : v ∈ vs) :
    (Value.array vs).dims = vs.length :: v.dims := by
  cases h with
  | array _ even =>
    cases vs with
    | nil => cases hv
    | cons w ws => rw [dims_array_cons, even w List.mem_cons_self v hv, List.length_cons]

theorem rect_filled {v : Value} (h : v.Rect) (ns : List Nat) : (filled ns v).Rect := by
  induction ns with
  | nil => exact h
  | cons n ns ih =>
    refine .array (fun w hw => ?_) fun w hw w' hw' => ?_
    · exact List.eq_of_mem_replicate hw ▸ ih
    · rw [List.eq_of_mem_replicate hw, List.eq_of_mem_replicate hw']

/-! ## Multi-indices -/

/-- The multi-indices into the given extents, in row-major order. -/
def indices : List Nat → List (List Nat)
  | [] => [[]]
  | n :: ns => (List.range n).flatMap fun j => (indices ns).map (j :: ·)

/-- The scalar at a multi-index. -/
def at? : List Nat → Value → Option Scalar
  | [], .scalar s => some s
  | j :: js, .array vs => vs[j]?.bind (at? js)
  | _, _ => none

theorem at?_cons {vs : List Value} {j : Nat} (hj : j < vs.length) (js : List Nat) :
    (Value.array vs).at? (j :: js) = vs[j].at? js := by
  rw [at?, List.getElem?_eq_getElem hj, Option.bind_some]

theorem mem_indices_nil {i : List Nat} : i ∈ indices [] ↔ i = [] := by simp [indices]

theorem mem_indices_cons {n : Nat} {ns i : List Nat} :
    i ∈ indices (n :: ns) ↔ ∃ j js, j < n ∧ js ∈ indices ns ∧ j :: js = i := by
  simp [indices]

theorem length_of_mem_indices {ns i : List Nat} (h : i ∈ indices ns) : i.length = ns.length := by
  induction ns generalizing i with
  | nil => rw [mem_indices_nil.mp h]
  | cons n ns ih =>
    obtain ⟨j, js, _, hjs, rfl⟩ := mem_indices_cons.mp h
    rw [List.length_cons, List.length_cons, ih hjs]

theorem mem_indices_append {ms ns i : List Nat} :
    i ∈ indices (ms ++ ns) ↔ ∃ p ∈ indices ms, ∃ q ∈ indices ns, p ++ q = i := by
  induction ms generalizing i with
  | nil => simp [mem_indices_nil]
  | cons m ms ih =>
    simp only [List.cons_append, mem_indices_cons, ih]
    grind

theorem at?_cons_eq_some {vs : List Value} {j : Nat} {js : List Nat} {s : Scalar} :
    (Value.array vs).at? (j :: js) = some s ↔ ∃ v, vs[j]? = some v ∧ v.at? js = some s := by
  rw [at?, Option.bind_eq_some_iff]

theorem mem_scalars_of_at? {v : Value} {i : List Nat} {s : Scalar} (h : v.at? i = some s) :
    s ∈ v.scalars := by
  induction i generalizing v with
  | nil =>
    cases v with
    | scalar t =>
      cases h
      exact List.mem_singleton_self _
    | array vs => cases h
  | cons j js ih =>
    cases v with
    | scalar t => cases h
    | array vs =>
      obtain ⟨w, hw, hs⟩ := at?_cons_eq_some.mp h
      rw [scalars_array]
      exact List.mem_flatMap.mpr ⟨w, List.mem_of_getElem? hw, ih hs⟩

/-- Every multi-index into the extents of a rectangular value finds a scalar. -/
theorem Rect.exists_at? {v : Value} (h : v.Rect) {i : List Nat} (hi : i ∈ indices v.dims) :
    ∃ s, v.at? i = some s := by
  induction h generalizing i with
  | scalar s => exact ⟨s, by rw [mem_indices_nil.mp hi]; rfl⟩
  | @array vs items even ih =>
    cases vs with
    | nil => simp [indices] at hi
    | cons w ws =>
      rw [dims_array_cons] at hi
      obtain ⟨j, js, hj, hjs, rfl⟩ := mem_indices_cons.mp hi
      have hmem : (w :: ws)[j] ∈ w :: ws := List.getElem_mem hj
      rw [even w List.mem_cons_self _ hmem] at hjs
      obtain ⟨s, hs⟩ := ih _ hmem hjs
      exact ⟨s, (at?_cons hj js).trans hs⟩

/-- The scalar at a multi-index that finds one. -/
def item (i : List Nat) (v : Value) : Scalar := (v.at? i).getD default

theorem Rect.at?_eq_item {v : Value} (h : v.Rect) {i : List Nat} (hi : i ∈ indices v.dims) :
    v.at? i = some (v.item i) := by
  obtain ⟨s, hs⟩ := h.exists_at? hi
  simp [item, hs]

theorem item_cons {vs : List Value} {j : Nat} (hj : j < vs.length) (js : List Nat) :
    (Value.array vs).item (j :: js) = (vs.getD j default).item js := by
  simp [item, at?_cons hj, List.getElem?_eq_getElem hj]

/-- The layers of copies do not matter. -/
theorem item_filled {ns p : List Nat} (hp : p ∈ indices ns) (q : List Nat) (v : Value) :
    (filled ns v).item (p ++ q) = v.item q := by
  induction ns generalizing p with
  | nil => rw [mem_indices_nil.mp hp]; rfl
  | cons n ns ih =>
    obtain ⟨j, js, hj, hjs, rfl⟩ := mem_indices_cons.mp hp
    rw [filled, List.cons_append, item_cons (by simpa using hj)]
    simpa [hj] using ih hjs

/-! ## Tables -/

/-- The value of the given extents that has the outcome of `g` at each multi-index, computed in
row-major order up to the first fault. -/
def tabulate : List Nat → (List Nat → Except Fault Scalar) → Except Fault Value
  | [], g => do return .scalar (← g [])
  | n :: ns, g => do
    return .array (← (List.range n).mapM fun j => tabulate ns fun js => g (j :: js))

theorem tabulate_congr {ns : List Nat} {g g' : List Nat → Except Fault Scalar}
    (h : ∀ i ∈ indices ns, g i = g' i) : tabulate ns g = tabulate ns g' := by
  induction ns generalizing g g' with
  | nil => simp [tabulate, h [] (mem_indices_nil.mpr rfl)]
  | cons n ns ih =>
    rw [tabulate, tabulate, Except.mapM_congr fun j hj => ih fun js hjs => h (j :: js)
      (mem_indices_cons.mpr ⟨j, js, List.mem_range.mp hj, hjs, rfl⟩)]

/-- The scalars of a table are those at the multi-indices, one after the other. -/
theorem scalars_tabulate (ns : List Nat) (g : List Nat → Except Fault Scalar) :
    scalars <$> tabulate ns g = (indices ns).mapM g := by
  induction ns generalizing g with
  | nil =>
    simp only [tabulate, indices, List.mapM_cons, List.mapM_nil]
    cases g [] <;> rfl
  | cons n ns ih =>
    have hrows (js : List Nat) :
        List.flatMap scalars <$> (js.mapM fun j => tabulate ns fun i => g (j :: i)) =
          (js.flatMap fun j => (indices ns).map (j :: ·)).mapM g := by
      induction js with
      | nil => rfl
      | cons j js ihjs =>
        rw [List.mapM_cons, List.flatMap_cons, List.mapM_append, ← ihjs, List.mapM_map,
          Function.comp_def, ← ih]
        cases tabulate ns fun i => g (j :: i) with
        | error e => rfl
        | ok v => cases js.mapM fun j => tabulate ns fun i => g (j :: i) <;> rfl
    rw [indices, ← hrows, tabulate]
    cases (List.range n).mapM fun j => tabulate ns fun i => g (j :: i) with
    | error e => rfl
    | ok vs => simp [Functor.map, Except.map, bind, Except.bind, pure, Except.pure]

/-- A table has one entry for each multi-index. -/
theorem at?_of_tabulate {ns : List Nat} {g : List Nat → Except Fault Scalar} {v : Value}
    (h : tabulate ns g = .ok v) {i : List Nat} (hi : i ∈ indices ns) :
    ∃ s, g i = .ok s ∧ v.at? i = some s := by
  induction ns generalizing g v i with
  | nil =>
    obtain ⟨s, hs, hv⟩ := Except.bind_eq_ok.mp h
    cases hv
    rw [mem_indices_nil.mp hi]
    exact ⟨s, hs, rfl⟩
  | cons n ns ih =>
    obtain ⟨vs, hvs, hv⟩ := Except.bind_eq_ok.mp h
    cases hv
    obtain ⟨j, js, hj, hjs, rfl⟩ := mem_indices_cons.mp hi
    obtain ⟨hj', hrow⟩ := Except.getElem_of_mapM hvs (by rwa [List.length_range])
    rw [List.getElem_range] at hrow
    rw [at?_cons hj']
    exact ih hrow hjs

theorem dims_tabulate_congr {ns : List Nat} {g g' : List Nat → Except Fault Scalar} {v w : Value}
    (hv : tabulate ns g = .ok v) (hw : tabulate ns g' = .ok w) : v.dims = w.dims := by
  induction ns generalizing g g' v w with
  | nil =>
    obtain ⟨s, _, hs⟩ := Except.bind_eq_ok.mp hv
    obtain ⟨t, _, ht⟩ := Except.bind_eq_ok.mp hw
    cases hs
    cases ht
    rfl
  | cons n ns ih =>
    obtain ⟨vs, hvs, hv⟩ := Except.bind_eq_ok.mp hv
    obtain ⟨ws, hws, hw⟩ := Except.bind_eq_ok.mp hw
    cases hv
    cases hw
    have hlength := (Except.length_of_mapM hvs).trans (Except.length_of_mapM hws).symm
    cases vs with
    | nil => rw [List.length_eq_zero_iff.mp hlength.symm]
    | cons x vs =>
      cases ws with
      | nil => cases hlength
      | cons y ws =>
        obtain ⟨j, _, hj⟩ := Except.exists_of_mem_mapM hvs List.mem_cons_self
        obtain ⟨k, _, hk⟩ := Except.exists_of_mem_mapM hws List.mem_cons_self
        rw [dims_array_cons, dims_array_cons, ih hj hk, Nat.succ.inj hlength]

theorem rect_of_tabulate {ns : List Nat} {g : List Nat → Except Fault Scalar} {v : Value}
    (h : tabulate ns g = .ok v) : v.Rect := by
  induction ns generalizing g v with
  | nil =>
    obtain ⟨s, _, hs⟩ := Except.bind_eq_ok.mp h
    cases hs
    exact .scalar s
  | cons n ns ih =>
    obtain ⟨vs, hvs, hv⟩ := Except.bind_eq_ok.mp h
    cases hv
    refine .array (fun v hv => ?_) fun v hv w hw => ?_
    · obtain ⟨j, _, hj⟩ := Except.exists_of_mem_mapM hvs hv
      exact ih hj
    · obtain ⟨j, _, hj⟩ := Except.exists_of_mem_mapM hvs hv
      obtain ⟨k, _, hk⟩ := Except.exists_of_mem_mapM hvs hw
      exact dims_tabulate_congr hj hk

/-- A table that cannot be filled fails at the first multi-index that has no scalar. -/
theorem exists_first_of_tabulate {ns : List Nat} {g : List Nat → Except Fault Scalar} {e : Fault}
    (h : tabulate ns g = .error e) :
    ∃ before i after, indices ns = before ++ i :: after ∧
      (∀ j ∈ before, ∃ s, g j = .ok s) ∧ g i = .error e := by
  refine Except.exists_first_of_mapM ?_
  rw [← scalars_tabulate, h]
  rfl

/-! ## Operations on one value -/

theorem traverseItems_eq_mapM (f : Scalar → Except Fault Value) (vs : List Value) :
    traverseItems f vs = vs.mapM (traverse f) := by
  induction vs with
  | nil => rfl
  | cons v vs ih => rw [traverseItems, List.mapM_cons, ih]

theorem getD_mem {vs : List Value} {j : Nat} (h : j < vs.length) : vs.getD j default ∈ vs := by
  simp [List.getElem?_eq_getElem h]

theorem eq_map_getD (vs : List Value) :
    vs = (List.range vs.length).map fun j => vs.getD j default := by
  refine List.ext_getElem (by simp) fun j hj _ => ?_
  simp [List.getElem?_eq_getElem hj]

/-- An operation on one rectangular value is a table of the same extents. -/
theorem Rect.traverse_eq_tabulate {g : Scalar → Except Fault Scalar} {v : Value} (h : v.Rect) :
    v.traverse (fun s => do return .scalar (← g s)) = tabulate v.dims fun i => g (v.item i) := by
  induction h with
  | scalar s => rfl
  | @array vs items even ih =>
    cases vs with
    | nil => rfl
    | cons w ws =>
      have hrow : ∀ j ∈ List.range (ws.length + 1), traverse (fun s => do return .scalar (← g s))
          ((w :: ws).getD j default) =
            tabulate w.dims fun i => g ((Value.array (w :: ws)).item (j :: i)) := fun j hj => by
        have hlt : j < (w :: ws).length := List.mem_range.mp hj
        have hmem := getD_mem hlt
        rw [ih _ hmem, ← even w List.mem_cons_self _ hmem]
        exact tabulate_congr fun i _ => by rw [item_cons hlt]
      rw [dims_array_cons, tabulate, ← Except.mapM_congr hrow, traverse, traverseItems_eq_mapM]
      conv => lhs; rw [eq_map_getD (w :: ws), List.mapM_map]
      rfl

end Dataflow.Value
