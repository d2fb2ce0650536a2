import Dataflow.Axis.Reduction
import Dataflow.Proofs.Elementwise
import Mathlib.Data.List.Forall2

/-!
# Reducing an axis

The lines of a rectangular value along an axis are its scalars at the multi-indices that differ on
that axis only. Reducing the axis puts into the place of each line what its scalars are folded to,
from the first to the last, and keeps the other axes. At the outermost axis whole items are folded
by the broadcast operator; further in, every item is reduced on its own.
-/

theorem Except.exists_mapM {ε α β : Type} {P : α → β → Prop} {f : α → Except ε β} {xs : List α}
    (h : ∀ x ∈ xs, ∃ y, f x = .ok y ∧ P x y) :
    ∃ ys, xs.mapM f = .ok ys ∧ List.Forall₂ P xs ys := by
  induction xs with
  | nil => exact ⟨[], rfl, .nil⟩
  | cons x xs ih =>
    obtain ⟨y, hy, hP⟩ := h x List.mem_cons_self
    obtain ⟨ys, hys, hall⟩ := ih fun z hz => h z (List.mem_cons_of_mem x hz)
    exact ⟨y :: ys, by rw [List.mapM_cons, hy, hys]; rfl, .cons hP hall⟩

namespace Dataflow

open Value

/-- Numbers and truth values, which take part in arithmetic. -/
def Scalar.IsNumber : Scalar → Prop
  | .str _ => False
  | _ => True

namespace Reduction

/-! ## Folding a line -/

/-- The `n`-th part of `s` is `z`: a double is divided as such, and a whole number as a word, which
cuts a fraction off. -/
def Part (n : Nat) : Scalar → Scalar → Prop
  | .float x, z => z = .float (x / Float.ofNat n)
  | s, z => ∃ i, s.asInt = .ok i ∧ z = .int (i / Int64.ofNat n) ∧
      (n ≤ Int64.maxValue.toInt → (i / Int64.ofNat n).toInt = i.toInt.tdiv n)

/-- The scalars of a line come to `z`: they are folded from the first to the last, and divided by
their number for a mean. A line without scalars comes to the identity. -/
def FoldsTo (r : Reduction) (dtype : DType) : List Scalar → Scalar → Prop
  | [], z => z = r.identity dtype
  | first :: rest, z => ∃ total,
      rest.foldlM (fun s t : Scalar => r.operator.apply s t) first = .ok total ∧
        if r = .mean then Part (rest.length + 1) total z else z = total

theorem exists_apply (r : Reduction) {s t : Scalar} (hs : s.IsNumber) (ht : t.IsNumber) :
    ∃ z, r.operator.apply s t = .ok z ∧ z.IsNumber := by
  cases s with
  | str => exact hs.elim
  | _ =>
    cases t with
    | str => exact ht.elim
    | _ => cases r <;> exact ⟨_, rfl, trivial⟩

/-- The quotient of words is that of the whole numbers, without its fraction. -/
theorem toInt_div_ofNat (i : Int64) {n : Nat} (hn : n ≤ Int64.maxValue.toInt) :
    (i / Int64.ofNat n).toInt = i.toInt.tdiv n := by
  have hcount : (Int64.ofNat n).toInt = n := by
    apply Int64.toInt_ofNat_of_lt
    rw [Int64.toInt_maxValue] at hn
    omega
  have hne : Int64.ofNat n ≠ -1 := by
    intro h
    rw [h] at hcount
    change (-1 : Int) = n at hcount
    omega
  rw [Int64.toInt_div_of_ne_right i _ hne, hcount]

theorem exists_divide (n : Nat) {s : Scalar} (hs : s.IsNumber) :
    ∃ z, divide n s = .ok z ∧ Part n s z := by
  cases s with
  | float x => exact ⟨_, rfl, rfl⟩
  | int i => exact ⟨_, rfl, i, rfl, rfl, toInt_div_ofNat _⟩
  | bool b => exact ⟨_, rfl, _, rfl, rfl, toInt_div_ofNat _⟩
  | str t => cases hs

end Reduction

namespace Value

/-! ## Folding arrays -/

/-- A rectangular array of numbers, with the extents `ns`. -/
structure Table (ns : List Nat) (v : Value) : Prop where
  rect : v.Rect
  dims : v.dims = ns
  isNumber : ∀ i ∈ indices ns, (v.item i).IsNumber

theorem exists_tabulate {ns : List Nat} {g : List Nat → Except Fault Scalar}
    {P : List Nat → Scalar → Prop} (h : ∀ i ∈ indices ns, ∃ z, g i = .ok z ∧ P i z) :
    ∃ w, tabulate ns g = .ok w ∧ w.Rect ∧
      ∀ i ∈ indices ns, g i = .ok (w.item i) ∧ P i (w.item i) := by
  cases hw : tabulate ns g with
  | error e =>
    obtain ⟨before, i, after, hsplit, -, hi⟩ := exists_first_of_tabulate hw
    obtain ⟨z, hz, -⟩ := h i (hsplit ▸ List.mem_append_right _ List.mem_cons_self)
    cases hi.symm.trans hz
  | ok w =>
    refine ⟨w, rfl, rect_of_tabulate hw, fun i hi => ?_⟩
    obtain ⟨s, hs, hat⟩ := at?_of_tabulate hw hi
    obtain ⟨z, hz, hP⟩ := h i hi
    cases hs.symm.trans hz
    have hitem : w.item i = s := by rw [item, hat]; rfl
    exact hitem ▸ ⟨hs, hP⟩

variable {r : Reduction} {ns : List Nat}

theorem Table.binary {a b : Value} (ha : Table ns a) (hb : Table ns b) :
    ∃ w, Value.binary r.operator a b = .ok w ∧ Table ns w ∧
      ∀ i ∈ indices ns, r.operator.apply (a.item i) (b.item i) = .ok (w.item i) := by
  have hcommon : commonDims? a.dims b.dims = some ns := by
    rw [ha.dims, hb.dims, commonDims?_self]
  have htable : Value.binary r.operator a b =
      tabulate ns fun i => r.operator.apply (a.item i) (b.item i) :=
    ha.dims ▸ ha.rect.binary_eq_tabulate hb.rect (ha.dims.trans hb.dims.symm)
  obtain ⟨w, hw, hrect, hitems⟩ := exists_tabulate fun i hi =>
    r.exists_apply (ha.isNumber i hi) (hb.isNumber i hi)
  rw [← htable] at hw
  have hdims : w.dims = ns := by
    have := commonDims?_of_broadcast rfl (by rw [← length_dims, ← length_dims, ha.dims, hb.dims]) hw
    exact Option.some.inj (this.symm.trans hcommon)
  exact ⟨w, hw, ⟨hrect, hdims, fun i hi => (hitems i hi).2⟩, fun i hi => (hitems i hi).1⟩

/-- Folding arrays folds the scalars at each multi-index. -/
theorem Table.foldlM {rest : List Value} {acc : Value} (hacc : Table ns acc)
    (hrest : ∀ v ∈ rest, Table ns v) :
    ∃ w, rest.foldlM (Value.binary r.operator) acc = .ok w ∧ Table ns w ∧
      ∀ i ∈ indices ns, (rest.map (item i)).foldlM (fun s t : Scalar => r.operator.apply s t)
        (acc.item i) = .ok (w.item i) := by
  induction rest generalizing acc with
  | nil => exact ⟨acc, rfl, hacc, fun i _ => rfl⟩
  | cons v rest ih =>
    obtain ⟨next, hnext, htable, hstep⟩ := hacc.binary (r := r) (hrest v List.mem_cons_self)
    obtain ⟨w, hw, htable', hrun⟩ := ih htable fun v' hv' => hrest v' (List.mem_cons_of_mem v hv')
    refine ⟨w, ?_, htable', fun i hi => ?_⟩
    · rw [List.foldlM_cons, hnext]
      exact hw
    · rw [List.map_cons, List.foldlM_cons, hstep i hi]
      exact hrun i hi

theorem Table.divide {a : Value} (ha : Table ns a) (n : Nat) :
    ∃ w, a.traverse (fun s => do return .scalar (← Reduction.divide n s)) = .ok w ∧ w.Rect ∧
      w.dims = ns ∧ ∀ i ∈ indices ns, Reduction.Part n (a.item i) (w.item i) := by
  have htable := ha.rect.traverse_eq_tabulate (g := Reduction.divide n)
  rw [ha.dims] at htable
  obtain ⟨w, hw, hrect, hitems⟩ := exists_tabulate fun i hi =>
    Reduction.exists_divide n (ha.isNumber i hi)
  rw [← htable] at hw
  exact ⟨w, hw, hrect, (dims_of_traverse hw).trans ha.dims, fun i hi => (hitems i hi).2⟩

/-- The items of an axis come to the array of what its lines come to. -/
theorem exists_fold {items : List Value} (dtype : DType) (h : ∀ v ∈ items, Table ns v)
    (hnil : items = [] → ns = []) :
    ∃ w, r.fold dtype items = .ok w ∧ w.Rect ∧ w.dims = ns ∧
      ∀ i ∈ indices ns, r.FoldsTo dtype (items.map (item i)) (w.item i) := by
  cases items with
  | nil =>
    cases hnil rfl
    refine ⟨.scalar (r.identity dtype), rfl, .scalar _, rfl, fun i hi => ?_⟩
    cases mem_indices_nil.mp hi
    rfl
  | cons first rest =>
    obtain ⟨total, htotal, htable, hlines⟩ := (h first List.mem_cons_self).foldlM (r := r)
      fun v hv => h v (List.mem_cons_of_mem first hv)
    by_cases hr : r = .mean
    · obtain ⟨w, hw, hrect, hdims, hparts⟩ := htable.divide (rest.length + 1)
      refine ⟨w, ?_, hrect, hdims, fun i hi => ⟨total.item i, hlines i hi, ?_⟩⟩
      · rw [Reduction.fold, htotal]
        exact (if_pos hr).trans hw
      · rw [if_pos hr, List.length_map]
        exact hparts i hi
    · refine ⟨total, ?_, htable.rect, htable.dims, fun i hi => ⟨total.item i, hlines i hi, ?_⟩⟩
      · rw [Reduction.fold, htotal]
        exact if_neg hr
      · rw [if_neg hr]

theorem Rect.getElem?_map_item {items : List Value} (h : Rect (.array items)) {ns i : List Nat}
    (hdims : (Value.array items).dims = items.length :: ns) (hi : i ∈ indices ns) (k : Nat) :
    (items.map (item i))[k]? = (Value.array items).at? (k :: i) := by
  rw [List.getElem?_map, at?]
  cases hk : items[k]? with
  | none => rfl
  | some v =>
    have hv := List.mem_of_getElem? hk
    have hcons := (h.dims_eq hv).symm.trans hdims
    rw [← (List.cons.inj hcons).2] at hi
    exact ((h.of_mem hv).at?_eq_item hi).symm

end Value

/-! ## Reducing one axis -/

namespace Reduction

variable {r : Reduction} {dtype : DType} {keepDims : Bool}

/-- The value `w` is `v` with its lines along axis `d` folded. The axis is left out, or kept with
extent one. -/
structure Folded (r : Reduction) (dtype : DType) (keepDims : Bool) (d : Nat) (v w : Value) :
    Prop where
  rect : w.Rect
  dims : w.dims = if keepDims then v.dims.set d 1 else v.dims.eraseIdx d
  lines : ∀ i ∈ indices (v.dims.eraseIdx d), ∃ entries z,
    (∀ k, entries[k]? = v.at? (i.insertIdx d k)) ∧ r.FoldsTo dtype entries z ∧
      w.at? (if keepDims then i.insertIdx d 0 else i) = some z

theorem exists_outermost {items : List Value} (h : Rect (.array items))
    (hnumbers : ∀ s ∈ (Value.array items).scalars, s.IsNumber) :
    ∃ w, r.alongAxis dtype keepDims 0 (.array items) = .ok w ∧
      r.Folded dtype keepDims 0 (.array items) w := by
  obtain ⟨ns, hdims⟩ := exists_dims items
  have htable : ∀ v ∈ items, Table ns v := by
    intro v hv
    have hcons := (h.dims_eq hv).symm.trans hdims
    refine ⟨h.of_mem hv, (List.cons.inj hcons).2, fun i hi => hnumbers _ ?_⟩
    rw [← (List.cons.inj hcons).2] at hi
    rw [scalars_array]
    exact List.mem_flatMap.mpr ⟨v, hv, mem_scalars_of_at? ((h.of_mem hv).at?_eq_item hi)⟩
  have hnil : items = [] → ns = [] := by
    rintro rfl
    exact (List.cons.inj hdims).2.symm
  -- Folding the items elementwise folds every line along the outermost axis.
  obtain ⟨total, htotal, hrect, htotaldims, hlines⟩ := exists_fold (r := r) dtype htable hnil
  have hentries : ∀ i ∈ indices ns, ∃ entries z,
      (∀ k, entries[k]? = (Value.array items).at? (i.insertIdx 0 k)) ∧ r.FoldsTo dtype entries z ∧
        total.at? i = some z := fun i hi =>
    ⟨items.map (item i), total.item i, h.getElem?_map_item hdims hi, hlines i hi,
      hrect.at?_eq_item (htotaldims ▸ hi)⟩
  cases keepDims with
  | false =>
    refine ⟨total, by rw [alongAxis, htotal]; rfl, hrect, ?_, ?_⟩
    · rw [htotaldims, hdims]
      rfl
    · rw [hdims]
      exact hentries
  | true =>
    refine ⟨.array [total], by rw [alongAxis, htotal]; rfl, ?_, ?_, ?_⟩
    · exact .array (by simpa using hrect) (by simp)
    · rw [dims_array_cons, htotaldims, hdims]
      rfl
    · rw [hdims]
      exact hentries

/-- Further in, the items are folded on their own. -/
theorem folded_array {d : Nat} {rows ws : List Value} (h : Rect (.array rows)) (hne : rows ≠ [])
    (hall : List.Forall₂ (r.Folded dtype keepDims d) rows ws) :
    r.Folded dtype keepDims (d + 1) (.array rows) (.array ws) := by
  obtain ⟨ns, hdims⟩ := exists_dims rows
  have hlength : rows.length = ws.length := hall.length_eq
  have hfolded : ∀ j (hj : j < rows.length) (hj' : j < ws.length), rows[j].dims = ns ∧
      r.Folded dtype keepDims d rows[j] ws[j] := by
    intro j hj hj'
    have hcons := (h.dims_eq (List.getElem_mem hj)).symm.trans hdims
    exact ⟨(List.cons.inj hcons).2, hall.get hj hj'⟩
  have hwdims : ∀ w ∈ ws, w.Rect ∧ w.dims = if keepDims then ns.set d 1 else ns.eraseIdx d := by
    intro w hw
    obtain ⟨j, hj, rfl⟩ := List.getElem_of_mem hw
    obtain ⟨hns, hrow⟩ := hfolded j (hlength ▸ hj) hj
    exact ⟨hrow.rect, hns ▸ hrow.dims⟩
  have hrect : Rect (.array ws) :=
    .array (fun w hw => (hwdims w hw).1) fun w hw w' hw' =>
      (hwdims w hw).2.trans (hwdims w' hw').2.symm
  -- A line inside the rows lies in one of them, and is folded there.
  refine ⟨hrect, ?_, ?_⟩
  · have hpos : 0 < ws.length := hlength ▸ List.length_pos_iff.mpr hne
    have hfirst := List.getElem_mem hpos
    rw [hrect.dims_eq hfirst, (hwdims _ hfirst).2, hdims, hlength]
    cases keepDims <;> rfl
  · intro i hi
    rw [hdims, List.eraseIdx_cons_succ] at hi
    obtain ⟨j, js, hj, hjs, rfl⟩ := mem_indices_cons.mp hi
    have hj' : j < ws.length := hlength ▸ hj
    obtain ⟨hns, hrow⟩ := hfolded j hj hj'
    obtain ⟨entries, z, hentries, hz, hat⟩ := hrow.lines js (hns ▸ hjs)
    refine ⟨entries, z, fun k => ?_, hz, ?_⟩
    · rw [List.insertIdx_succ_cons, at?_cons hj]
      exact hentries k
    · rw [← hat, ← at?_cons hj']
      cases keepDims <;> rfl

/-- Reducing an axis that a rectangular array of numbers has folds its lines along that axis. -/
theorem exists_alongAxis {d : Nat} {v : Value} (h : v.Rect) (hd : d < v.rank)
    (hnumbers : ∀ s ∈ v.scalars, s.IsNumber) :
    ∃ w, r.alongAxis dtype keepDims d v = .ok w ∧ r.Folded dtype keepDims d v w := by
  induction d generalizing v with
  | zero =>
    cases v with
    | scalar s => cases hd
    | array items => exact exists_outermost h hnumbers
  | succ d ih =>
    cases v with
    | scalar s => cases hd
    | array rows =>
      have hrow : ∀ row ∈ rows, ∃ w, r.alongAxis dtype keepDims d row = .ok w ∧
          r.Folded dtype keepDims d row w := by
        intro row hrow
        refine ih (h.of_mem hrow) ?_ fun s hs => hnumbers s ?_
        · rw [← length_dims, h.dims_eq hrow, List.length_cons, length_dims] at hd
          exact Nat.lt_of_succ_lt_succ hd
        · rw [scalars_array]
          exact List.mem_flatMap.mpr ⟨row, hrow, hs⟩
      have hne : rows ≠ [] := by
        rintro rfl
        cases Nat.lt_of_succ_lt_succ hd
      obtain ⟨ws, hws, hall⟩ := Except.exists_mapM hrow
      exact ⟨.array ws, by rw [alongAxis, hws]; rfl, folded_array h hne hall⟩

/-! ## Reducing several axes -/

/-- The axis as a depth, whether or not the value has it. A negative one counts from the innermost
axis on. -/
def position (v : Value) (axis : Int) : Int := if axis < 0 then axis + v.rank else axis

/-- One of the two outermost axes, and one that the value has. -/
def Valid (v : Value) (axis : Int) : Prop :=
  (position v axis = 0 ∨ position v axis = 1) ∧ position v axis < v.rank

theorem isArray_iff {v : Value} : v.isArray ↔ 1 ≤ v.rank := by
  cases v with
  | scalar s => exact ⟨nofun, nofun⟩
  | array items => exact ⟨fun _ => Pair.one_le_rank_array items, fun _ => rfl⟩

theorem depth_of_valid {v : Value} {axis : Int} (h : Valid v axis) :
    depth v axis = .ok (position v axis).toNat := by
  obtain ⟨hposition, hrank⟩ := h
  have hrange : ¬ (position v axis < 0 ∨ 1 < position v axis) := by omega
  have hhas : ¬ (v.isArray ∧ v.rank ≤ position v axis) := fun h => by omega
  exact (if_neg hrange).trans (if_neg hhas)

theorem depth_of_not_valid {v : Value} {axis : Int} (hv : v.isArray) (h : ¬ Valid v axis) :
    depth v axis = .error (if position v axis = 0 ∨ position v axis = 1 then
      .invalidAxis axis v.rank else .unsupportedReduction axis) := by
  by_cases hposition : position v axis = 0 ∨ position v axis = 1
  · have hrange : ¬ (position v axis < 0 ∨ 1 < position v axis) := by omega
    have hlacks : v.isArray ∧ v.rank ≤ position v axis :=
      ⟨hv, Int.not_lt.mp fun hlt => h ⟨hposition, hlt⟩⟩
    rw [if_pos hposition]
    exact (if_neg hrange).trans (if_pos hlacks)
  · have hrange : position v axis < 0 ∨ 1 < position v axis := by omega
    rw [if_neg hposition]
    exact if_pos hrange

theorem mapM_depth_of_valid {v : Value} {axes : List Int} (h : ∀ axis ∈ axes, Valid v axis) :
    axes.mapM (depth v) = .ok (axes.map fun axis => (position v axis).toNat) := by
  rw [Except.mapM_congr fun axis haxis => depth_of_valid (h axis haxis)]
  exact List.mapM_pure

theorem order_of_valid {v : Value} {axes : List Int} (h : ∀ axis ∈ axes, Valid v axis) :
    order v axes = .ok ([1, 0].filter fun d : Nat => (d : Int) ∈ axes.map (position v)) := by
  have hcontains (d : Nat) : (axes.map fun axis => (position v axis).toNat).contains d =
      decide ((d : Int) ∈ axes.map (position v)) := by
    rw [List.contains_eq_mem, decide_eq_decide]
    simp only [List.mem_map]
    refine exists_congr fun axis => and_congr_right fun haxis => ?_
    obtain ⟨hposition, -⟩ := h axis haxis
    omega
  rw [order, mapM_depth_of_valid h]
  exact congrArg Except.ok (List.filter_congr fun d _ => hcontains d)

theorem outcome_alongAxes (r : Reduction) (dtype : DType) (keepDims : Bool) (axes : List Nat)
    (v : Value) : (r.alongAxes dtype keepDims axes v).outcome =
      axes.foldlM (fun u d => r.alongAxis dtype keepDims d u) v := by
  induction axes generalizing v with
  | nil => rfl
  | cons d axes ih =>
    rw [alongAxes, List.foldlM_cons]
    cases r.alongAxis dtype keepDims d v with
    | error fault => rfl
    | ok w => exact ih w

theorem outcome_reduce_of_valid {v : Value} {axes : List Int} (hv : v.isArray)
    (h : ∀ axis ∈ axes, Valid v axis) :
    (r.reduce dtype keepDims (some axes) v).outcome =
      ([1, 0].filter fun d : Nat => (d : Int) ∈ axes.map (position v)).foldlM
        (fun u d => r.alongAxis dtype keepDims d u) v := by
  have hscalar : ¬ v.isScalar := by cases v <;> simp_all [isArray, isScalar]
  rw [reduce, order_of_valid h, ← outcome_alongAxes]
  dsimp only
  rw [if_neg hscalar]

/-- A single axis is reduced at its depth. -/
theorem outcome_reduce_single {v : Value} {axis : Int} {d : Nat} (hposition : position v axis = d)
    (hd : d ≤ 1) (hrank : d < v.rank) :
    (r.reduce dtype keepDims (some [axis]) v).outcome = r.alongAxis dtype keepDims d v := by
  have hv : v.isArray := isArray_iff.mpr (Nat.one_le_of_lt hrank)
  have hvalid : ∀ a ∈ [axis], Valid v a := by
    intro a ha
    rw [List.mem_singleton.mp ha]
    exact ⟨by omega, by omega⟩
  rw [outcome_reduce_of_valid hv hvalid]
  obtain rfl | rfl : d = 0 ∨ d = 1 := by omega
  all_goals simp [hposition]

theorem isArray_of_alongAxis {d : Nat} {v w : Value}
    (h : r.alongAxis dtype keepDims (d + 1) v = .ok w) : w.isArray := by
  cases v with
  | scalar s => cases h
  | array items =>
    obtain ⟨ws, -, hw⟩ := Except.bind_eq_ok.mp h
    cases hw
    rfl

theorem outcome_reduce_outermost {v : Value} (hv : v.isArray) :
    (r.reduce dtype keepDims (some [0]) v).outcome = r.alongAxis dtype keepDims 0 v :=
  outcome_reduce_single rfl (Nat.zero_le _) (isArray_iff.mp hv)

/-- Several axes are reduced one after the other, the inner one first. -/
theorem outcome_reduce_axes {v : Value} {axes : List Int} (hv : v.isArray)
    (h : ∀ axis ∈ axes, Valid v axis) :
    (r.reduce dtype keepDims (some axes) v).outcome = (do
      let u ← if 1 ∈ axes.map (position v) then (r.reduce dtype keepDims (some [1]) v).outcome
        else .ok v
      if 0 ∈ axes.map (position v) then (r.reduce dtype keepDims (some [0]) u).outcome
        else .ok u) := by
  -- Once the inner axis is done with, only the outermost one can be left.
  have hlast : ∀ u : Value, u.isArray →
      ([0].filter fun d : Nat => (d : Int) ∈ axes.map (position v)).foldlM
          (fun u d => r.alongAxis dtype keepDims d u) u =
        if 0 ∈ axes.map (position v) then (r.reduce dtype keepDims (some [0]) u).outcome
        else .ok u := by
    intro u hu
    rw [outcome_reduce_outermost hu]
    by_cases h0 : 0 ∈ axes.map (position v)
    · rw [List.filter_cons_of_pos (by simpa using h0), if_pos h0]
      exact bind_pure _
    · rw [List.filter_cons_of_neg (by simpa using h0), if_neg h0]
      rfl
  rw [outcome_reduce_of_valid hv h]
  by_cases h1 : 1 ∈ axes.map (position v)
  · obtain ⟨axis, haxis, hposition⟩ := List.mem_map.mp h1
    obtain ⟨-, hrank⟩ := h axis haxis
    rw [List.filter_cons_of_pos (by simpa using h1), List.foldlM_cons, if_pos h1,
      outcome_reduce_single (d := 1) rfl (Nat.le_refl _) (by omega)]
    cases hu : r.alongAxis dtype keepDims 1 v with
    | error fault => rfl
    | ok u => exact hlast u (isArray_of_alongAxis hu)
  · rw [List.filter_cons_of_neg (by simpa using h1), if_neg h1]
    exact hlast v hv

/-- The first axis that is not valid decides. -/
theorem outcome_reduce_of_not_valid {v : Value} {before after : List Int} {axis : Int}
    (hv : v.isArray) (hbefore : ∀ a ∈ before, Valid v a) (haxis : ¬ Valid v axis) :
    (r.reduce dtype keepDims (some (before ++ axis :: after)) v).outcome =
      .error (if position v axis = 0 ∨ position v axis = 1 then .invalidAxis axis v.rank
        else .unsupportedReduction axis) := by
  have horder {e : Fault} (he : depth v axis = .error e) :
      order v (before ++ axis :: after) = .error e := by
    rw [order, List.mapM_append, mapM_depth_of_valid hbefore, List.mapM_cons, he]
    rfl
  rw [reduce, horder (depth_of_not_valid hv haxis)]

end Reduction

namespace Value

open Reduction (position Valid Folded)

/-- Reducing a rectangular array of numbers along one of its two outermost axes gives a result, in
which the lines along that axis are folded. Several axes are reduced one after the other, the inner
one first, however often and in whatever order they are listed. If some are not valid, the first of
them decides the fault. -/
theorem Rect.reduces_by_folding (r : Reduction) (dtype : DType) (keepDims : Bool) {v : Value}
    (h : v.Rect) (hrank : 1 ≤ v.rank) (hnumbers : ∀ s ∈ v.scalars, s.IsNumber) :
    (∀ (axis : Int) (d : Nat), position v axis = d → d ≤ 1 → d < v.rank →
      ∃ w, (r.reduce dtype keepDims (some [axis]) v).outcome = .ok w ∧
        r.Folded dtype keepDims d v w) ∧
    (∀ axes : List Int, (∀ axis ∈ axes, Valid v axis) →
      (r.reduce dtype keepDims (some axes) v).outcome = do
        let u ← if 1 ∈ axes.map (position v) then (r.reduce dtype keepDims (some [1]) v).outcome
          else .ok v
        if 0 ∈ axes.map (position v) then (r.reduce dtype keepDims (some [0]) u).outcome
          else .ok u) ∧
    ∀ (before : List Int) (axis : Int) (after : List Int), (∀ a ∈ before, Valid v a) →
      ¬ Valid v axis →
        (r.reduce dtype keepDims (some (before ++ axis :: after)) v).outcome =
          .error (if position v axis = 0 ∨ position v axis = 1 then .invalidAxis axis v.rank
            else .unsupportedReduction axis) := by
  have hv : v.isArray := Reduction.isArray_iff.mpr hrank
  refine ⟨fun axis d hposition hd hlt => ?_, fun axes => Reduction.outcome_reduce_axes hv,
    fun before axis after => Reduction.outcome_reduce_of_not_valid hv⟩
  rw [Reduction.outcome_reduce_single hposition hd hlt]
  exact Reduction.exists_alongAxis h hlt hnumbers

/-- The means of two rows, one of them negative and odd. -/
theorem Rect.reduces_by_folding_rows :
    let v : Value := .array [.array [.scalar (.int (-7)), .scalar (.int 2)],
      .array [.scalar (.bool true), .scalar (.int 4)]]
    v.Rect ∧ 1 ≤ v.rank ∧ (∀ s ∈ v.scalars, s.IsNumber) ∧ position v (-1) = (1 : Nat) ∧ 1 < v.rank ∧
      ∃ w, (Reduction.mean.reduce .int32 true (some [-1]) v).outcome = .ok w ∧
        Reduction.mean.Folded .int32 true 1 v w := by
  intro v
  have hrow (s t : Scalar) : (Value.array [.scalar s, .scalar t]).Rect :=
    .array (by simp [Rect.scalar]) (by simp [dims])
  have hv : v.Rect := .array (by simp [hrow]) (by simp [dims])
  have hnumbers : ∀ s ∈ v.scalars, s.IsNumber := by simp [v, Scalar.IsNumber]
  have hone : 1 < v.rank := by decide
  exact ⟨hv, by decide, hnumbers, rfl, hone,
    (hv.reduces_by_folding .mean .int32 true (by decide) hnumbers).1 (-1) 1 rfl (by decide) hone⟩

end Value

end Dataflow
