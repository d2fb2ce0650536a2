import Dataflow.Proofs.Slicing

/-!
# Boxes

A slice cuts a box out of a rectangular value. If the box lies within the value on every axis that
it lists, then the slice is the table of the scalars in the box: its extents are the ones that were
asked for, and each of its scalars is found in the value behind the start of the box. A box that
does not lie within the value is refused at the first axis on which it does not, unless no item of
an axis before that one is taken.
-/

namespace Dataflow.Value

/-! ## Extents that show -/

/-- The extents up to the first empty axis. An axis inside an empty one has no items, so no value
shows its extent. -/
def visible : List Nat → List Nat
  | [] => []
  | n :: ns => n :: if n = 0 then [] else visible ns

theorem visible_dims : (v : Value) → visible v.dims = v.dims
  | .scalar _ => rfl
  | .array [] => rfl
  | .array (v :: vs) => by
    rw [dims_array_cons, visible, if_neg (Nat.succ_ne_zero _), visible_dims v]

theorem tabulate_cons (n : Nat) (ns : List Nat) (g : List Nat → Except Fault Scalar) :
    tabulate (n :: ns) g =
      Value.array <$> (List.range n).mapM fun j => tabulate ns fun js => g (j :: js) := by
  rw [tabulate]
  cases (List.range n).mapM fun j => tabulate ns fun js => g (j :: js) <;> rfl

theorem indices_visible (ns : List Nat) : indices (visible ns) = indices ns := by
  induction ns with
  | nil => rfl
  | cons n ns ih =>
    rw [visible, indices, indices]
    split
    · next h => rw [h, List.range_zero, List.flatMap_nil, List.flatMap_nil]
    · rw [ih]

theorem dims_of_tabulate {ns : List Nat} {g : List Nat → Except Fault Scalar} {v : Value}
    (h : tabulate ns g = .ok v) : v.dims = visible ns := by
  induction ns generalizing g v with
  | nil =>
    obtain ⟨s, -, hs⟩ := Except.bind_eq_ok.mp h
    cases hs
    rfl
  | cons n ns ih =>
    rw [tabulate_cons] at h
    obtain ⟨vs, hvs, rfl⟩ := Except.map_eq_ok.mp h
    have hlength : vs.length = n := by simpa using Except.length_of_mapM hvs
    subst hlength
    cases vs with
    | nil => rfl
    | cons w ws =>
      obtain ⟨j, -, hj⟩ := Except.exists_of_mem_mapM hvs List.mem_cons_self
      rw [dims_array_cons, ih hj]
      rfl

/-! ## Values as tables -/

variable {v w : Value}

/-- A rectangular value is the table of its scalars. -/
theorem Rect.tabulate_item (h : v.Rect) : (tabulate v.dims fun i => .ok (v.item i)) = .ok v := by
  induction h with
  | scalar s => rfl
  | @array vs items even ih =>
    cases vs with
    | nil => rfl
    | cons u us =>
      have hrow : ∀ j ∈ List.range (us.length + 1),
          (tabulate u.dims fun js => .ok ((Value.array (u :: us)).item (j :: js))) =
            .ok ((u :: us).getD j default) := by
        intro j hj
        have hlt : j < (u :: us).length := List.mem_range.mp hj
        have hmem := getD_mem hlt
        simp only [item_cons hlt]
        rw [even u List.mem_cons_self _ hmem]
        exact ih _ hmem
      have hitems : ((List.range (us.length + 1)).mapM fun j => tabulate u.dims fun js =>
          .ok ((Value.array (u :: us)).item (j :: js))) = .ok (u :: us) := by
        rw [Except.mapM_congr hrow]
        exact List.mapM_pure.trans (congrArg Except.ok (eq_map_getD (u :: us)).symm)
      rw [dims_array_cons, tabulate_cons, hitems]
      rfl

/-- The scalars of a rectangular value are those at its multi-indices. -/
theorem Rect.mem_scalars_iff (h : v.Rect) {s : Scalar} :
    s ∈ v.scalars ↔ ∃ i ∈ indices v.dims, v.at? i = some s := by
  have hscalars := scalars_tabulate v.dims fun i => .ok (v.item i)
  rw [h.tabulate_item] at hscalars
  have hitems : v.scalars = (indices v.dims).map v.item :=
    Except.ok.inj (hscalars.trans List.mapM_pure)
  rw [hitems, List.mem_map]
  refine exists_congr fun i => and_congr_right fun hi => ?_
  rw [h.at?_eq_item hi, Option.some.injEq]

/-- Rectangular values are equal if they have the same extents and the same scalars in them. -/
theorem Rect.ext (hv : v.Rect) (hw : w.Rect) (hdims : v.dims = w.dims)
    (h : ∀ i ∈ indices v.dims, v.at? i = w.at? i) : v = w := by
  have hitem : ∀ i ∈ indices v.dims, (.ok (v.item i) : Except Fault Scalar) = .ok (w.item i) :=
    fun i hi => by rw [item, item, h i hi]
  have htable : (.ok v : Except Fault Value) = .ok w := by
    rw [← hv.tabulate_item, tabulate_congr hitem, hdims, hw.tabulate_item]
  exact Except.ok.inj htable

theorem Rect.dims_of_mem {vs : List Value} {n : Nat} {ns : List Nat}
    (h : Rect (.array vs)) (hdims : (Value.array vs).dims = n :: ns) (hv : v ∈ vs) : v.dims = ns :=
  (List.cons.inj ((h.dims_eq hv).symm.trans hdims)).2

/-- Rectangular items of one shape are the items of a rectangular array. -/
theorem rect_array {vs : List Value} {ns : List Nat} (hitems : ∀ u ∈ vs, u.Rect ∧ u.dims = ns)
    (hnil : vs = [] → ns = []) :
    Rect (.array vs) ∧ (Value.array vs).dims = vs.length :: ns := by
  have hrect : Rect (.array vs) :=
    .array (fun u hu => (hitems u hu).1) fun u hu t ht =>
      (hitems u hu).2.trans (hitems t ht).2.symm
  refine ⟨hrect, ?_⟩
  cases vs with
  | nil =>
    rw [hnil rfl]
    rfl
  | cons u us => rw [hrect.dims_eq List.mem_cons_self, (hitems u List.mem_cons_self).2]

/-! ## Parts of an axis -/

/-- What a slice asks of an axis. -/
structure Span where
  extent : Nat
  start : Int
  size : Int

namespace Span

/-- The part that is asked for lies within the axis. -/
def Fits (a : Span) : Prop :=
  0 ≤ a.start ∧ a.start ≤ a.extent ∧ (a.size = -1 ∨ 0 ≤ a.size ∧ a.start + a.size ≤ a.extent)

/-- How many items are asked for. The size `-1` asks for all that are left. -/
def count (a : Span) : Nat :=
  if a.size = -1 then a.extent - a.start.toNat else a.size.toNat

variable {a : Span}

theorem Fits.end_le (h : a.Fits) : a.start.toNat + a.count ≤ a.extent := by
  obtain ⟨hstart, hextent, hsize⟩ := h
  unfold count
  split <;> omega

theorem Fits.stop_eq (h : a.Fits) :
    stop a.extent a.start.toNat a.size = .ok (a.start.toNat + a.count) := by
  obtain ⟨hstart, hextent, hsize⟩ := h
  unfold stop count
  by_cases hrest : a.size = -1
  · rw [if_pos hrest, if_pos hrest]
    congr 1
    omega
  · rw [if_neg hrest, if_neg hrest, if_neg (by omega), if_neg (by omega)]

end Span

/-- The axes that a box lists, and what it asks of them. -/
def spans : List Nat → List (Int × Int) → List Span :=
  List.zipWith fun n part => ⟨n, part.1, part.2⟩

theorem spans_cons (n : Nat) (ns : List Nat) (start size : Int) (box : List (Int × Int)) :
    spans (n :: ns) ((start, size) :: box) = ⟨n, start, size⟩ :: spans ns box := rfl

/-- The multi-index that is `i` when one counts from the starts of a box. -/
def shift : (starts : List Int) → (i : List Nat) → List Nat
  | start :: starts, j :: js => (start.toNat + j) :: shift starts js
  | [], js => js
  | _ :: _, [] => []

theorem shift_mem_indices {ns : List Nat} {box : List (Int × Int)} {i : List Nat}
    (hfits : ∀ a ∈ spans ns box, a.Fits) (hlength : box.length ≤ ns.length)
    (hi : i ∈ indices ((spans ns box).map Span.count ++ ns.drop box.length)) :
    shift (box.map Prod.fst) i ∈ indices ns := by
  induction box generalizing ns i with
  | nil => simpa [spans, shift] using hi
  | cons part box ih =>
    obtain ⟨start, size⟩ := part
    cases ns with
    | nil => cases hlength
    | cons n ns =>
      rw [spans_cons, List.forall_mem_cons] at hfits
      obtain ⟨hfirst, hinner⟩ := hfits
      obtain ⟨j, js, hj, hjs, rfl⟩ := mem_indices_cons.mp hi
      refine mem_indices_cons.mpr ⟨start.toNat + j, shift (box.map Prod.fst) js, ?_, ?_, rfl⟩
      · exact Nat.lt_of_lt_of_le (Nat.add_lt_add_left hj _) hfirst.end_le
      · exact ih hinner (Nat.le_of_succ_le_succ hlength) hjs

theorem take_drop_eq_map {xs : List Value} {first n : Nat} (h : first + n ≤ xs.length) :
    (xs.take (first + n)).drop first = (List.range n).map fun j => xs.getD (first + j) default := by
  apply List.ext_getElem
  · simp
    omega
  · intro j hj hj'
    simp only [List.length_map, List.length_range] at hj'
    have hlt : first + j < xs.length := by omega
    simp [hlt]

/-- A box that lies within a value is cut out as the table of the scalars in it. -/
theorem Rect.sliceAt_eq_tabulate {box : List (Int × Int)} (h : v.Rect)
    (hrank : box.length ≤ v.rank) (hfits : ∀ a ∈ spans v.dims box, a.Fits) :
    sliceAt box v = tabulate ((spans v.dims box).map Span.count ++ v.dims.drop box.length)
      fun i => .ok (v.item (shift (box.map Prod.fst) i)) := by
  induction box generalizing v with
  | nil => simpa [spans, shift, sliceAt] using h.tabulate_item.symm
  | cons part box ih =>
    obtain ⟨start, size⟩ := part
    cases v with
    | scalar s => cases hrank
    | array xs =>
      obtain ⟨ns, hdims⟩ := exists_dims xs
      rw [hdims, spans_cons, List.forall_mem_cons] at hfits
      obtain ⟨hfirst, hinner⟩ := hfits
      have hitem : ∀ y ∈ xs, y.dims = ns := fun y hy => h.dims_of_mem hdims hy
      -- Each item of the part is cut on its own, by the rest of the box.
      have hrow : ∀ j ∈ List.range (Span.count ⟨xs.length, start, size⟩),
          sliceAt box (xs.getD (start.toNat + j) default) =
            tabulate ((spans ns box).map Span.count ++ ns.drop box.length)
              fun js => .ok ((Value.array xs).item ((start.toNat + j) ::
                shift (box.map Prod.fst) js)) := by
        intro j hj
        have hlt : start.toNat + j < xs.length := by
          have hend : start.toNat + Span.count ⟨xs.length, start, size⟩ ≤ xs.length := hfirst.end_le
          have := List.mem_range.mp hj
          omega
        have hmem := getD_mem hlt
        have hle : box.length ≤ (xs.getD (start.toNat + j) default).rank := by
          rw [h.rank_eq hmem] at hrank
          exact Nat.le_of_succ_le_succ hrank
        rw [ih (h.of_mem hmem) hle (by rwa [hitem _ hmem]), hitem _ hmem]
        simp only [item_cons hlt]
      rw [hdims, spans_cons, sliceAt_array (Int.toNat_of_nonneg hfirst.1).symm
        (Int.toNat_le.mpr hfirst.2.1) hfirst.stop_eq, take_drop_eq_map hfirst.end_le, List.mapM_map,
        List.map_cons, List.cons_append, tabulate_cons]
      exact congrArg _ (Except.mapM_congr hrow)

/-! ## Boxes that do not lie within a value -/

theorem sliceAt_error_of_not_fits {xs : List Value} {start size : Int} (box : List (Int × Int))
    (h : ¬ Span.Fits ⟨xs.length, start, size⟩) :
    ∃ f, sliceAt ((start, size) :: box) (.array xs) = .error f := by
  have hitems : (Value.array xs).items?.getD [] = xs := rfl
  rw [sliceAt]
  simp only [hitems]
  by_cases hstart : start < 0 ∨ (xs.length : Int) < start
  · rw [if_pos hstart]
    exact ⟨_, rfl⟩
  · rw [if_neg hstart]
    obtain ⟨f, hf⟩ : ∃ f, stop xs.length start.toNat size = .error f := by
      simp only [Span.Fits] at h
      unfold stop
      rw [if_neg (by omega)]
      split
      · exact ⟨_, rfl⟩
      · rw [if_pos (by omega)]
        exact ⟨_, rfl⟩
    rw [hf]
    exact ⟨f, rfl⟩

/-- The first axis on which a box does not lie within a value decides, if the axes before it leave
an item in which it is looked at. -/
theorem Rect.exists_sliceAt_error {box : List (Int × Int)} {before after : List Span} {a : Span}
    (h : v.Rect) (hspans : spans v.dims box = before ++ a :: after)
    (hbefore : ∀ b ∈ before, 0 < b.count) (ha : ¬ a.Fits) : ∃ f, sliceAt box v = .error f := by
  induction box generalizing v before with
  | nil => simp [spans] at hspans
  | cons part box ih =>
    obtain ⟨start, size⟩ := part
    cases v with
    | scalar s => simp [spans, dims] at hspans
    | array xs =>
      obtain ⟨ns, hdims⟩ := exists_dims xs
      rw [hdims, spans_cons] at hspans
      by_cases hfits : Span.Fits ⟨xs.length, start, size⟩
      · cases before with
        | nil =>
          cases hspans
          exact absurd hfits ha
        | cons b before =>
          obtain ⟨rfl, hinner⟩ := List.cons.inj hspans
          obtain ⟨hpos, hbefore⟩ := List.forall_mem_cons.mp hbefore
          -- The first item of the part is refused.
          have hend := hfits.end_le
          have hlt : start.toNat < xs.length :=
            Nat.lt_of_lt_of_le (Nat.lt_add_of_pos_right hpos) hend
          have hmem := getD_mem hlt
          have hitem : (xs.getD start.toNat default).dims = ns := h.dims_of_mem hdims hmem
          obtain ⟨f, hf⟩ := ih (h.of_mem hmem) (hitem ▸ hinner) hbefore
          obtain ⟨n, hn⟩ := Nat.exists_eq_succ_of_ne_zero hpos.ne'
          refine ⟨f, ?_⟩
          rw [sliceAt_array (Int.toNat_of_nonneg hfits.1).symm (Int.toNat_le.mpr hfits.2.1)
            hfits.stop_eq, take_drop_eq_map hend, hn, List.range_succ_eq_map, List.map_cons,
            List.mapM_cons, Nat.add_zero, hf]
          rfl
      · exact sliceAt_error_of_not_fits box hfits

/-! ## Slices -/

/-- A slice that lies within a rectangular value has the extents that were asked for, and the axes
that are not listed are whole. Its scalars are those of the value behind the starts. -/
theorem Rect.exists_slice {starts sizes : List Int} (h : v.Rect)
    (hlength : starts.length = sizes.length) (hrank : starts.length ≤ v.rank)
    (hfits : ∀ a ∈ spans v.dims (starts.zip sizes), a.Fits) :
    ∃ w, slice v starts sizes = .ok w ∧ w.Rect ∧
      w.dims = visible ((spans v.dims (starts.zip sizes)).map Span.count ++
        v.dims.drop starts.length) ∧
      ∀ i ∈ indices w.dims, ∃ s, w.at? i = some s ∧ v.at? (shift starts i) = some s := by
  have hbox : (starts.zip sizes).length = starts.length := by
    rw [List.length_zip, hlength, Nat.min_self]
  have hstarts : (starts.zip sizes).map Prod.fst = starts := List.map_fst_zip hlength.le
  have htable := h.sliceAt_eq_tabulate (hbox ▸ hrank) hfits
  rw [hbox, hstarts] at htable
  obtain ⟨w, hw, hrect, -⟩ := exists_tabulate (P := fun _ _ => True) fun i _ =>
    ⟨v.item (shift starts i), rfl, trivial⟩
  have hdims := dims_of_tabulate hw
  refine ⟨w, ?_, hrect, hdims, fun i hi => ?_⟩
  · rw [slice, if_neg (not_not.mpr hlength), if_neg (Nat.not_lt.mpr hrank), htable]
    exact hw
  · rw [hdims, indices_visible] at hi
    obtain ⟨s, hs, hat⟩ := at?_of_tabulate hw hi
    have hshift : shift starts i ∈ indices v.dims := by
      rw [← hbox] at hi
      rw [← hstarts]
      exact shift_mem_indices hfits (by rwa [hbox, length_dims]) hi
    exact ⟨s, hat, (h.at?_eq_item hshift).trans (congrArg some (Except.ok.inj hs))⟩

/-- A slice of a rectangular value that lies within it is the box that was asked for. A slice that
does not is refused, if every axis before the one on which it does not takes an item. -/
theorem Rect.slices_box {starts sizes : List Int} (h : v.Rect)
    (hlength : starts.length = sizes.length) (hrank : starts.length ≤ v.rank) :
    ((∀ a ∈ spans v.dims (starts.zip sizes), a.Fits) →
      ∃ w, slice v starts sizes = .ok w ∧ w.Rect ∧
        w.dims = visible ((spans v.dims (starts.zip sizes)).map Span.count ++
          v.dims.drop starts.length) ∧
        ∀ i ∈ indices w.dims, ∃ s, w.at? i = some s ∧ v.at? (shift starts i) = some s) ∧
    ∀ (before : List Span) (a : Span) (after : List Span),
      spans v.dims (starts.zip sizes) = before ++ a :: after → (∀ b ∈ before, 0 < b.count) →
        ¬ a.Fits → ∃ f, slice v starts sizes = .error f := by
  constructor
  · exact h.exists_slice hlength hrank
  · intro before a after hspans hbefore ha
    rw [slice, if_neg (not_not.mpr hlength), if_neg (Nat.not_lt.mpr hrank)]
    exact h.exists_sliceAt_error hspans hbefore ha

/-- The lower right corner of a matrix; one more column is refused. -/
theorem Rect.slices_box_corner :
    let v := ofRows [[1, 2, 3], [4, 5, 6], [7, 8, 9]]
    v.Rect ∧ (∀ a ∈ spans v.dims [(1, 2), (1, -1)], a.Fits) ∧
      (∃ w, slice v [1, 1] [2, -1] = .ok w ∧ w.Rect ∧ w.dims = [2, 2] ∧
        w.at? [1, 0] = v.at? [2, 1]) ∧
      ∃ f, slice v [1, 1] [2, 3] = .error f := by
  intro v
  have hv : v.Rect := rect_ofRows (by simp)
  have hfits : ∀ a ∈ spans v.dims [(1, 2), (1, -1)], a.Fits := by
    simp only [Span.Fits]
    decide
  have hcorner : [(1 : Int), 1].length = [(2 : Int), -1].length := rfl
  have hwider : [(1 : Int), 1].length = [(2 : Int), 3].length := rfl
  obtain ⟨w, hw, hrect, hdims, hitems⟩ := (hv.slices_box hcorner (by decide)).1 hfits
  obtain ⟨s, hs, hvs⟩ := hitems [1, 0] (by rw [hdims]; decide)
  have hwide : ∃ f, slice v [1, 1] [2, 3] = .error f := by
    refine (hv.slices_box hwider (by decide)).2 [⟨3, 1, 2⟩] ⟨3, 1, 3⟩ [] rfl (by decide) ?_
    simp only [Span.Fits]
    decide
  exact ⟨hv, hfits, ⟨w, hw, hrect, hdims, hs.trans hvs.symm⟩, hwide⟩

end Dataflow.Value
