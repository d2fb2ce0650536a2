import Dataflow.Rearrange.Concat
import Dataflow.Proofs.Totals
import Mathlib.Algebra.GroupWithZero.Nat

/-!
# Joining values

A join along an axis is read as a relation: on the joined axis the items of all values follow each
other, and on every axis outside it the values are cut into layers, each of which is joined on its
own. Only the axes outside the joined one are compared on the way, so that values that differ
inside it are joined to a ragged one.
-/

theorem Except.mapM_eq_ok {ε α β : Type} {f : α → Except ε β} {xs : List α} {ys : List β}
    (hlen : xs.length = ys.length)
    (h : ∀ i (hi : i < xs.length) (hi' : i < ys.length), f xs[i] = .ok ys[i]) :
    xs.mapM f = .ok ys := by
  induction xs generalizing ys with
  | nil =>
    cases List.length_eq_zero_iff.mp hlen.symm
    rfl
  | cons x xs ih =>
    obtain ⟨y, ys, rfl⟩ := List.exists_cons_of_length_eq_add_one hlen.symm
    have hx : f x = .ok y := h 0 (Nat.succ_pos _) (Nat.succ_pos _)
    have hxs : xs.mapM f = .ok ys := ih (Nat.succ.inj hlen) fun i hi hi' =>
      h (i + 1) (Nat.succ_lt_succ hi) (Nat.succ_lt_succ hi')
    rw [List.mapM_cons, hx, hxs]
    rfl

namespace Dataflow.Value

variable {arrays : List (List Value)} {values : List Value} {w : Value} {d n i : Nat}

/-! ## Joins as a relation -/

/-- The `i`-th items of the arrays. -/
def layer (arrays : List (List Value)) (i : Nat) : List Value :=
  arrays.map (·.getD i default)

/-- The values are joined to `w` along the axis `d`. -/
inductive Joins : (d : Nat) → (values : List Value) → (w : Value) → Prop where
  | items (arrays : List (List Value)) : Joins 0 (arrays.map .array) (.array arrays.flatten)
  | layers {d : Nat} {arrays : List (List Value)} {items : List Value}
    (length_eq : ∀ xs ∈ arrays, xs.length = items.length)
    (layer : ∀ i (hi : i < items.length), Joins d (layer arrays i) items[i]) :
    Joins (d + 1) (arrays.map .array) (.array items)

theorem itemsOfEach_map (arrays : List (List Value)) :
    itemsOfEach d (arrays.map .array) = .ok arrays := by
  induction arrays with
  | nil => rfl
  | cons xs arrays ih =>
    rw [itemsOfEach] at ih
    rw [itemsOfEach, List.map_cons, List.mapM_cons, ih]
    rfl

theorem eq_map_of_itemsOfEach (h : itemsOfEach d values = .ok arrays) :
    values = arrays.map .array := by
  refine List.ext_getElem (by simpa using (Except.length_of_mapM h).symm) fun i hi _ => ?_
  obtain ⟨hi', hitems⟩ := Except.getElem_of_mapM h hi
  rw [List.getElem_map]
  cases hv : values[i] with
  | scalar s =>
    rw [hv] at hitems
    cases hitems
  | array xs =>
    rw [hv] at hitems
    rw [Except.ok.inj hitems]

/-- At a position that all arrays have, the items there are the layer. -/
theorem filterMap_getElem? (hlen : ∀ xs ∈ arrays, xs.length = n) (hi : i < n) :
    (arrays.filterMap fun xs => xs[i]?) = layer arrays i := by
  rw [layer, ← List.filterMap_eq_map]
  refine List.filterMap_congr fun xs hxs => ?_
  have hlt : i < xs.length := hlen xs hxs ▸ hi
  simp [hlt]

theorem concatAt_zero_eq_ok : concatAt 0 values = .ok w ↔ Joins 0 values w := by
  rw [concatAt]
  constructor
  · intro h
    obtain ⟨arrays, harrays, h⟩ := Except.bind_eq_ok.mp h
    cases h
    rw [eq_map_of_itemsOfEach harrays]
    exact .items arrays
  · rintro ⟨arrays⟩
    rw [itemsOfEach_map]
    rfl

/-- Arrays with equally many items are joined layer by layer. -/
theorem concatAt_layers (hne : arrays ≠ []) (hlen : ∀ xs ∈ arrays, xs.length = n) :
    concatAt (d + 1) (arrays.map .array) =
      Value.array <$> (List.range n).mapM fun i => concatAt d (layer arrays i) := by
  obtain ⟨xs, rest, rfl⟩ := List.exists_cons_of_ne_nil hne
  -- The extent that the others are compared with is the one of the first.
  have hfirst : (Value.array xs).length = n := hlen xs List.mem_cons_self
  have heven : ((xs :: rest).map Value.array).find? (fun v => v.length ≠ n) = none := by
    rw [List.find?_eq_none]
    intro v hv
    obtain ⟨ys, hys, rfl⟩ := List.mem_map.mp hv
    simp [length, hlen ys hys]
  have hlayers : ∀ i ∈ List.range n, concatAt d ((xs :: rest).filterMap fun ys => ys[i]?) =
      concatAt d (layer (xs :: rest) i) := fun i hi => by
    rw [filterMap_getElem? hlen (List.mem_range.mp hi)]
  rw [concatAt, itemsOfEach_map, ← Except.mapM_congr hlayers]
  simp only [List.map_cons, List.headD_cons, hfirst] at heven ⊢
  simp only [bind, Except.bind, heven, pure, Except.pure]
  cases (List.range n).mapM fun i => concatAt d ((xs :: rest).filterMap fun ys => ys[i]?) <;> rfl

theorem exists_arrays_of_concatAt (hne : values ≠ []) (h : concatAt (d + 1) values = .ok w) :
    ∃ (arrays : List (List Value)) (n : Nat), values = arrays.map .array ∧
      ∀ xs ∈ arrays, xs.length = n := by
  rw [concatAt] at h
  obtain ⟨arrays, harrays, h⟩ := Except.bind_eq_ok.mp h
  cases eq_map_of_itemsOfEach harrays
  obtain ⟨xs, rest, rfl⟩ := List.exists_cons_of_ne_nil (by simpa using hne)
  refine ⟨xs :: rest, xs.length, rfl, fun ys hys => ?_⟩
  cases hfind : ((xs :: rest).map Value.array).find? fun v =>
    v.length ≠ (Value.array xs).length with
  | none =>
    have hys := List.find?_eq_none.mp hfind (.array ys) (List.mem_map_of_mem hys)
    exact not_not.mp fun hlen => hys (decide_eq_true hlen)
  | some bad =>
    simp only [List.map_cons, List.headD_cons] at h hfind
    rw [hfind] at h
    cases h

theorem concatAt_eq_ok (hne : values ≠ []) : concatAt d values = .ok w ↔ Joins d values w := by
  -- On the axis: within a layer it is one less, and the values are the items there.
  induction d generalizing values w with
  | zero => exact concatAt_zero_eq_ok
  | succ d ih =>
    constructor
    · intro h
      obtain ⟨arrays, n, rfl, hlen⟩ := exists_arrays_of_concatAt hne h
      have hne : arrays ≠ [] := by simpa using hne
      rw [concatAt_layers hne hlen] at h
      obtain ⟨items, hitems, rfl⟩ := Except.map_eq_ok.mp h
      have hn : items.length = n := by simpa using Except.length_of_mapM hitems
      refine .layers (fun xs hxs => (hlen xs hxs).trans hn.symm) fun i hi => ?_
      obtain ⟨_, hitem⟩ := Except.getElem_of_mapM hitems (j := i) (by simpa [hn] using hi)
      rw [List.getElem_range] at hitem
      exact (ih (by simpa [layer] using hne)).mp hitem
    · intro h
      cases h with
      | @layers _ arrays items hlen hlayers =>
        have hne : arrays ≠ [] := by simpa using hne
        rw [concatAt_layers hne hlen, Except.map_eq_ok]
        refine ⟨items, Except.mapM_eq_ok List.length_range fun i _ hi => ?_, rfl⟩
        rw [List.getElem_range]
        exact (ih (by simpa [layer] using hne)).mpr (hlayers i hi)

/-! ## Pieces -/

/-- Rectangular values that have the axis `d` and agree on every axis outside it. -/
structure Pieces (d : Nat) (values : List Value) : Prop where
  rect : ∀ v ∈ values, v.Rect
  axis : ∀ v ∈ values, d < v.rank
  outside : ∀ v ∈ values, ∀ u ∈ values, v.dims.take d = u.dims.take d

theorem Rect.dims_getD {xs : List Value} (h : Rect (.array xs)) (hi : i < xs.length) :
    (Value.array xs).dims = xs.length :: (xs.getD i default).dims :=
  h.dims_eq (getD_mem hi)

/-- The extent on the axis `d`. -/
def extentAt (d : Nat) (v : Value) : Nat := v.dims.getD d 0

@[simp] theorem extentAt_zero_array (xs : List Value) :
    (Value.array xs).extentAt 0 = xs.length := by
  cases xs <;> rfl

theorem Rect.extentAt_succ {xs : List Value} (h : Rect (.array xs)) (hi : i < xs.length) :
    (Value.array xs).extentAt (d + 1) = (xs.getD i default).extentAt d := by
  rw [extentAt, h.dims_getD hi, List.getD_cons_succ, extentAt]

theorem Rect.rank_getD {xs : List Value} (h : Rect (.array xs)) (hi : i < xs.length) :
    (Value.array xs).rank = (xs.getD i default).rank + 1 :=
  h.rank_eq (getD_mem hi)

section Layers

variable (hrect : ∀ xs ∈ arrays, Rect (.array xs)) (hlen : ∀ xs ∈ arrays, xs.length = n)
  (hi : i < n)

include hrect hlen hi

theorem map_dims_layer :
    (arrays.map Value.array).map dims = ((layer arrays i).map dims).map (n :: ·) := by
  rw [layer, List.map_map, List.map_map, List.map_map]
  refine List.map_congr_left fun xs hxs => ?_
  have hlt : i < xs.length := hlen xs hxs ▸ hi
  simpa [hlen xs hxs] using (hrect xs hxs).dims_getD hlt

theorem pieces_succ_iff : Pieces (d + 1) (arrays.map .array) ↔ Pieces d (layer arrays i) := by
  have hlt : ∀ xs ∈ arrays, i < xs.length := fun xs hxs => hlen xs hxs ▸ hi
  have haxis : ∀ xs ∈ arrays, d + 1 < (Value.array xs).rank ↔ d < (xs.getD i default).rank :=
    fun xs hxs => by rw [(hrect xs hxs).rank_getD (hlt xs hxs), Nat.add_lt_add_iff_right]
  have hdims : ∀ xs ∈ arrays, (Value.array xs).dims.take (d + 1) =
      n :: (xs.getD i default).dims.take d := fun xs hxs => by
    rw [(hrect xs hxs).dims_getD (hlt xs hxs), hlen xs hxs, List.take_succ_cons]
  have houtside : ∀ xs ∈ arrays, ∀ ys ∈ arrays,
      (Value.array xs).dims.take (d + 1) = (Value.array ys).dims.take (d + 1) ↔
        (xs.getD i default).dims.take d = (ys.getD i default).dims.take d :=
    fun xs hxs ys hys => by rw [hdims xs hxs, hdims ys hys, List.cons_inj_right]
  constructor
  · rintro ⟨-, h, h'⟩
    simp only [List.forall_mem_map] at h h'
    refine ⟨?_, ?_, ?_⟩ <;> simp only [layer, List.forall_mem_map]
    · exact fun xs hxs => (hrect xs hxs).of_mem (getD_mem (hlt xs hxs))
    · exact fun xs hxs => (haxis xs hxs).mp (h xs hxs)
    · exact fun xs hxs ys hys => (houtside xs hxs ys hys).mp (h' xs hxs ys hys)
  · rintro ⟨-, h, h'⟩
    simp only [layer, List.forall_mem_map] at h h'
    refine ⟨?_, ?_, ?_⟩ <;> simp only [List.forall_mem_map]
    · exact hrect
    · exact fun xs hxs => (haxis xs hxs).mpr (h xs hxs)
    · exact fun xs hxs ys hys => (houtside xs hxs ys hys).mpr (h' xs hxs ys hys)

end Layers

@[simp] theorem getElem?_dims_array (xs : List Value) :
    (Value.array xs).dims[0]? = some xs.length := by
  cases xs <;> rfl

theorem rank_array_pos (xs : List Value) : 0 < (Value.array xs).rank := by
  cases xs <;> simp [rank]

theorem length_pos_of_rank {xs : List Value} (h : d + 1 < (Value.array xs).rank) :
    0 < xs.length := by
  cases xs with
  | nil => exact absurd h (by simp [rank])
  | cons v xs => exact Nat.succ_pos _

theorem exists_arrays_of_rank (h : ∀ v ∈ values, d < v.rank) :
    ∃ arrays : List (List Value), values = arrays.map .array := by
  have hrange : values ∈ Set.range (List.map Value.array) := by
    refine (Set.range_list_map _).ge fun v hv => ?_
    obtain ⟨k, hk⟩ := Nat.exists_eq_add_of_lt (h v hv)
    obtain ⟨xs, rfl⟩ := eq_array_of_rank hk
    exact ⟨xs, rfl⟩
  obtain ⟨arrays, rfl⟩ := hrange
  exact ⟨arrays, rfl⟩

theorem layer_ne_nil (hne : arrays ≠ []) : layer arrays i ≠ [] := by
  simpa [layer] using hne

namespace Pieces

variable (h : Pieces (d + 1) (arrays.map .array))

include h

theorem rect_array : ∀ xs ∈ arrays, Rect (.array xs) :=
  fun _ hxs => h.rect _ (List.mem_map_of_mem hxs)

/-- Every array has the extent of the others on the outermost axis. -/
theorem exists_length : ∃ n, ∀ xs ∈ arrays, xs.length = n := by
  cases arrays with
  | nil => exact ⟨0, fun _ hxs => nomatch hxs⟩
  | cons xs arrays =>
    refine ⟨xs.length, fun ys hys => ?_⟩
    have heq := congrArg (·[0]?) (h.outside _ (List.mem_map_of_mem hys) (.array xs) (by simp))
    simpa [List.getElem?_take_of_lt (Nat.succ_pos d)] using heq

theorem length_pos (hne : arrays ≠ []) (hlen : ∀ xs ∈ arrays, xs.length = n) : 0 < n := by
  obtain ⟨xs, hxs⟩ := List.exists_mem_of_ne_nil arrays hne
  exact hlen xs hxs ▸ length_pos_of_rank (h.axis _ (List.mem_map_of_mem hxs))

theorem layer (hlen : ∀ xs ∈ arrays, xs.length = n) (hi : i < n) : Pieces d (layer arrays i) :=
  (pieces_succ_iff h.rect_array hlen hi).mp h

end Pieces

/-- The values that are joined are pieces, if the axis is one of theirs. -/
theorem Joins.pieces (h : Joins d values w) (hrect : ∀ v ∈ values, v.Rect)
    (haxis : ∃ v ∈ values, d < v.rank) : Pieces d values := by
  induction h with
  | items arrays =>
    refine ⟨hrect, fun v hv => ?_, fun v _ u _ => by rw [List.take_zero, List.take_zero]⟩
    obtain ⟨xs, _, rfl⟩ := List.mem_map.mp hv
    exact rank_array_pos xs
  | @layers d arrays items hlen _ ih =>
    simp only [List.forall_mem_map] at hrect
    obtain ⟨_, hv, haxis⟩ := haxis
    obtain ⟨xs, hxs, rfl⟩ := List.mem_map.mp hv
    -- The first layer already has all that is known of the axes.
    have hpos : 0 < items.length := hlen xs hxs ▸ length_pos_of_rank haxis
    have hlt : ∀ ys ∈ arrays, 0 < ys.length := fun ys hys => hlen ys hys ▸ hpos
    refine (pieces_succ_iff hrect hlen hpos).mpr (ih 0 hpos ?_ ⟨_, List.mem_map_of_mem hxs, ?_⟩)
    · simp only [layer, List.forall_mem_map]
      exact fun ys hys => (hrect ys hys).of_mem (getD_mem (hlt ys hys))
    · rw [(hrect xs hxs).rank_getD (hlt xs hxs)] at haxis
      exact Nat.lt_of_succ_lt_succ haxis

/-- Pieces can be joined. -/
theorem Pieces.exists_joins (h : Pieces d values) (hne : values ≠ []) : ∃ w, Joins d values w := by
  induction d generalizing values with
  | zero =>
    obtain ⟨arrays, rfl⟩ := exists_arrays_of_rank h.axis
    exact ⟨_, .items arrays⟩
  | succ d ih =>
    obtain ⟨arrays, rfl⟩ := exists_arrays_of_rank h.axis
    have hne : arrays ≠ [] := by simpa using hne
    obtain ⟨n, hlen⟩ := h.exists_length
    have hlayers (i : Fin n) : ∃ w, Joins d (Value.layer arrays i) w :=
      ih (h.layer hlen i.isLt) (layer_ne_nil hne)
    choose item hitem using hlayers
    refine ⟨.array (List.ofFn item), .layers ?_ fun i hi => ?_⟩
    · simpa using hlen
    · simpa using hitem ⟨i, by simpa using hi⟩

/-! ## The extents of a join -/

/-- The extents of a join along the axis `d`: those outside it are the ones of the first value, and
those inside it are the ones of the first value that has items there. -/
def joinedDims (d : Nat) (ds : List (List Nat)) : List Nat :=
  (ds.headD []).take d ++ (ds.map (·.getD d 0)).sum ::
    ((ds.find? fun ns => ns.getD d 0 ≠ 0).getD []).drop (d + 1)

theorem joinedDims_succ {ds : List (List Nat)} (hne : ds ≠ []) :
    joinedDims (d + 1) (ds.map (n :: ·)) = n :: joinedDims d ds := by
  obtain ⟨ns, ds, rfl⟩ := List.exists_cons_of_ne_nil hne
  rw [joinedDims, joinedDims, List.find?_map, List.map_map]
  simp only [Function.comp_def, List.getD_cons_succ]
  cases (ns :: ds).find? fun ns => ns.getD d 0 ≠ 0 <;> simp

theorem dims_flatten (arrays : List (List Value)) :
    (Value.array arrays.flatten).dims = joinedDims 0 ((arrays.map Value.array).map dims) := by
  induction arrays with
  | nil => rfl
  | cons xs arrays ih =>
    cases xs with
    | nil => simpa [joinedDims] using ih
    | cons v xs => simp [joinedDims, Function.comp_def, Nat.add_right_comm]

theorem Joins.dims_eq (h : Joins d values w) (hpieces : Pieces d values) (hne : values ≠ []) :
    w.dims = joinedDims d (values.map dims) := by
  induction h with
  | items arrays => exact dims_flatten arrays
  | @layers d arrays items hlen hlayers ih =>
    have hne : arrays ≠ [] := by simpa using hne
    have hpos := hpieces.length_pos hne hlen
    -- Extents are read off the first layer, which exists as the values reach inside this axis.
    have hfirst := ih 0 hpos (hpieces.layer hlen hpos) (layer_ne_nil hne)
    obtain ⟨w, items, rfl⟩ := List.exists_cons_of_length_pos hpos
    rw [map_dims_layer hpieces.rect_array hlen hpos,
      joinedDims_succ (by simpa using layer_ne_nil hne), ← hfirst]
    rfl

/-- The values that have items on the axis `d` agree on every axis inside it. -/
def AgreeInside (d : Nat) (values : List Value) : Prop :=
  ∀ v ∈ values, ∀ u ∈ values, v.extentAt d ≠ 0 → u.extentAt d ≠ 0 →
    v.dims.drop (d + 1) = u.dims.drop (d + 1)

theorem agreeInside_zero_iff (hrect : ∀ xs ∈ arrays, Rect (.array xs)) :
    AgreeInside 0 (arrays.map .array) ↔
      ∀ v ∈ arrays.flatten, ∀ u ∈ arrays.flatten, v.dims = u.dims := by
  have hdims {xs : List Value} {v : Value} (hxs : xs ∈ arrays) (hv : v ∈ xs) :
      (Value.array xs).dims = xs.length :: v.dims := (hrect xs hxs).dims_eq hv
  simp only [AgreeInside, List.forall_mem_map]
  constructor
  · intro h v hv u hu
    obtain ⟨xs, hxs, hv⟩ := List.mem_flatten.mp hv
    obtain ⟨ys, hys, hu⟩ := List.mem_flatten.mp hu
    have heq := h xs hxs ys hys
    rw [hdims hxs hv, hdims hys hu, extentAt_zero_array, extentAt_zero_array] at heq
    exact heq (List.length_pos_of_mem hv).ne' (List.length_pos_of_mem hu).ne'
  · intro h xs hxs ys hys hx hy
    obtain ⟨v, hv⟩ := List.exists_mem_of_ne_nil xs (by simpa using hx)
    obtain ⟨u, hu⟩ := List.exists_mem_of_ne_nil ys (by simpa using hy)
    rw [hdims hxs hv, hdims hys hu]
    exact h v (List.mem_flatten_of_mem hxs hv) u (List.mem_flatten_of_mem hys hu)

theorem agreeInside_succ_iff (hrect : ∀ xs ∈ arrays, Rect (.array xs))
    (hlen : ∀ xs ∈ arrays, xs.length = n) (hi : i < n) :
    AgreeInside (d + 1) (arrays.map .array) ↔ AgreeInside d (layer arrays i) := by
  have hlt : ∀ xs ∈ arrays, i < xs.length := fun xs hxs => hlen xs hxs ▸ hi
  have hdims : ∀ xs ∈ arrays, (Value.array xs).dims = n :: (xs.getD i default).dims :=
    fun xs hxs => hlen xs hxs ▸ (hrect xs hxs).dims_getD (hlt xs hxs)
  simp only [AgreeInside, layer, List.forall_mem_map]
  refine forall₂_congr fun xs hxs => forall₂_congr fun ys hys => ?_
  rw [hdims xs hxs, hdims ys hys, (hrect xs hxs).extentAt_succ (hlt xs hxs),
    (hrect ys hys).extentAt_succ (hlt ys hys)]
  rfl

/-- A join is rectangular exactly if the values that have items to join agree on their extents. -/
theorem Joins.rect_iff (h : Joins d values w) (hpieces : Pieces d values) (hne : values ≠ []) :
    w.Rect ↔ AgreeInside d values := by
  induction h with
  | items arrays =>
    have hrect : ∀ xs ∈ arrays, Rect (.array xs) := fun _ hxs =>
      hpieces.rect _ (List.mem_map_of_mem hxs)
    rw [agreeInside_zero_iff hrect]
    constructor
    · rintro ⟨⟩
      assumption
    · intro h
      refine .array (fun v hv => ?_) h
      obtain ⟨xs, hxs, hv⟩ := List.mem_flatten.mp hv
      exact (hrect xs hxs).of_mem hv
  | @layers d arrays items hlen hlayers ih =>
    have hne : arrays ≠ [] := by simpa using hne
    have hpos := hpieces.length_pos hne hlen
    have hrect := hpieces.rect_array
    have ih (i : Nat) (hi : i < items.length) :=
      (ih i hi (hpieces.layer hlen hi) (layer_ne_nil hne)).trans
        (agreeInside_succ_iff hrect hlen hi).symm
    -- The pieces of a layer have the extents of those of the first one, and so does their join.
    have hdims (i : Nat) (hi : i < items.length) : items[i].dims = items[0].dims := by
      rw [(hlayers i hi).dims_eq (hpieces.layer hlen hi) (layer_ne_nil hne),
        (hlayers 0 hpos).dims_eq (hpieces.layer hlen hpos) (layer_ne_nil hne)]
      have hinj : Function.Injective (List.map (items.length :: ·)) :=
        List.map_injective_iff.mpr (List.cons_injective (a := items.length))
      refine congrArg (joinedDims d) (hinj ?_)
      rw [← map_dims_layer hrect hlen hi, ← map_dims_layer hrect hlen hpos]
    constructor
    · intro h
      exact (ih 0 hpos).mp (h.of_mem (List.getElem_mem hpos))
    · intro h
      refine .array (fun v hv => ?_) fun v hv u hu => ?_
      · obtain ⟨i, hi, rfl⟩ := List.getElem_of_mem hv
        exact (ih i hi).mpr h
      · obtain ⟨i, hi, rfl⟩ := List.getElem_of_mem hv
        obtain ⟨j, hj, rfl⟩ := List.getElem_of_mem hu
        rw [hdims i hi, hdims j hj]

/-! ## Joins of values -/

/-- The axis that is meant: a negative one is the last axis of the first value. -/
def joinAxis (values : List Value) (axis : Int) : Nat :=
  if axis < 0 then (values.headD default).rank - 1 else axis.toNat

theorem concat_eq_ok {axis : Int} (hne : values ≠ []) : concat values axis = .ok w ↔
    joinAxis values axis < (values.headD default).rank ∧ Joins (joinAxis values axis) values w := by
  obtain ⟨v, values, rfl⟩ := List.exists_cons_of_ne_nil hne
  have hconcat : concat (v :: values) axis =
      if v.rank ≤ joinAxis (v :: values) axis then
        .error (.invalidAxis (joinAxis (v :: values) axis) v.rank)
      else concatAt (joinAxis (v :: values) axis) (v :: values) := rfl
  rw [hconcat, ← concatAt_eq_ok hne, List.headD_cons]
  split
  · next h => simp [Nat.not_lt.mpr h]
  · next h => simp [Nat.lt_of_not_le h]

/-- Rectangular values are joined exactly if they are pieces. -/
theorem exists_concat_iff (axis : Int) (hne : values ≠ []) (hrect : ∀ v ∈ values, v.Rect) :
    (∃ w, concat values axis = .ok w) ↔ Pieces (joinAxis values axis) values := by
  have hmem : values.headD default ∈ values := by
    obtain ⟨v, values, rfl⟩ := List.exists_cons_of_ne_nil hne
    exact List.mem_cons_self
  simp only [concat_eq_ok hne]
  constructor
  · rintro ⟨w, haxis, hw⟩
    exact hw.pieces hrect ⟨_, hmem, haxis⟩
  · intro h
    obtain ⟨w, hw⟩ := h.exists_joins hne
    exact ⟨w, h.axis _ hmem, hw⟩

/-- What they are joined to is rectangular exactly if all pieces with items to join agree. -/
theorem rect_of_concat_iff {axis : Int} (hne : values ≠ []) (hrect : ∀ v ∈ values, v.Rect)
    (h : concat values axis = .ok w) : w.Rect ↔ AgreeInside (joinAxis values axis) values :=
  ((concat_eq_ok hne).mp h).2.rect_iff ((exists_concat_iff axis hne hrect).mp ⟨w, h⟩) hne

theorem joinAxis_natCast (values : List Value) (d : Nat) : joinAxis values d = d := by
  simp [joinAxis]

/-! ## Values that differ on the joined axis only -/

/-- Rectangular values of one rank that have the axis `d` and agree on every other axis. -/
structure Aligned (d : Nat) (values : List Value) : Prop where
  rect : ∀ v ∈ values, v.Rect
  axis : ∀ v ∈ values, d < v.rank
  rank_eq : ∀ v ∈ values, ∀ u ∈ values, v.rank = u.rank
  others : ∀ v ∈ values, ∀ u ∈ values, v.dims.eraseIdx d = u.dims.eraseIdx d

theorem aligned_iff : Aligned d values ↔ Pieces d values ∧
    ∀ v ∈ values, ∀ u ∈ values, v.dims.drop (d + 1) = u.dims.drop (d + 1) := by
  constructor
  · rintro ⟨hrect, haxis, hrank, hothers⟩
    have hsplit : ∀ v ∈ values, ∀ u ∈ values,
        v.dims.take d = u.dims.take d ∧ v.dims.drop (d + 1) = u.dims.drop (d + 1) := by
      intro v hv u hu
      have heq := hothers v hv u hu
      rw [List.eraseIdx_eq_take_drop_succ, List.eraseIdx_eq_take_drop_succ] at heq
      refine List.append_inj heq ?_
      rw [List.length_take, List.length_take, length_dims, length_dims, hrank v hv u hu]
    exact ⟨⟨hrect, haxis, fun v hv u hu => (hsplit v hv u hu).1⟩,
      fun v hv u hu => (hsplit v hv u hu).2⟩
  · rintro ⟨⟨hrect, haxis, houtside⟩, hinside⟩
    refine ⟨hrect, haxis, fun v hv u hu => ?_, fun v hv u hu => ?_⟩
    · have hlen := congrArg List.length (hinside v hv u hu)
      rw [List.length_drop, List.length_drop, length_dims, length_dims] at hlen
      have := haxis v hv
      have := haxis u hu
      omega
    · rw [List.eraseIdx_eq_take_drop_succ, List.eraseIdx_eq_take_drop_succ,
        houtside v hv u hu, hinside v hv u hu]

theorem Aligned.agreeInside (h : Aligned d values) : AgreeInside d values :=
  fun v hv u hu _ _ => (aligned_iff.mp h).2 v hv u hu

/-- If pieces agree on the axes inside the joined one, then a join is rectangular, and values are
refused that differ in rank or in their extent on another axis. -/
theorem joins_evenly (axis : Int) (hrect : ∀ v ∈ values, v.Rect)
    (hinside : Pieces (joinAxis values axis) values → ∀ v ∈ values, ∀ u ∈ values,
      v.dims.drop (joinAxis values axis + 1) = u.dims.drop (joinAxis values axis + 1)) :
    (∀ w, concat values axis = .ok w → w.Rect) ∧
      ((∃ v ∈ values, ∃ u ∈ values, v.rank ≠ u.rank ∨
          v.dims.eraseIdx (joinAxis values axis) ≠ u.dims.eraseIdx (joinAxis values axis)) →
        ∃ f, concat values axis = .error f) := by
  rcases eq_or_ne values [] with rfl | hne
  · refine ⟨fun w hw => ?_, fun ⟨v, hv, _⟩ => nomatch hv⟩
    cases hw
    exact .array (fun v hv => nomatch hv) (fun v hv => nomatch hv)
  have haligned {w : Value} (hw : concat values axis = .ok w) :
      Aligned (joinAxis values axis) values :=
    have hpieces := (exists_concat_iff axis hne hrect).mp ⟨w, hw⟩
    aligned_iff.mpr ⟨hpieces, hinside hpieces⟩
  refine ⟨fun w hw => (rect_of_concat_iff hne hrect hw).mpr (haligned hw).agreeInside, ?_⟩
  rintro ⟨v, hv, u, hu, hdiffer⟩
  cases hw : concat values axis with
  | error f => exact ⟨f, rfl⟩
  | ok w =>
    rcases hdiffer with hdiffer | hdiffer
    · exact absurd ((haligned hw).rank_eq v hv u hu) hdiffer
    · exact absurd ((haligned hw).others v hv u hu) hdiffer

theorem rect_ofWords (ns : List Int64) : (ofWords ns).Rect :=
  .array (by simp [ofWord, Rect.scalar]) (by simp [ofWord, dims])

theorem dims_ofWords (ns : List Int64) : (ofWords ns).dims = [ns.length] := by
  cases ns <;> simp [ofWords, ofWord, dims]

def ofRows (rows : List (List Int64)) : Value := .array (rows.map ofWords)

/-- Rows of one length. -/
theorem rect_ofRows {rows : List (List Int64)}
    (h : ∀ ns ∈ rows, ∀ ms ∈ rows, ns.length = ms.length) : (ofRows rows).Rect := by
  refine .array ?_ ?_ <;> simp only [List.forall_mem_map, dims_ofWords]
  · exact fun ns _ => rect_ofWords ns
  · exact fun ns hns ms hms => congrArg (fun n => [n]) (h ns hns ms hms)

/-- A row is joined to two others of its length below them, and refused beside them. -/
theorem joins_evenly_rows :
    let values := [ofRows [[1, 2], [3, 4]], ofRows [[5, 6]]]
    (∀ v ∈ values, v.Rect) ∧
      (∃ w, concat values 0 = .ok w ∧ w.Rect) ∧ ∃ f, concat values 1 = .error f := by
  intro values
  have hrect : ∀ v ∈ values, v.Rect := by
    simp only [values, List.forall_mem_cons]
    exact ⟨rect_ofRows (by simp), rect_ofRows (by simp), by simp⟩
  have hbelow := (joins_evenly 0 hrect fun _ => by decide).1
  have hbeside := (joins_evenly 1 hrect fun h => absurd h.outside (by decide)).2
  exact ⟨hrect, ⟨_, rfl, hbelow _ rfl⟩, hbeside (by decide)⟩

/-- Of two rows of another length, one is joined below the other. -/
theorem joins_evenly_fails :
    ¬ ∀ (values : List Value) (axis : Int), (∀ v ∈ values, v.Rect) →
      (∀ w, concat values axis = .ok w → w.Rect) ∧
        ((∃ v ∈ values, ∃ u ∈ values, v.rank ≠ u.rank ∨
            v.dims.eraseIdx (joinAxis values axis) ≠ u.dims.eraseIdx (joinAxis values axis)) →
          ∃ f, concat values axis = .error f) := by
  intro h
  have hrect : ∀ v ∈ [ofRows [[1, 2]], ofRows [[3]]], v.Rect := by
    simp only [List.forall_mem_cons]
    exact ⟨rect_ofRows (by simp), rect_ofRows (by simp), by simp⟩
  have hjoined := (h _ 0 hrect).1 (ofRows [[1, 2], [3]]) rfl
  cases hjoined with
  | array items even => cases even (ofWords [1, 2]) (by simp) (ofWords [3]) (by simp)

end Dataflow.Value
