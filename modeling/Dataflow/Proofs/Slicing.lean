import Dataflow.Rearrange.Slice
import Dataflow.Proofs.Joining
import Mathlib.Algebra.BigOperators.Group.List.Lemmas

/-!
# Slicing a join

A slice that takes every axis whole but one reaches through the axes outside that one, and cuts the
items of that axis. What was joined along an axis lies there side by side, so that a slice gives it
back: it begins behind the extents of the values before it, and has the extent of the value itself.
-/

namespace Dataflow.Value

variable {arrays : List (List Value)} {values : List Value} {w : Value} {d n i : Nat}

/-! ## Whole axes -/

theorem sliceAt_array {xs : List Value} {start size : Int} {box : List (Int × Int)}
    {first last : Nat} (hstart : start = first) (hfirst : first ≤ xs.length)
    (hstop : stop xs.length first size = .ok last) :
    sliceAt ((start, size) :: box) (.array xs) =
      Value.array <$> ((xs.take last).drop first).mapM (sliceAt box) := by
  subst hstart
  have hbounds : ¬ ((first : Int) < 0 ∨ (xs.length : Int) < first) := by omega
  have hitems : (Value.array xs).items?.getD [] = xs := rfl
  rw [sliceAt]
  simp only [hitems, if_neg hbounds, Int.toNat_natCast, hstop, bind, Except.bind, pure, Except.pure]
  cases ((xs.take last).drop first).mapM (sliceAt box) <;> rfl

theorem sliceAt_array_whole (xs : List Value) (box : List (Int × Int)) :
    sliceAt ((0, -1) :: box) (.array xs) = Value.array <$> xs.mapM (sliceAt box) := by
  have hwhole : sliceAt ((0, -1) :: box) (.array xs) =
      Value.array <$> ((xs.take xs.length).drop 0).mapM (sliceAt box) :=
    sliceAt_array rfl (Nat.zero_le _) (by simp [stop])
  rwa [List.take_length, List.drop_zero] at hwhole

/-- A slice that begins at the first item of each axis and reaches to its end is the value. -/
theorem Rect.sliceAt_whole {v : Value} (h : v.Rect) (hn : n ≤ v.rank) :
    sliceAt (List.replicate n (0, -1)) v = .ok v := by
  induction h generalizing n with
  | scalar s =>
    rw [Nat.le_zero.mp hn]
    rfl
  | @array vs items even ih =>
    cases n with
    | zero => rfl
    | succ n =>
      have hitems : vs.mapM (sliceAt (List.replicate n (0, -1))) = .ok vs := by
        refine Except.mapM_eq_ok rfl fun i hi _ => ih _ (List.getElem_mem hi) ?_
        have := (Rect.array items even).rank_eq (List.getElem_mem hi)
        omega
      rw [List.replicate_succ, sliceAt_array_whole, hitems]
      rfl

/-- The box that leaves every axis whole but `d`. -/
def cut (d n start size : Nat) : List (Int × Int) :=
  List.replicate d (0, -1) ++ ((start : Int), (size : Int)) :: List.replicate n (0, -1)

theorem cut_succ (d n start size : Nat) :
    cut (d + 1) n start size = (0, -1) :: cut d n start size := rfl

/-- The extents on the axis `d` of the values before the `k`-th one. -/
def offsetAt (d : Nat) (values : List Value) (k : Nat) : Nat :=
  ((values.map (extentAt d)).take k).sum

theorem offsetAt_zero_arrays (arrays : List (List Value)) (k : Nat) :
    offsetAt 0 (arrays.map .array) k = ((arrays.map List.length).take k).sum := by
  simp [offsetAt, Function.comp_def]

/-- A join along the outermost axis is cut into the items of each value. -/
theorem sliceAt_cut_flatten (hrect : ∀ xs ∈ arrays, Rect (.array xs))
    (hrank : ∀ xs ∈ arrays, n + 1 ≤ (Value.array xs).rank) {k : Nat} (hk : k < arrays.length) :
    sliceAt (cut 0 n ((arrays.map List.length).take k).sum arrays[k].length)
      (.array arrays.flatten) = .ok (.array arrays[k]) := by
  have hmem := List.getElem_mem hk
  -- A name for the sum, which the arithmetic below need not look into.
  obtain ⟨start, hstart⟩ : ∃ start, ((arrays.map List.length).take k).sum = start := ⟨_, rfl⟩
  have hlast : ((arrays.map List.length).take (k + 1)).sum = start + arrays[k].length := by
    rw [List.take_succ_eq_append_getElem (by simpa using hk), List.sum_append, hstart]
    simp
  have hbound : start + arrays[k].length ≤ arrays.flatten.length := by
    rw [← hlast, List.length_flatten,
      ← List.sum_take_add_sum_drop (arrays.map List.length) (k + 1)]
    exact Nat.le_add_right _ _
  have hpiece : (arrays.flatten.take (start + arrays[k].length)).drop start = arrays[k] := by
    rw [← hlast, ← hstart]
    exact List.drop_take_succ_flatten_eq_getElem arrays k hk
  have hitems : arrays[k].mapM (sliceAt (List.replicate n (0, -1))) = .ok arrays[k] := by
    refine Except.mapM_eq_ok rfl fun i hi _ => ?_
    have hi := List.getElem_mem hi
    have hle := hrank _ hmem
    rw [(hrect _ hmem).rank_eq hi] at hle
    exact ((hrect _ hmem).of_mem hi).sliceAt_whole (Nat.le_of_succ_le_succ hle)
  have hstop : stop arrays.flatten.length start arrays[k].length =
      .ok (start + arrays[k].length) := by
    rw [stop, if_neg (by omega), if_neg (by omega), if_neg (by omega), Int.toNat_natCast]
  rw [cut, List.replicate_zero, List.nil_append, hstart, sliceAt_array rfl (by omega) hstop, hpiece,
    hitems]
  rfl

theorem map_extentAt_layer (hrect : ∀ xs ∈ arrays, Rect (.array xs))
    (hlen : ∀ xs ∈ arrays, xs.length = n) (hi : i < n) :
    (arrays.map Value.array).map (extentAt (d + 1)) = (layer arrays i).map (extentAt d) := by
  rw [layer, List.map_map, List.map_map]
  exact List.map_congr_left fun xs hxs => (hrect xs hxs).extentAt_succ (hlen xs hxs ▸ hi)

theorem offsetAt_succ (hrect : ∀ xs ∈ arrays, Rect (.array xs))
    (hlen : ∀ xs ∈ arrays, xs.length = n) (hi : i < n) (k : Nat) :
    offsetAt (d + 1) (arrays.map .array) k = offsetAt d (layer arrays i) k := by
  rw [offsetAt, map_extentAt_layer hrect hlen hi, offsetAt]

/-- A join is cut into the values it was made of. -/
theorem Joins.sliceAt_cut (h : Joins d values w) (hpieces : Pieces d values)
    (hrank : ∀ v ∈ values, d + n + 1 ≤ v.rank) {k : Nat} (hk : k < values.length) :
    sliceAt (cut d n (offsetAt d values k) (values[k].extentAt d)) w = .ok values[k] := by
  induction h with
  | items arrays =>
    have hrect : ∀ xs ∈ arrays, Rect (.array xs) := fun _ hxs =>
      hpieces.rect _ (List.mem_map_of_mem hxs)
    simp only [List.forall_mem_map, zero_add] at hrank
    simp only [offsetAt_zero_arrays, List.getElem_map, extentAt_zero_array]
    exact sliceAt_cut_flatten hrect hrank (by simpa using hk)
  | @layers d arrays items hlen hlayers ih =>
    have hk' : k < arrays.length := by simpa using hk
    have hrect := hpieces.rect_array
    have hmem := List.getElem_mem hk'
    simp only [List.forall_mem_map] at hrank
    -- Every layer is cut in the same place, since the layers have the same offsets.
    have hitem (i : Nat) (hi : i < items.length) :
        sliceAt (cut d n (offsetAt (d + 1) (arrays.map .array) k)
          ((Value.array arrays[k]).extentAt (d + 1))) items[i] =
            .ok (arrays[k].getD i default) := by
      have hlt : ∀ xs ∈ arrays, i < xs.length := fun xs hxs => hlen xs hxs ▸ hi
      have hlayer : ∀ v ∈ layer arrays i, d + n + 1 ≤ v.rank := by
        simp only [layer, List.forall_mem_map]
        intro xs hxs
        have := hrank xs hxs
        rw [(hrect xs hxs).rank_getD (hlt xs hxs)] at this
        omega
      rw [offsetAt_succ hrect hlen hi, (hrect _ hmem).extentAt_succ (hlt _ hmem)]
      simpa [layer] using ih i hi (hpieces.layer hlen hi) hlayer (by simpa [layer] using hk')
    have hitems : items.mapM (sliceAt (cut d n (offsetAt (d + 1) (arrays.map .array) k)
        ((Value.array arrays[k]).extentAt (d + 1)))) = .ok arrays[k] :=
      Except.mapM_eq_ok (hlen _ hmem).symm fun i hi hi' => by simpa [hi'] using hitem i hi
    rw [List.getElem_map, cut_succ, sliceAt_array_whole, hitems]
    rfl

/-! ## Slices that give the values back -/

theorem replicate_set {α : Type} {r : Nat} (hd : d < r) (a x : α) :
    (List.replicate r a).set d x = List.replicate d a ++ x :: List.replicate (r - d - 1) a := by
  rw [List.set_eq_take_append_cons_drop, if_pos (by simpa using hd), List.take_replicate,
    List.drop_replicate, Nat.min_eq_left hd.le, Nat.sub_sub]

/-- The box of a slice that takes every axis whole but `d`. -/
theorem zip_set_replicate {r : Nat} (hd : d < r) (start size : Nat) :
    ((List.replicate r (0 : Int)).set d start).zip ((List.replicate r (-1 : Int)).set d size) =
      cut d (r - d - 1) start size := by
  rw [replicate_set hd, replicate_set hd, List.zip_append (by simp), List.zip_cons_cons,
    List.zip_replicate, List.zip_replicate, Nat.min_self, Nat.min_self, cut]

/-- An empty axis is the last one. -/
theorem drop_dims_eq_nil {v : Value} (h : v.extentAt d = 0) : v.dims.drop (d + 1) = [] := by
  induction d generalizing v with
  | zero =>
    cases v with
    | scalar s => rfl
    | array xs =>
      rw [extentAt_zero_array] at h
      rw [List.length_eq_zero_iff.mp h]
      rfl
  | succ d ih =>
    cases v with
    | scalar s => rfl
    | array xs =>
      cases xs with
      | nil => rfl
      | cons x xs => exact ih h

/-- The extents of the joined axis add up, and those of the other axes stay. -/
theorem Aligned.joinedDims_eq (h : Aligned d values) {v : Value} (hv : v ∈ values) :
    joinedDims d (values.map dims) = v.dims.set d (values.map (extentAt d)).sum := by
  obtain ⟨hpieces, hinside⟩ := aligned_iff.mp h
  have houter : ((values.map dims).headD []).take d = v.dims.take d := by
    obtain ⟨u, us, rfl⟩ := List.exists_cons_of_ne_nil (List.ne_nil_of_mem hv)
    exact hpieces.outside u List.mem_cons_self v hv
  have hinner : (((values.map dims).find? fun ns => ns.getD d 0 ≠ 0).getD []).drop (d + 1) =
      v.dims.drop (d + 1) := by
    rw [List.find?_map]
    cases hfind : values.find? ((fun ns => decide (ns.getD d 0 ≠ 0)) ∘ dims) with
    | none =>
      -- No value has items there, and so none has an axis inside.
      have hzero := List.find?_eq_none.mp hfind v hv
      exact (drop_dims_eq_nil (not_not.mp fun hne => hzero (decide_eq_true hne))).symm
    | some u => exact hinside u (List.mem_of_find?_eq_some hfind) v hv
  have hlt : d < v.dims.length := length_dims v ▸ h.axis v hv
  rw [joinedDims, houter, hinner, List.map_map, List.set_eq_take_append_cons_drop, if_pos hlt]
  rfl

/-- Rectangular values that differ on the axis `d` only are joined to a rectangular one, on which
their extents add up, and slices of it give each of them back. -/
theorem slices_undo_join {r : Nat} (hne : values ≠ []) (hrect : ∀ v ∈ values, v.Rect)
    (hrank : ∀ v ∈ values, v.rank = r) (hd : d < r)
    (hothers : ∀ v ∈ values, ∀ u ∈ values, v.dims.eraseIdx d = u.dims.eraseIdx d) :
    ∃ w, concat values d = .ok w ∧ (d + 1 = r → concat values (-1) = .ok w) ∧ w.Rect ∧
      (∀ v ∈ values, w.dims = v.dims.set d (values.map (extentAt d)).sum) ∧
      ∀ k (hk : k < values.length),
        slice w ((List.replicate r 0).set d (offsetAt d values k))
          ((List.replicate r (-1)).set d (values[k].extentAt d)) = .ok values[k] := by
  have haligned : Aligned d values := by
    refine ⟨hrect, fun v hv => hrank v hv ▸ hd, fun v hv u hu => ?_, hothers⟩
    rw [hrank v hv, hrank u hu]
  obtain ⟨hpieces, hinside⟩ := aligned_iff.mp haligned
  obtain ⟨w, hw⟩ := hpieces.exists_joins hne
  have hhead : (values.headD default).rank = r := by
    obtain ⟨v, values, rfl⟩ := List.exists_cons_of_ne_nil hne
    exact hrank v List.mem_cons_self
  have hdims : ∀ v ∈ values, w.dims = v.dims.set d (values.map (extentAt d)).sum := fun v hv =>
    (hw.dims_eq hpieces hne).trans (haligned.joinedDims_eq hv)
  have hwrank : w.rank = r := by
    obtain ⟨v, hv⟩ := List.exists_mem_of_ne_nil values hne
    rw [← length_dims, hdims v hv, List.length_set, length_dims, hrank v hv]
  -- The last axis counts as -1, too; a piece is cut out where the ones before it end.
  refine ⟨w, ?_, fun hlast => ?_, (hw.rect_iff hpieces hne).mpr haligned.agreeInside, hdims,
    fun k hk => ?_⟩
  · rw [concat_eq_ok hne, joinAxis_natCast, hhead]
    exact ⟨hd, hw⟩
  · have haxis : joinAxis values (-1) = d := by
      rw [joinAxis, if_pos (by decide), hhead]
      omega
    rw [concat_eq_ok hne, haxis, hhead]
    exact ⟨hd, hw⟩
  · rw [slice, if_neg (by simp), if_neg (by simp [hwrank]), zip_set_replicate hd]
    refine hw.sliceAt_cut hpieces (fun v hv => ?_) hk
    rw [hrank v hv]
    omega

/-- A column beside two others. -/
theorem slices_undo_join_columns :
    let values := [ofRows [[1, 2], [3, 4]], ofRows [[9], [8]]]
    (∀ v ∈ values, v.Rect) ∧ ∃ w, concat values 1 = .ok w ∧ concat values (-1) = .ok w ∧ w.Rect ∧
      w.dims = [2, 3] ∧ slice w [0, 0] [-1, 2] = .ok (ofRows [[1, 2], [3, 4]]) ∧
      slice w [0, 2] [-1, 1] = .ok (ofRows [[9], [8]]) := by
  intro values
  have hrect : ∀ v ∈ values, v.Rect := by
    simp only [values, List.forall_mem_cons]
    exact ⟨rect_ofRows (by simp), rect_ofRows (by simp), by simp⟩
  have hne : values ≠ [] := List.cons_ne_nil _ _
  obtain ⟨w, hw, hlast, hwrect, hdims, hslices⟩ :=
    slices_undo_join (r := 2) (d := 1) hne hrect (by decide) (by decide) (by decide)
  exact ⟨hrect, w, hw, hlast rfl, hwrect, hdims _ List.mem_cons_self, hslices 0 (by decide),
    hslices 1 (by decide)⟩

end Dataflow.Value
