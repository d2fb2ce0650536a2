import Dataflow.Rearrange.Pad
import Dataflow.Proofs.Boxes

/-!
# Padding values

Padding a rectangular value gives a rectangular one. The value lies in it behind the copies that
were put before it, so that a slice gives it back, and everything around it is the fill.
-/

namespace Dataflow.Value

variable {v w : Value} {paddings : List (Nat × Nat)}

/-! ## Copies of a scalar -/

theorem dims_filled_visible (ns : List Nat) (s : Scalar) :
    (filled ns (.scalar s)).dims = visible ns := by
  induction ns with
  | nil => rfl
  | cons n ns ih =>
    cases n with
    | zero => rfl
    | succ n =>
      rw [filled, List.replicate_succ, dims_array_cons, List.length_replicate, ih]
      rfl

theorem at?_filled {ns i : List Nat} (hi : i ∈ indices ns) (s : Scalar) :
    (filled ns (.scalar s)).at? i = some s := by
  induction ns generalizing i with
  | nil =>
    rw [mem_indices_nil.mp hi]
    rfl
  | cons n ns ih =>
    obtain ⟨j, js, hj, hjs, rfl⟩ := mem_indices_cons.mp hi
    rw [filled, at?_cons (by simpa using hj), List.getElem_replicate]
    exact ih hjs

/-! ## Extents of a padded value -/

/-- The extents with the copies before and after the items of each axis. -/
def padded (ns : List Nat) (paddings : List (Nat × Nat)) : List Nat :=
  List.zipWith (fun n p => p.1 + n + p.2) ns paddings

/-- Where the padded value begins on each axis. -/
def befores (paddings : List (Nat × Nat)) : List Int := paddings.map fun p => (p.1 : Int)

theorem padded_cons (n : Nat) (ns : List Nat) (before after : Nat) :
    padded (n :: ns) ((before, after) :: paddings) = (before + n + after) :: padded ns paddings :=
  rfl

theorem shift_befores (before after j : Nat) (js : List Nat) :
    shift (befores ((before, after) :: paddings)) (j :: js) =
      (before + j) :: shift (befores paddings) js := rfl

/-- Only the last axis of a value can be empty, and so only the last one of what it is padded to. -/
theorem visible_padded : (v : Value) → (paddings : List (Nat × Nat)) →
    visible (padded v.dims paddings) = padded v.dims paddings
  | .scalar _, _ => rfl
  | _, [] => by simp [padded, visible]
  | .array [], (before, after) :: paddings => by simp [padded, visible]
  | .array (v :: vs), (before, after) :: paddings => by
    rw [dims_array_cons, padded_cons, visible, if_neg (by omega), visible_padded v]

theorem padAt_array {fill : Value} {before after : Nat} {inner : List (Nat × Nat)} {n : Nat}
    {ns : List Nat} (xs : List Value) :
    padAt fill ((before, after) :: inner) (n :: ns) (.array xs) =
      .array (List.replicate before (filled (padded ns inner) fill) ++
        xs.map (padAt fill inner ns) ++ List.replicate after (filled (padded ns inner) fill)) := by
  have hdims : ((ns.zip inner).map fun p => p.1 + p.2.1 + p.2.2) = padded ns inner := by
    rw [padded, List.map_zip_eq_zipWith]
    congr 1
    funext d p
    change d + p.1 + p.2 = p.1 + d + p.2
    omega
  rw [padAt, ← hdims]
  rfl

/-! ## Items of a padded value -/

section Around

variable {row : Value} {items : List Value} {before after k : Nat} {js : List Nat}

theorem at?_within (hk : k < items.length) :
    (Value.array (List.replicate before row ++ items ++ List.replicate after row)).at?
      ((before + k) :: js) = (Value.array items).at? (k :: js) := by
  have hlt : before + k < (List.replicate before row ++ items).length := by simpa using hk
  rw [at?, at?, List.getElem?_append_left hlt, List.getElem?_append_right (by simp)]
  simp

theorem at?_around (hk : k < before + items.length + after)
    (hout : k < before ∨ before + items.length ≤ k) :
    (Value.array (List.replicate before row ++ items ++ List.replicate after row)).at? (k :: js) =
      row.at? js := by
  have hitem : (List.replicate before row ++ items ++ List.replicate after row)[k]? = some row := by
    rcases hout with hbefore | hafter
    · rw [List.append_assoc, List.getElem?_append_left (by simpa using hbefore),
        List.getElem?_replicate, if_pos hbefore]
    · rw [List.getElem?_append_right (by simpa using hafter), List.getElem?_replicate, if_pos]
      simp only [List.length_append, List.length_replicate]
      omega
  rw [at?, hitem, Option.bind_some]

end Around

/-- The paddings of a rectangular array are one for its own axis and those for the axes of its
items. The copies around its items have the padded extents of these. -/
theorem Rect.exists_inner {vs : List Value} (h : Rect (.array vs))
    (hlength : paddings.length = (Value.array vs).rank) :
    ∃ before after inner ns, paddings = (before, after) :: inner ∧
      (Value.array vs).dims = vs.length :: ns ∧ (vs = [] → ns = []) ∧
      (∀ u ∈ vs, u.dims = ns ∧ inner.length = u.rank) ∧
      ∀ s, (filled (padded ns inner) (.scalar s)).dims = padded ns inner := by
  obtain ⟨⟨before, after⟩, inner, rfl⟩ : ∃ p inner, paddings = p :: inner := by
    apply List.exists_cons_of_length_pos
    rw [hlength]
    exact rank_array_pos vs
  cases vs with
  | nil =>
    refine ⟨before, after, inner, [], rfl, rfl, fun _ => rfl, by simp, fun s => ?_⟩
    rw [dims_filled_visible]
    rfl
  | cons u us =>
    refine ⟨before, after, inner, u.dims, rfl, rfl, nofun, fun w hw => ⟨?_, ?_⟩, fun s => ?_⟩
    · exact h.dims_of_mem (dims_array_cons u us) hw
    · rw [h.rank_eq hw] at hlength
      exact Nat.succ.inj hlength
    · rw [dims_filled_visible, visible_padded]

variable {s : Scalar}

/-- A padded value is rectangular and has the padded extents. -/
theorem Rect.rect_padAt (h : v.Rect) (hlength : paddings.length = v.rank) :
    (padAt (.scalar s) paddings v.dims v).Rect ∧
      (padAt (.scalar s) paddings v.dims v).dims = padded v.dims paddings := by
  induction h generalizing paddings with
  | scalar t =>
    cases List.length_eq_zero_iff.mp hlength
    exact ⟨.scalar t, rfl⟩
  | @array vs items even ih =>
    obtain ⟨before, after, inner, ns, rfl, hdims, hnil, hitems, hrow⟩ :=
      (Rect.array items even).exists_inner hlength
    -- Beside the padded items there are copies of the fill, which have the same extents.
    have hall : ∀ u ∈ List.replicate before (filled (padded ns inner) (.scalar s)) ++
        vs.map (padAt (.scalar s) inner ns) ++
          List.replicate after (filled (padded ns inner) (.scalar s)),
        u.Rect ∧ u.dims = padded ns inner := by
      have hcopy : (filled (padded ns inner) (.scalar s)).Rect ∧
          (filled (padded ns inner) (.scalar s)).dims = padded ns inner :=
        ⟨rect_filled (.scalar s) _, hrow s⟩
      intro u hu
      rcases List.mem_append.mp hu with hu | hu
      · rcases List.mem_append.mp hu with hu | hu
        · exact List.eq_of_mem_replicate hu ▸ hcopy
        · obtain ⟨t, ht, rfl⟩ := List.mem_map.mp hu
          obtain ⟨htdims, htlength⟩ := hitems t ht
          exact htdims ▸ ih t ht htlength
      · exact List.eq_of_mem_replicate hu ▸ hcopy
    rw [hdims, padAt_array, padded_cons]
    obtain ⟨hrect, hwdims⟩ := rect_array hall fun hempty => by
      simp only [List.append_eq_nil_iff, List.map_eq_nil_iff] at hempty
      cases hnil hempty.1.2
      rfl
    refine ⟨hrect, hwdims.trans ?_⟩
    simp only [List.length_append, List.length_replicate, List.length_map]

/-- The value lies in what it is padded to, behind the copies before its items. -/
theorem Rect.at?_padAt_shift (h : v.Rect) (hlength : paddings.length = v.rank) {j : List Nat}
    (hj : j ∈ indices v.dims) :
    (padAt (.scalar s) paddings v.dims v).at? (shift (befores paddings) j) = v.at? j := by
  induction h generalizing paddings j with
  | scalar t =>
    cases List.length_eq_zero_iff.mp hlength
    rfl
  | @array vs items even ih =>
    obtain ⟨before, after, inner, ns, rfl, hdims, -, hitems, -⟩ :=
      (Rect.array items even).exists_inner hlength
    rw [hdims] at hj ⊢
    obtain ⟨k, js, hk, hjs, rfl⟩ := mem_indices_cons.mp hj
    have hmem := List.getElem_mem hk
    obtain ⟨hudims, hulength⟩ := hitems _ hmem
    rw [padAt_array, shift_befores, at?_within (by simpa using hk), at?_cons (by simpa using hk),
      at?_cons hk, List.getElem_map, ← hudims]
    exact ih _ hmem hulength (hudims ▸ hjs)

/-- Everything around the value is the fill. -/
theorem Rect.at?_padAt_fill (h : v.Rect) (hlength : paddings.length = v.rank) {i : List Nat}
    (hi : i ∈ indices (padded v.dims paddings))
    (hout : ∀ j ∈ indices v.dims, shift (befores paddings) j ≠ i) :
    (padAt (.scalar s) paddings v.dims v).at? i = some s := by
  induction h generalizing paddings i with
  | scalar t =>
    cases List.length_eq_zero_iff.mp hlength
    exact absurd (mem_indices_nil.mp hi).symm (hout [] (mem_indices_nil.mpr rfl))
  | @array vs items even ih =>
    obtain ⟨before, after, inner, ns, rfl, hdims, -, hitems, -⟩ :=
      (Rect.array items even).exists_inner hlength
    rw [hdims, padded_cons] at hi
    rw [hdims] at hout ⊢
    obtain ⟨k, js, hk, hjs, rfl⟩ := mem_indices_cons.mp hi
    rw [padAt_array]
    by_cases haround : k < before ∨ before + vs.length ≤ k
    · rw [at?_around (by simpa using hk) (by simpa using haround)]
      exact at?_filled hjs s
    · -- The index is one of an item of the value, and lies around the box there.
      obtain ⟨l, rfl⟩ : ∃ l, k = before + l := ⟨k - before, by omega⟩
      have hl : l < vs.length := by omega
      have hmem := List.getElem_mem hl
      obtain ⟨hudims, hulength⟩ := hitems _ hmem
      rw [at?_within (by simpa using hl), at?_cons (by simpa using hl), List.getElem_map]
      rw [← hudims] at hjs ⊢
      refine ih _ hmem hulength hjs fun js' hjs' heq => ?_
      refine hout (l :: js') (mem_indices_cons.mpr ⟨l, js', hl, hudims ▸ hjs', rfl⟩) ?_
      rw [shift_befores, heq]

/-! ## Slices of a padded value -/

/-- The slice that begins where the padded value does and has its extents lies within the whole. -/
theorem spans_padded {ns : List Nat} (hlength : paddings.length = ns.length) :
    (∀ a ∈ spans (padded ns paddings) ((befores paddings).zip (ns.map Int.ofNat)), a.Fits) ∧
      (spans (padded ns paddings) ((befores paddings).zip (ns.map Int.ofNat))).map Span.count =
        ns := by
  induction ns generalizing paddings with
  | nil => simp [padded, spans]
  | cons n ns ih =>
    obtain ⟨⟨before, after⟩, inner, rfl⟩ := List.exists_cons_of_length_eq_add_one hlength
    obtain ⟨hfits, hcounts⟩ := ih (Nat.succ.inj hlength)
    have hspans : spans (padded (n :: ns) ((before, after) :: inner))
        ((befores ((before, after) :: inner)).zip ((n :: ns).map Int.ofNat)) =
          ⟨before + n + after, before, n⟩ ::
            spans (padded ns inner) ((befores inner).zip (ns.map Int.ofNat)) := rfl
    rw [hspans, List.forall_mem_cons, List.map_cons, hcounts]
    refine ⟨⟨?_, hfits⟩, ?_⟩
    · simp only [Span.Fits]
      omega
    · simp only [Span.count]
      rw [if_neg (by omega), Int.toNat_natCast]

/-- Padding gives a rectangular value, in which the value lies behind the copies that were put
before it and everything else is the fill. A slice gives the value back. The paddings have to be as
many as the axes. -/
theorem Rect.slices_undo_pad (h : v.Rect) (paddings : List (Nat × Nat)) (fill : Scalar) :
    (paddings.length = v.rank → ∃ w, pad v paddings fill = .ok w ∧ w.Rect ∧
      w.dims = padded v.dims paddings ∧
      (∀ j ∈ indices v.dims, w.at? (shift (befores paddings) j) = v.at? j) ∧
      (∀ i ∈ indices w.dims, (∀ j ∈ indices v.dims, shift (befores paddings) j ≠ i) →
        w.at? i = some fill) ∧
      slice w (befores paddings) (v.dims.map Int.ofNat) = .ok v) ∧
    (paddings.length ≠ v.rank →
      pad v paddings fill = .error (.rankMismatch v.rank paddings.length)) := by
  rw [← length_dims]
  constructor
  · intro hlength
    have hpad : pad v paddings fill = .ok (padAt fill paddings v.dims v) :=
      if_neg (not_not.mpr hlength)
    have hrank : paddings.length = v.rank := hlength.trans (length_dims v)
    obtain ⟨hrect, hdims⟩ := h.rect_padAt (s := fill) hrank
    generalize hw : padAt fill paddings v.dims v = w at *
    have hinside : ∀ j ∈ indices v.dims, w.at? (shift (befores paddings) j) = v.at? j := by
      intro j hj
      rw [← hw]
      exact h.at?_padAt_shift hrank hj
    refine ⟨w, hpad, hrect, hdims, hinside, fun i hi hout => ?_, ?_⟩
    · rw [hdims] at hi
      rw [← hw]
      exact h.at?_padAt_fill hrank hi hout
    · -- The box starts after the copies in front, so a slice has the items of the value.
      obtain ⟨hfits, hcounts⟩ := spans_padded hlength
      rw [← hdims] at hfits hcounts
      have hstarts : (befores paddings).length = v.dims.length := by simp [befores, hlength]
      have hwlength : w.dims.length = v.dims.length := by simp [hdims, padded, hlength]
      obtain ⟨u, hu, hurect, hudims, hitems⟩ := hrect.exists_slice (by simpa using hstarts)
        (by rw [hstarts, ← length_dims, hwlength]) hfits
      rw [hcounts, hstarts, ← hwlength, List.drop_length, List.append_nil, visible_dims] at hudims
      have heq : u = v := hurect.ext h hudims fun i hi => by
        obtain ⟨t, hut, hwt⟩ := hitems i hi
        rw [hut, ← hwt, hinside i (hudims ▸ hi)]
      exact heq ▸ hu
  · intro hlength
    exact if_pos hlength

/-- A row above a matrix and a column beside it. -/
theorem Rect.slices_undo_pad_corner :
    let v := ofRows [[1, 2], [3, 4]]
    v.Rect ∧ (∃ w, pad v [(1, 0), (0, 1)] (.scalar (.int 0)) = .ok w ∧ w.Rect ∧ w.dims = [3, 3] ∧
      w.at? [2, 0] = v.at? [1, 0] ∧ w.at? [1, 2] = some (.int 0) ∧
      slice w [1, 0] [2, 2] = .ok v) ∧
      pad v [(1, 1)] (.scalar (.int 0)) = .error (.rankMismatch 2 1) := by
  intro v
  have hv : v.Rect := rect_ofRows (by simp)
  obtain ⟨w, hw, hrect, hdims, hinside, haround, hslice⟩ :=
    (hv.slices_undo_pad [(1, 0), (0, 1)] (.int 0)).1 rfl
  refine ⟨hv, ⟨w, hw, hrect, hdims, hinside [1, 0] (by decide), ?_, hslice⟩,
    (hv.slices_undo_pad [(1, 1)] (.int 0)).2 (by decide)⟩
  exact haround [1, 2] (by rw [hdims]; decide) (by decide)

end Dataflow.Value
