import Dataflow.Proofs.Broadcasting
import Dataflow.Proofs.Rectangular

/-!
# Elementwise operations on rectangular values

Broadcasting two rectangular values fills a table: at each multi-index it applies the operation to
the scalars that the index means for the two operands. A multi-index is aligned with an operand at
the innermost axis, and an axis of one item shows that item everywhere.
-/

namespace Dataflow.Value

/-! ## Operands of one rank -/

/-- What a multi-index into the common extents means for a side with extents `dims`: the same, save
that it is 0 on an axis of one item. -/
def met (dims i : List Nat) : List Nat :=
  List.zipWith (fun n j => if n = 1 then 0 else j) dims i

theorem met_mem_indices {ms ns ds i : List Nat} (h : commonDims? ms ns = some ds)
    (hi : i ∈ indices ds) : met ms i ∈ indices ms := by
  induction ms generalizing ns ds i with
  | nil => exact mem_indices_nil.mpr rfl
  | cons m ms ih =>
    cases ns with
    | nil => cases h
    | cons n ns =>
      obtain ⟨d, ds', hd, hds, rfl⟩ := commonDims?_cons.mp h
      obtain ⟨j, js, hj, hjs, rfl⟩ := mem_indices_cons.mp hi
      refine mem_indices_cons.mpr ⟨_, _, ?_, ih hds hjs, rfl⟩
      rcases (length_of_commonExtent? hd).1 with rfl | rfl
      · dsimp only
        split <;> omega
      · exact Nat.one_pos

theorem met_self {ns i : List Nat} (hi : i ∈ indices ns) : met ns i = i := by
  induction ns generalizing i with
  | nil => rw [mem_indices_nil.mp hi]; rfl
  | cons n ns ih =>
    obtain ⟨j, js, hj, hjs, rfl⟩ := mem_indices_cons.mp hi
    rw [met, List.zipWith_cons_cons, ← met, ih hjs]
    split
    · rw [show j = 0 by omega]
    · rfl

theorem itemAt_mem {vs : List Value} {n j : Nat} (hn : vs.length = n ∨ vs.length = 1)
    (hj : j < n) : itemAt vs j ∈ vs := by
  have hlt : (if vs.length = 1 then 0 else j) < vs.length := by split <;> omega
  exact getD_mem hlt

/-- An axis is left by going on to the item that it shows. -/
theorem Rect.item_met {vs : List Value} (h : Rect (.array vs)) {n j : Nat}
    (hn : vs.length = n ∨ vs.length = 1) (hj : j < n) (js : List Nat) :
    (Value.array vs).item (met (Value.array vs).dims (j :: js)) =
      (itemAt vs j).item (met (itemAt vs j).dims js) := by
  have hlt : (if vs.length = 1 then 0 else j) < vs.length := by split <;> omega
  rw [h.dims_eq (itemAt_mem hn hj), met, List.zipWith_cons_cons, item_cons hlt]
  rfl

theorem exists_dims (vs : List Value) : ∃ ns, (Value.array vs).dims = vs.length :: ns := by
  cases vs
  · exact ⟨[], rfl⟩
  · exact ⟨_, rfl⟩

variable {op : Scalar → Scalar → Except Fault Scalar}

/-- Where no axis is missing, broadcasting rectangular values gives a table of the common
extents. -/
theorem Rect.broadcast_eq_tabulate {a b : Value} {ds : List Nat} (ha : a.Rect) (hb : b.Rect)
    (h : commonDims? a.dims b.dims = some ds) :
    broadcast (scalarwise op) a b =
      tabulate ds fun i => op (a.item (met a.dims i)) (b.item (met b.dims i)) := by
  induction ds generalizing a b with
  | nil =>
    obtain ⟨hadims, hbdims⟩ := length_of_commonDims? h
    obtain ⟨s, rfl⟩ := eq_scalar_of_rank (length_dims a ▸ hadims)
    obtain ⟨t, rfl⟩ := eq_scalar_of_rank (length_dims b ▸ hbdims)
    rw [broadcast]
    rfl
  | cons n ds ih =>
    obtain ⟨hadims, hbdims⟩ := length_of_commonDims? h
    rw [length_dims] at hadims hbdims
    obtain ⟨xs, rfl⟩ := eq_array_of_rank hadims
    obtain ⟨ys, rfl⟩ := eq_array_of_rank hbdims
    have hn : commonExtent? xs.length ys.length = some n := by
      obtain ⟨ms, hms⟩ := exists_dims xs
      obtain ⟨ns, hns⟩ := exists_dims ys
      rw [hms, hns] at h
      obtain ⟨_, _, hd, _, hcons⟩ := commonDims?_cons.mp h
      cases hcons
      exact hd
    obtain ⟨hxs, hys⟩ := length_of_commonExtent? hn
    -- The items at one position are rectangular again, with the inner extents.
    have hrow : ∀ j ∈ List.range n, broadcast (scalarwise op) (itemAt xs j) (itemAt ys j) =
        tabulate ds fun js => op ((Value.array xs).item (met (Value.array xs).dims (j :: js)))
          ((Value.array ys).item (met (Value.array ys).dims (j :: js))) := fun j hj => by
      have hlt := List.mem_range.mp hj
      have hx := itemAt_mem hxs hlt
      have hy := itemAt_mem hys hlt
      rw [ha.dims_eq hx, hb.dims_eq hy] at h
      obtain ⟨_, _, _, hds, hcons⟩ := commonDims?_cons.mp h
      cases hcons
      rw [ih (ha.of_mem hx) (hb.of_mem hy) hds]
      exact tabulate_congr fun js _ => by rw [ha.item_met hxs hlt, hb.item_met hys hlt]
    rw [broadcast_items (hadims.trans hbdims.symm), hn, tabulate, ← Except.mapM_congr hrow]

/-- An operator on rectangular values of one shape is applied at every multi-index. -/
theorem Rect.binary_eq_tabulate {op : BinaryOp} {a b : Value} (ha : a.Rect) (hb : b.Rect)
    (hdims : a.dims = b.dims) :
    binary op a b = tabulate a.dims fun i => op.apply (a.item i) (b.item i) := by
  have hcommon : commonDims? a.dims b.dims = some a.dims := by
    rw [← hdims, commonDims?_self]
  refine (ha.broadcast_eq_tabulate hb hcommon).trans (tabulate_congr fun i hi => ?_)
  rw [← hdims, met_self hi]

/-- Where no axis is missing, extents that do not meet are refused. -/
theorem exists_incompatibleShapes {k : Nat} {a b : Value} (ha : a.rank = k) (hb : b.rank = k)
    (h : commonDims? a.dims b.dims = none) :
    ∃ p q, broadcast (scalarwise op) a b = .error (.incompatibleShapes p q) := by
  induction k generalizing a b with
  | zero =>
    obtain ⟨s, rfl⟩ := eq_scalar_of_rank ha
    obtain ⟨t, rfl⟩ := eq_scalar_of_rank hb
    cases h
  | succ k ih =>
    obtain ⟨xs, rfl⟩ := eq_array_of_rank ha
    obtain ⟨ys, rfl⟩ := eq_array_of_rank hb
    rw [broadcast_items (ha.trans hb.symm)]
    cases hn : commonExtent? xs.length ys.length with
    | none => exact ⟨_, _, rfl⟩
    | some n =>
      cases n with
      | zero => rw [commonDims?_of_no_item (ha.trans hb.symm) hn] at h; cases h
      | succ n =>
        obtain ⟨x, xs, rfl, y, ys, rfl⟩ := exists_items_of_commonExtent? hn
        -- The first items do not meet either, and nothing comes before them.
        have hinner : commonDims? x.dims y.dims = none := by
          rw [dims_array_cons, dims_array_cons, commonDims?] at h
          simp only [List.length_cons] at hn
          cases hxy : commonDims? x.dims y.dims with
          | none => rfl
          | some ds => simp [hn, hxy] at h
        obtain ⟨p, q, hpq⟩ := ih (Nat.succ.inj ha) (Nat.succ.inj hb) hinner
        refine ⟨p, q, ?_⟩
        dsimp only
        rw [List.range_succ_eq_map, List.mapM_cons, itemAt_zero, itemAt_zero, hpq]
        rfl

/-! ## Operands of any rank -/

theorem rect_raised {v : Value} (h : v.Rect) (w : Value) : (raised w v).Rect := rect_filled h _

/-- What a multi-index into a broadcast value means for an operand of extents `dims`: it is aligned
at the innermost axis, and 0 on an axis of one item. -/
def aligned (dims i : List Nat) : List Nat :=
  List.zipWith (fun n j => if n = 1 then 0 else j) dims (i.drop (i.length - dims.length))

theorem aligned_of_length_eq {dims i : List Nat} (h : i.length = dims.length) :
    aligned dims i = met dims i := by
  rw [aligned, h, Nat.sub_self, List.drop_zero, met]

theorem met_append {ms p : List Nat} (h : ms.length = p.length) (ns q : List Nat) :
    met (ms ++ ns) (p ++ q) = met ms p ++ met ns q :=
  List.zipWith_append h

/-- With further outer axes, a multi-index is aligned behind the part that they take. -/
theorem met_append_eq {outer dims ns ds i : List Nat} (h : commonDims? (outer ++ dims) ns = some ds)
    (hi : i ∈ indices ds) :
    ∃ p ∈ indices outer, aligned dims i ∈ indices dims ∧
      met (outer ++ dims) i = p ++ aligned dims i := by
  have hmem := met_mem_indices h hi
  have hlength := (length_of_mem_indices hi).trans (length_of_commonDims? h).1.symm
  rw [List.length_append] at hlength
  have houter : outer.length = (i.take outer.length).length := by
    rw [List.length_take]; omega
  have hsplit : met (outer ++ dims) i = met outer (i.take outer.length) ++ aligned dims i := by
    rw [aligned, show i.length - dims.length = outer.length by omega, ← met, ← met_append houter,
      List.take_append_drop]
  rw [hsplit] at hmem ⊢
  obtain ⟨p, hp, q, hq, hpq⟩ := mem_indices_append.mp hmem
  have hlen : p.length = (met outer (i.take outer.length)).length := by
    rw [met, List.length_zipWith, length_of_mem_indices hp, ← houter, Nat.min_self]
  obtain ⟨rfl, rfl⟩ := List.append_inj hpq hlen
  exact ⟨_, hp, hq, rfl⟩

/-- The axes that a value was repeated along do not matter. -/
theorem item_met_raised {v w : Value} (hv : 1 ≤ v.rank) {ns ds i : List Nat}
    (h : commonDims? (raised w v).dims ns = some ds) (hi : i ∈ indices ds) :
    (raised w v).item (met (raised w v).dims i) = v.item (aligned v.dims i) := by
  rw [dims_raised hv] at h ⊢
  obtain ⟨p, hp, _, hsplit⟩ := met_append_eq h hi
  rw [hsplit]
  exact item_filled hp _ v

theorem aligned_mem_indices {ms ns ds i : List Nat} (h : staticDims? ms ns = some ds)
    (hi : i ∈ indices ds) : aligned ms i ∈ indices ms :=
  have ⟨_, _, hmem, _⟩ := met_append_eq h hi
  hmem

theorem aligned_self {ns i : List Nat} (hi : i ∈ indices ns) : aligned ns i = i := by
  rw [aligned_of_length_eq (length_of_mem_indices hi), met_self hi]

/-- Broadcasting rectangular values gives the table that aligns every multi-index with the operands,
wherever the two rules for the extents agree. -/
theorem Rect.broadcast_eq_tabulate_aligned {a b : Value} {ds : List Nat} (ha : a.Rect)
    (hb : b.Rect) (halike : (Shape.known a.dims).Alike (.known b.dims))
    (h : staticDims? a.dims b.dims = some ds) :
    broadcast (scalarwise op) a b =
      tabulate ds fun i => op (a.item (aligned a.dims i)) (b.item (aligned b.dims i)) := by
  rcases a with s | xs <;> rcases b with t | ys
  · cases h
    rw [broadcast]
    rfl
  · cases (staticDims?_nil _).symm.trans h
    rw [broadcast, hb.traverse_eq_tabulate]
    exact tabulate_congr fun i hi => by rw [aligned_self hi]; rfl
  · rw [staticDims?_comm] at h
    cases (staticDims?_nil _).symm.trans h
    rw [broadcast, ha.traverse_eq_tabulate]
    exact tabulate_congr fun i hi => by rw [aligned_self hi]; rfl
  · have hxs := Pair.one_le_rank_array xs
    have hys := Pair.one_le_rank_array ys
    rw [← raisedDims?_eq_staticDims? (dims_array_ne_nil xs) (dims_array_ne_nil ys) halike,
      raisedDims?, ← dims_raised_eq_raisedTo hxs, ← dims_raised_eq_raisedTo hys] at h
    rw [broadcast_raised, (rect_raised ha _).broadcast_eq_tabulate (rect_raised hb _) h]
    exact tabulate_congr fun i hi => by
      rw [item_met_raised hxs h hi, item_met_raised hys (commonDims?_comm _ _ ▸ h) hi]

/-- Extents that differ after one operand is repeated are refused. -/
theorem exists_incompatibleShapes_of_raised {xs ys : List Value}
    (h : raisedDims? (Value.array xs).dims (Value.array ys).dims = none) :
    ∃ p q, broadcast (scalarwise op) (.array xs) (.array ys) =
      .error (.incompatibleShapes p q) := by
  rw [raisedDims?, ← dims_raised_eq_raisedTo (Pair.one_le_rank_array xs),
    ← dims_raised_eq_raisedTo (Pair.one_le_rank_array ys)] at h
  rw [broadcast_raised]
  exact exists_incompatibleShapes (rank_raised_eq xs ys) rfl h

/-- Extents that the static rule refuses are refused. -/
theorem exists_incompatibleShapes_of_static {a b : Value} (h : staticDims? a.dims b.dims = none) :
    ∃ p q, broadcast (scalarwise op) a b = .error (.incompatibleShapes p q) := by
  rcases a with s | xs <;> rcases b with t | ys
  · cases h
  · cases (staticDims?_nil _).symm.trans h
  · rw [staticDims?_comm] at h
    cases (staticDims?_nil _).symm.trans h
  · exact exists_incompatibleShapes_of_raised (raisedDims?_eq_none h)

/-! ## Broadcasting, elementwise -/

/-- The operation on the two scalars that meet at the multi-index `i` comes to `r`. -/
def Applies (op : Scalar → Scalar → Except Fault Scalar) (a b : Value) (i : List Nat)
    (r : Except Fault Scalar) : Prop :=
  ∃ x y, a.at? (aligned a.dims i) = some x ∧ b.at? (aligned b.dims i) = some y ∧ op x y = r

/-- The value `v` is the elementwise result of extents `ds`. -/
structure Elementwise (op : Scalar → Scalar → Except Fault Scalar) (a b : Value) (ds : List Nat)
    (v : Value) : Prop where
  rect : v.Rect
  dims : v.dims = ds
  elements : ∀ i ∈ indices ds, ∃ z, Applies op a b i (.ok z) ∧ v.at? i = some z

/-- The fault `e` is that of the first application, in row-major order, that fails. -/
def FirstFault (op : Scalar → Scalar → Except Fault Scalar) (a b : Value) (ds : List Nat)
    (e : Fault) : Prop :=
  ∃ before i after, indices ds = before ++ i :: after ∧
    (∀ j ∈ before, ∃ z, Applies op a b j (.ok z)) ∧ Applies op a b i (.error e)

/-- Broadcasting refuses the operands that the static rule refuses, and computes elementwise what
the rule promises for the others. -/
def BroadcastsAsPromised (op : Scalar → Scalar → Except Fault Scalar) (a b : Value) : Prop :=
  match (Shape.known a.dims).broadcast (.known b.dims) with
  | .error _ => ∃ p q, broadcast (scalarwise op) a b = .error (.incompatibleShapes p q)
  | .ok s => ∃ ds, s = .known ds ∧
    match broadcast (scalarwise op) a b with
    | .ok v => Elementwise op a b ds v
    | .error e => FirstFault op a b ds e

/-- Rectangular operands are broadcast as the static rule promises, unless one that the rule accepts
would have to be repeated to several extents at once. -/
theorem Rect.broadcasts_as_promised (op : Scalar → Scalar → Except Fault Scalar) {a b : Value}
    (ha : a.Rect) (hb : b.Rect)
    (halike : ∀ s, (Shape.known a.dims).broadcast (.known b.dims) = .ok s →
      (Shape.known a.dims).Alike (.known b.dims)) : BroadcastsAsPromised op a b := by
  rw [broadcast_known] at halike
  rw [BroadcastsAsPromised, broadcast_known]
  cases h : staticDims? a.dims b.dims with
  | none => exact exists_incompatibleShapes_of_static h
  | some ds =>
    rw [h] at halike
    refine ⟨ds, rfl, ?_⟩
    have htable : broadcast (scalarwise op) a b = _ :=
      ha.broadcast_eq_tabulate_aligned hb (halike _ rfl) h
    have happlies : ∀ i ∈ indices ds,
        Applies op a b i (op (a.item (aligned a.dims i)) (b.item (aligned b.dims i))) :=
      fun i hi => ⟨_, _, ha.at?_eq_item (aligned_mem_indices h hi),
        hb.at?_eq_item (aligned_mem_indices (staticDims?_comm _ _ ▸ h) hi), rfl⟩
    cases hv : broadcast (scalarwise op) a b with
    | ok v =>
      have hstatic := (staticDims?_eq_some_iff_alike hv).mpr (halike _ rfl)
      have hdims := Option.some.inj (hstatic.symm.trans h)
      rw [htable] at hv
      refine ⟨rect_of_tabulate hv, hdims, fun i hi => ?_⟩
      obtain ⟨z, hz, hat⟩ := at?_of_tabulate hv hi
      exact ⟨z, hz ▸ happlies i hi, hat⟩
    | error e =>
      rw [htable] at hv
      -- In a table the first fault in row-major order is the one that is reported.
      obtain ⟨before, i, after, hsplit, hbefore, hi⟩ := exists_first_of_tabulate hv
      have hall : ∀ j ∈ before ++ i :: after, j ∈ indices ds := fun j hj => hsplit ▸ hj
      refine ⟨before, i, after, hsplit, fun j hj => ?_, ?_⟩
      · obtain ⟨z, hz⟩ := hbefore j hj
        exact ⟨z, hz ▸ happlies j (hall j (List.mem_append_left _ hj))⟩
      · exact hi ▸ happlies i (hall i (List.mem_append_right _ List.mem_cons_self))

/-- A column and a row meet in a matrix. -/
theorem Rect.broadcasts_as_promised_column_row :
    let column := filled [2, 1] (.scalar (.int 1))
    let row := filled [3] (.scalar (.int 10))
    let op := fun s t : Scalar => (BinaryOp.arithmetic .add).apply s t
    column.Rect ∧ row.Rect ∧ (Shape.known column.dims).broadcast (.known row.dims) =
      .ok (.known [2, 3]) ∧ BroadcastsAsPromised op column row := by
  intro column row op
  have hcolumn : column.Rect := rect_filled (.scalar _) _
  have hrow : row.Rect := rect_filled (.scalar _) _
  exact ⟨hcolumn, hrow, rfl, hcolumn.broadcasts_as_promised op hrow fun _ _ => by decide⟩

theorem eq_of_at?_filled {ns i : List Nat} {s x : Scalar}
    (h : (filled ns (.scalar s)).at? i = some x) : x = s := by
  induction ns generalizing i with
  | nil =>
    cases i <;> cases h
    rfl
  | cons n ns ih =>
    cases i with
    | nil => cases h
    | cons j js =>
      rw [filled, at?, List.getElem?_replicate] at h
      split at h
      · exact ih h
      · cases h

/-- A row that meets a stack of two matrices of four rows each is repeated twice where it should be
repeated four times, and is refused. -/
theorem broadcasts_as_promised_fails :
    ¬ ∀ (op : Scalar → Scalar → Except Fault Scalar) (a b : Value), a.Rect → b.Rect →
      BroadcastsAsPromised op a b := by
  intro h
  let row := filled [3] (.scalar (.int 1))
  let stack := filled [2, 4, 3] (.scalar (.int 10))
  let op := fun s t : Scalar => (BinaryOp.arithmetic .add).apply s t
  have hpromised := h op row stack (rect_filled (.scalar _) _) (rect_filled (.scalar _) _)
  have hstatic : (Shape.known row.dims).broadcast (.known stack.dims) = .ok (.known [2, 4, 3]) :=
    rfl
  obtain ⟨p, q, hrefused⟩ : ∃ p q,
      broadcast (scalarwise op) row stack = .error (.incompatibleShapes p q) :=
    exists_incompatibleShapes_of_raised (by decide)
  rw [BroadcastsAsPromised, hstatic, hrefused] at hpromised
  obtain ⟨_, _, _, i, _, _, _, x, y, hx, hy, hop⟩ := hpromised
  rw [eq_of_at?_filled hx, eq_of_at?_filled hy] at hop
  cases hop

end Dataflow.Value
