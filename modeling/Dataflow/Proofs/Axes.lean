import Dataflow.Axis.Argmax
import Dataflow.Axis.Reduction
import Dataflow.Proofs.Folding
import Dataflow.Proofs.Indexing
import Dataflow.Rearrange.Concat

/-!
# Axes in machine integers

The kernels that walk down to an axis, with every step on axes and positions checked. Together with
those that take positions they never overflow and never go out of bounds, apart from slices that
would end beyond the signed integers.
-/

namespace Dataflow

open Except

namespace Checked

/-! ## Concatenation -/

def itemsOfEach (axis : Nat) (values : List Value) : Checked (List (List Value)) :=
  values.mapM (itemsAlong axis (.ok 0))

/-- Joins values along an axis. Inside the outermost one it is one less. -/
def concatAt : (axis : Nat) → List Value → Checked Value
  | 0, values => do return .array (← itemsOfEach 0 values).flatten
  | axis + 1, values => do
    let arrays ← itemsOfEach (axis + 1) values
    let outer := (arrays.head?.map List.length).getD 0
    match values.find? fun v => v.length ≠ outer with
    | some bad => do
      let first ← item values 0
      throw (.fault (.shapeMismatch first.dims bad.dims))
    | none => do
      let items ← (List.range outer).mapM fun i => do
        let column ← arrays.mapM (item · i)
        concatAt axis column
      return .array items

/-- The axis along which values are joined. A negative one is the last; of no axes there is none
before the first. -/
def joinedAxis (rank : Nat) (axis : Int) : Checked Nat :=
  if axis < 0 then .ok (rank - 1) else size axis

def concat (values : List Value) (axis : Int) : Checked Value :=
  match values with
  | [] => .ok (.array [])
  | first :: _ => do
    let rank ← rank first
    let axis ← joinedAxis rank axis
    if rank ≤ axis then do
      let axis ← word axis
      throw (.fault (.invalidAxis axis rank))
    else concatAt axis values

theorem itemsOfEach_eq {axis : Nat} (h : axis < 0x8000000000000000) (values : List Value) :
    itemsOfEach axis values = report (Value.itemsOfEach axis values) := by
  refine mapM_report fun v _ => ?_
  cases v with
  | scalar s => exact itemsAlong_scalar h
  | array items => exact itemsAlong_array h

/-- Values whose items are all there are arrays. -/
theorem eq_map_of_itemsOfEach {axis : Nat} {values : List Value} {arrays : List (List Value)}
    (h : Value.itemsOfEach axis values = .ok arrays) : values = arrays.map .array := by
  induction values generalizing arrays with
  | nil =>
    cases h
    rfl
  | cons v values ih =>
    rw [Value.itemsOfEach, List.mapM_cons] at h
    obtain ⟨items, hitems, h⟩ := bind_eq_ok.mp h
    obtain ⟨rest, hrest, h⟩ := bind_eq_ok.mp h
    cases h
    cases v with
    | scalar s => cases hitems
    | array xs =>
      cases hitems
      rw [List.map_cons, ← ih hrest]

/-- Where all arrays are long enough, none is left out of the items at position `i`. -/
theorem mapM_item {arrays : List (List Value)} {i : Nat} (h : ∀ items ∈ arrays, i < items.length) :
    arrays.mapM (item · i) = .ok (arrays.filterMap fun items => items[i]?) := by
  induction arrays with
  | nil => rfl
  | cons items arrays ih =>
    obtain ⟨hi, hrest⟩ := List.forall_mem_cons.mp h
    have hcons : (items :: arrays).filterMap (fun items => items[i]?) =
        items[i] :: arrays.filterMap fun items => items[i]? :=
      List.filterMap_cons_some (List.getElem?_eq_getElem hi)
    rw [List.mapM_cons, bind_of_eq_ok (item_eq hi), bind_of_eq_ok (ih hrest), hcons]
    rfl

theorem concatAt_eq {axis : Nat} (h : axis < 0x8000000000000000) (values : List Value) :
    concatAt axis values = report (Value.concatAt axis values) := by
  induction axis generalizing values with
  | zero =>
    rw [concatAt, Value.concatAt, itemsOfEach_eq h]
    cases Value.itemsOfEach 0 values <;> rfl
  | succ axis ih =>
    rw [concatAt, Value.concatAt, itemsOfEach_eq h]
    cases harrays : Value.itemsOfEach (axis + 1) values with
    | error f => rfl
    | ok arrays =>
      obtain rfl := eq_map_of_itemsOfEach harrays
      have houter : ((arrays.map Value.array).headD (.array [])).length =
          (arrays.head?.map List.length).getD 0 := by
        cases arrays <;> rfl
      rw [report_ok, ok_bind, ok_bind]
      dsimp only
      rw [houter]
      generalize (arrays.head?.map List.length).getD 0 = outer
      cases hbad : (arrays.map Value.array).find? fun v => v.length ≠ outer with
      | some bad =>
        cases arrays with
        | nil => cases hbad
        | cons items arrays => rfl
      | none =>
        -- As no array has another length, each of them has an item in every column.
        have hlengths : ∀ items ∈ arrays, items.length = outer := fun items hitems =>
          not_not.mp fun hne =>
            List.find?_eq_none.mp hbad _ (List.mem_map_of_mem hitems) (decide_eq_true hne)
        have hcolumns : ∀ i ∈ List.range outer, (do
            let column ← arrays.mapM (item · i)
            concatAt axis column) =
              report (Value.concatAt axis (arrays.filterMap fun items => items[i]?)) := by
          intro i hi
          rw [bind_of_eq_ok (mapM_item fun items hitems =>
            hlengths items hitems ▸ List.mem_range.mp hi)]
          exact ih (Nat.lt_of_succ_lt h) _
        dsimp only
        rw [mapM_report hcolumns]
        generalize (List.range outer).mapM (fun i =>
          Value.concatAt axis (arrays.filterMap fun items => items[i]?)) = items
        cases items <;> rfl

theorem joinedAxis_eq {rank : Nat} {axis : Int} (hrank : rank < 0x8000000000000000)
    (haxis : Word.Fits axis) :
    joinedAxis rank axis = .ok (if axis < 0 then rank - 1 else axis.toNat) ∧
      (if axis < 0 then rank - 1 else axis.toNat) < 0x8000000000000000 := by
  unfold joinedAxis
  split
  · exact ⟨rfl, Nat.lt_of_le_of_lt (Nat.sub_le _ _) hrank⟩
  · rename_i hsign
    exact ⟨size_eq haxis (not_lt.mp hsign), (Int.toNat_lt' (by decide)).mpr haxis.2⟩

theorem concat_eq {values : List Value} {axis : Int}
    (hvalues : ∀ v ∈ values, v.Within 0x8000000000000000) (haxis : Word.Fits axis) :
    concat values axis = report (Value.concat values axis) := by
  cases values with
  | nil => rfl
  | cons first values =>
    have hfirst := hvalues first List.mem_cons_self
    unfold concat Value.concat
    dsimp only
    obtain ⟨hjoined, hlt⟩ := joinedAxis_eq hfirst.rank haxis
    rw [bind_of_eq_ok (rank_of_within hfirst), bind_of_eq_ok hjoined]
    generalize (if axis < 0 then first.rank - 1 else axis.toNat) = depth at hlt
    split
    · rw [bind_of_eq_ok (word_natCast hlt)]
      rfl
    · exact concatAt_eq hlt _

/-! ## Position of the maximum -/

/-- The position of the maximum among scalars; `next` counts those that were looked at. -/
def argmaxFrom (position : Nat) (best : Float) : (next : Nat) → List Value → Checked Nat
  | _, [] => .ok position
  | next, v :: vs => do
    let x ← report v.asFloat
    let after ← size (next + 1 : Nat)
    if x > best then argmaxFrom next x after vs else argmaxFrom position best after vs

mutual

def argmaxAcross (rest : List Value) : (first : Value) → Checked Value
  | .scalar s => do
    let first ← item (.scalar s :: rest) 0
    let best ← report first.asFloat
    let position ← argmaxFrom 0 best 1 rest
    let position ← word position
    return .scalar (.int (Int64.ofInt position))
  | .array items => do
    let items ← argmaxColumns rest (Value.array items).dims 0 items
    return .array items

def argmaxColumns (rest : List Value) (dims : List Nat) (j : Nat) :
    (items : List Value) → Checked (List Value)
  | [] => .ok []
  | item :: items => do
    let others ← rest.mapM fun v => report (Value.column dims j v)
    let w ← argmaxAcross others item
    let after ← size (j + 1 : Nat)
    let ws ← argmaxColumns rest dims after items
    return w :: ws

end

/-- Walks down to the axis. Inside the outermost one it is one less. -/
def argmaxAt : Nat → Value → Checked Value
  | 0, v => do
    match ← itemsAlong 0 (.ok 0) v with
    | [] => throw (.fault .emptyArgmax)
    | first :: rest => argmaxAcross rest first
  | axis + 1, v => do
    let items ← itemsAlong (axis + 1) (.ok 0) v
    let items ← items.mapM (argmaxAt axis)
    return .array items

def argmax (v : Value) (axis : Int) : Checked Value := do
  let rank ← rank v
  let position ← position rank axis
  if rank = 0 ∨ position < 0 then throw (.fault (.invalidAxis axis rank))
  else
    let depth ← size position
    if rank ≤ depth then throw (.fault (.invalidAxis axis rank))
    else argmaxAt depth v

theorem argmaxFrom_eq {vs : List Value} {position next : Nat} {best : Float}
    (h : next + vs.length < UInt64.size) :
    argmaxFrom position best next vs = report (Value.argmaxFrom position best next vs) := by
  induction vs generalizing position next best with
  | nil => rfl
  | cons v vs ih =>
    rw [argmaxFrom, Value.argmaxFrom, report_bind]
    cases v.asFloat with
    | error f => rw [report_error, error_bind, error_bind]
    | ok x =>
      rw [List.length_cons, Nat.add_comm vs.length, ← Nat.add_assoc] at h
      have hnext : next + 1 < UInt64.size := Nat.lt_of_le_of_lt (Nat.le_add_right _ _) h
      rw [report_ok, ok_bind, ok_bind, bind_of_eq_ok (size_natCast hnext)]
      split
      · exact ih h
      · exact ih h

/-- The position is one of a scalar that was looked at. -/
theorem le_of_argmaxFrom {vs : List Value} {position next k : Nat} {best : Float}
    (hposition : position < next) (h : Value.argmaxFrom position best next vs = .ok k) :
    k < next + vs.length := by
  induction vs generalizing position next best with
  | nil =>
    cases h
    exact hposition
  | cons v vs ih =>
    obtain ⟨x, -, h⟩ := bind_eq_ok.mp h
    rw [List.length_cons, Nat.add_comm vs.length, ← Nat.add_assoc]
    split at h
    · exact ih (Nat.lt_succ_self next) h
    · exact ih (Nat.lt_succ_of_lt hposition) h

mutual

theorem argmaxAcross_eq {rest : List Value} (hrest : 1 + rest.length < 0x8000000000000000) :
    (first : Value) → first.width < 0x8000000000000000 →
      argmaxAcross rest first = report (Value.argmaxAcross rest first)
  | .scalar s, _ => by
    have hfirst : item (Value.scalar s :: rest) 0 = .ok (.scalar s) := rfl
    have hbest : (Value.scalar s).asFloat = s.asFloat := rfl
    rw [argmaxAcross, Value.argmaxAcross, bind_of_eq_ok hfirst, hbest, report_bind]
    cases s.asFloat with
    | error f => rw [report_error, error_bind, error_bind]
    | ok best =>
      rw [report_ok, ok_bind, ok_bind, argmaxFrom_eq (Nat.lt_trans hrest (by decide)), report_bind]
      cases hposition : Value.argmaxFrom 0 best 1 rest with
      | error f => rw [report_error, error_bind, error_bind]
      | ok position =>
        have hlt : position < 0x8000000000000000 :=
          Nat.lt_trans (le_of_argmaxFrom Nat.zero_lt_one hposition) hrest
        rw [report_ok, ok_bind, ok_bind, bind_of_eq_ok (word_natCast hlt), Int64.ofInt_eq_ofNat]
        rfl
  | .array items, h => by
    have hlength : items.length < 0x8000000000000000 :=
      Nat.lt_of_le_of_lt (Nat.le_max_left _ _) h
    have hitems : ∀ item ∈ items, item.width < 0x8000000000000000 := fun item hitem =>
      Nat.lt_of_le_of_lt (Value.width_le_of_mem hitem) h
    have hcount : 0 + items.length < UInt64.size := by
      rw [Nat.zero_add]
      exact Nat.lt_trans hlength (by decide)
    rw [argmaxAcross, Value.argmaxAcross, argmaxColumns_eq hrest _ 0 items hitems hcount,
      report_bind]
    rfl

theorem argmaxColumns_eq {rest : List Value} (hrest : 1 + rest.length < 0x8000000000000000)
    (dims : List Nat) (j : Nat) :
    (items : List Value) → (∀ item ∈ items, item.width < 0x8000000000000000) →
      j + items.length < UInt64.size →
      argmaxColumns rest dims j items = report (Value.argmaxColumns rest dims j items)
  | [], _, _ => rfl
  | item :: items, hwidth, h => by
    rw [List.length_cons, Nat.add_comm items.length, ← Nat.add_assoc] at h
    have hnext : j + 1 < UInt64.size := Nat.lt_of_le_of_lt (Nat.le_add_right _ _) h
    obtain ⟨hitem, hitems⟩ := List.forall_mem_cons.mp hwidth
    rw [argmaxColumns, Value.argmaxColumns, mapM_report fun _ _ => rfl, report_bind]
    cases hothers : rest.mapM (Value.column dims j) with
    | error f => rw [report_error, error_bind, error_bind]
    | ok others =>
      have hlength : others.length = rest.length := length_of_mapM hothers
      rw [report_ok, ok_bind, ok_bind, argmaxAcross_eq (hlength ▸ hrest) item hitem, report_bind]
      cases Value.argmaxAcross others item with
      | error f => rw [report_error, error_bind, error_bind]
      | ok w =>
        rw [report_ok, ok_bind, ok_bind, bind_of_eq_ok (size_natCast hnext),
          argmaxColumns_eq hrest dims (j + 1) items hitems h, report_bind]
        rfl

end

theorem argmaxAt_eq {axis : Nat} (haxis : axis < 0x8000000000000000) {v : Value}
    (hv : v.Within 0x8000000000000000) : argmaxAt axis v = report (Value.argmaxAt axis v) := by
  induction axis generalizing v with
  | zero =>
    rw [argmaxAt]
    cases v with
    | scalar s =>
      rw [itemsAlong_scalar haxis]
      rfl
    | array items =>
      rw [itemsAlong_array haxis, ok_bind]
      cases items with
      | nil => rfl
      | cons first rest =>
        have hlength : 1 + rest.length < 0x8000000000000000 := Nat.add_comm 1 _ ▸ hv.length
        exact argmaxAcross_eq hlength first (hv.item List.mem_cons_self).width
  | succ axis ih =>
    rw [argmaxAt]
    cases v with
    | scalar s =>
      rw [itemsAlong_scalar haxis]
      rfl
    | array items =>
      rw [itemsAlong_array haxis, ok_bind, Value.argmaxAt, report_bind,
        mapM_report fun item hitem => ih (Nat.lt_of_succ_lt haxis) (hv.item hitem)]
      rfl

theorem argmax_eq {v : Value} {axis : Int} (hv : v.Within 0x8000000000000000)
    (haxis : Word.Fits axis) : argmax v axis = report (v.argmax axis) := by
  obtain ⟨hposition, hfits⟩ := position_eq hv.rank haxis
  unfold argmax Value.argmax
  rw [bind_of_eq_ok (rank_of_within hv), bind_of_eq_ok hposition]
  dsimp only
  generalize (if axis < 0 then axis + v.rank else axis) = position at hfits
  by_cases hsign : position < 0
  · rw [if_pos (.inr hsign), if_pos (.inl hsign)]
    rfl
  · have hnonneg : 0 ≤ position := not_lt.mp hsign
    have hdepth : position.toNat < 0x8000000000000000 :=
      (Int.toNat_lt' (by decide)).mpr hfits.2
    have hle : (v.rank : Int) ≤ position ↔ v.rank ≤ position.toNat := by omega
    by_cases hrank : v.rank ≤ position.toNat
    · rw [if_pos (.inr (hle.mpr hrank) : position < 0 ∨ (v.rank : Int) ≤ position)]
      by_cases hzero : v.rank = 0
      · rw [if_pos (.inl hzero)]
        rfl
      · rw [if_neg (by omega), bind_of_eq_ok (size_eq hfits hnonneg), if_pos hrank]
        rfl
    · rw [if_neg (by omega), if_neg (by omega), bind_of_eq_ok (size_eq hfits hnonneg),
        if_neg hrank]
      exact argmaxAt_eq hdepth hv

end Checked

/-! ## Ranks of reductions -/

namespace Value

theorem rank_traverse {g : Scalar → Except Fault Scalar} {v w : Value}
    (h : v.traverse (fun s => do return .scalar (← g s)) = .ok w) : w.rank = v.rank := by
  rw [← length_dims, dims_of_traverse h, length_dims]

/-- Broadcasting goes no deeper than the operand of higher rank. -/
theorem rank_binary_le {op : BinaryOp} {a b w : Value} {n : Nat} (h : binary op a b = .ok w)
    (ha : a.rank ≤ n) (hb : b.rank ≤ n) : w.rank ≤ n := by
  unfold binary at h
  rcases a with s | xs <;> rcases b with t | ys
  · rw [broadcast] at h
    obtain ⟨r, -, hr⟩ := bind_eq_ok.mp h
    cases hr
    exact Nat.zero_le n
  · rw [broadcast] at h
    exact rank_traverse h ▸ hb
  · rw [broadcast] at h
    exact rank_traverse h ▸ ha
  · rw [broadcast_raised] at h
    obtain ⟨-, hlength⟩ :=
      length_of_commonDims? (commonDims?_of_broadcast (rank_raised_eq xs ys) rfl h)
    rw [length_dims, length_dims] at hlength
    rw [← hlength]
    rcases Nat.le_total (array xs).rank (array ys).rank with hle | hle
    · rwa [raised_of_le hle]
    · rwa [rank_raised (Pair.one_le_rank_array ys) hle]

end Value

namespace Reduction

variable {r : Reduction} {dtype : DType} {keepDims : Bool}

theorem rank_foldlM_le {op : BinaryOp} {rest : List Value} {first w : Value} {n : Nat}
    (h : rest.foldlM (Value.binary op) first = .ok w) (hfirst : first.rank ≤ n)
    (hrest : ∀ item ∈ rest, item.rank ≤ n) : w.rank ≤ n := by
  induction rest generalizing first with
  | nil =>
    cases h
    exact hfirst
  | cons item rest ih =>
    obtain ⟨hitem, hrest⟩ := List.forall_mem_cons.mp hrest
    rw [List.foldlM_cons] at h
    obtain ⟨sum, hsum, h⟩ := bind_eq_ok.mp h
    exact ih h (Value.rank_binary_le hsum hfirst hitem) hrest

theorem rank_fold_le {items : List Value} {w : Value} {n : Nat} (h : r.fold dtype items = .ok w)
    (hitems : ∀ item ∈ items, item.rank ≤ n) : w.rank ≤ n := by
  cases items with
  | nil =>
    cases h
    exact Nat.zero_le n
  | cons first rest =>
    obtain ⟨hfirst, hrest⟩ := List.forall_mem_cons.mp hitems
    obtain ⟨total, htotal, h⟩ := bind_eq_ok.mp h
    have hrank := rank_foldlM_le htotal hfirst hrest
    split at h
    · exact Value.rank_traverse h ▸ hrank
    · cases h
      exact hrank

/-- Reducing an axis does not nest deeper than the value itself. -/
theorem rank_alongAxis_le {axis : Nat} {v w : Value}
    (h : r.alongAxis dtype keepDims axis v = .ok w) : w.rank ≤ v.depth := by
  induction axis generalizing v w with
  | zero =>
    cases v with
    | scalar s => cases h
    | array items =>
      obtain ⟨total, htotal, h⟩ := bind_eq_ok.mp h
      have hrank : total.rank ≤ Value.depthOfItems items :=
        rank_fold_le htotal fun item hitem =>
          Nat.le_trans item.rank_le_depth (Nat.le_of_lt_succ (Value.depth_lt_of_mem hitem))
      cases h
      split
      · exact Nat.succ_le_succ hrank
      · exact Nat.le_succ_of_le hrank
  | succ axis ih =>
    cases v with
    | scalar s => cases h
    | array items =>
      obtain ⟨ws, hws, h⟩ := bind_eq_ok.mp h
      cases h
      cases items with
      | nil =>
        cases hws
        exact Nat.le_refl 1
      | cons item items =>
        -- The rank follows the first item, and the depth is that of the deepest one.
        rw [List.mapM_cons] at hws
        obtain ⟨first, hfirst, hws⟩ := bind_eq_ok.mp hws
        obtain ⟨rest, -, hws⟩ := bind_eq_ok.mp hws
        cases hws
        exact Nat.succ_le_of_lt
          (Nat.lt_of_le_of_lt (ih hfirst) (Value.depth_lt_of_mem List.mem_cons_self))

end Reduction

namespace Checked

/-! ## Reductions -/

variable {r : Reduction} {dtype : DType} {keepDims : Bool}

/-- Reduces the axis at the given depth. Inside the outermost one it is one less. -/
def alongAxis (r : Reduction) (dtype : DType) (keepDims : Bool) : Nat → Value → Checked Value
  | 0, v => do
    let items ← itemsAlong 0 (rank v) v
    let total ← report (r.fold dtype items)
    return if keepDims then .array [total] else total
  | axis + 1, v => do
    let items ← itemsAlong (axis + 1) (rank v) v
    let items ← items.mapM (alongAxis r dtype keepDims axis)
    return .array items

/-- An axis of a value of the given rank as its depth. -/
def depth (rank : Nat) (scalar : Bool) (axis : Int) : Checked Nat := do
  let position ← position rank axis
  if position < 0 ∨ 1 < position then throw (.fault (.unsupportedReduction axis))
  else
    let depth ← size position
    if !scalar ∧ rank ≤ depth then throw (.fault (.invalidAxis axis rank))
    else return depth

def reduce (r : Reduction) (dtype : DType) (keepDims : Bool) (axes : Option (List Int))
    (v : Value) : Checked Value := do
  let rank ← rank v
  match axes with
  | none => report (r.reduce dtype keepDims none v).outcome
  | some axes =>
    let depths ← axes.mapM (depth rank v.isScalar)
    if v.isScalar then return v
    else
      ([1, 0].filter (depths.contains ·)).foldlM
        (fun u axis => alongAxis r dtype keepDims axis u) v

theorem alongAxis_outermost {v : Value} (h : v.rank < UInt64.size) :
    alongAxis r dtype keepDims 0 v = report (r.alongAxis dtype keepDims 0 v) := by
  rw [alongAxis, rank_eq h]
  cases v with
  | scalar s => rw [itemsAlong_scalar (by decide)]; rfl
  | array items =>
    rw [itemsAlong_array (by decide), ok_bind, Reduction.alongAxis, report_bind]
    rfl

theorem alongAxis_eq {axis : Nat} (haxis : axis < 0x8000000000000000) {v : Value}
    (hv : v.Within 0x8000000000000000) :
    alongAxis r dtype keepDims axis v = report (r.alongAxis dtype keepDims axis v) := by
  induction axis generalizing v with
  | zero => exact alongAxis_outermost (Nat.lt_trans hv.rank (by decide))
  | succ axis ih =>
    rw [alongAxis, rank_of_within hv]
    cases v with
    | scalar s =>
      rw [itemsAlong_scalar haxis]
      rfl
    | array items =>
      rw [itemsAlong_array haxis, ok_bind, Reduction.alongAxis, report_bind,
        mapM_report fun item hitem => ih (Nat.lt_of_succ_lt haxis) (hv.item hitem)]
      rfl

theorem depth_eq {v : Value} {axis : Int} (hv : v.Within 0x8000000000000000)
    (haxis : Word.Fits axis) : depth v.rank v.isScalar axis = report (Reduction.depth v axis) := by
  obtain ⟨hposition, hfits⟩ := position_eq hv.rank haxis
  unfold depth Reduction.depth
  rw [bind_of_eq_ok hposition]
  dsimp only
  generalize (if axis < 0 then axis + v.rank else axis) = position at hfits
  split
  · rfl
  · rename_i hrange
    have hnonneg : 0 ≤ position := by omega
    have hle : (v.rank : Int) ≤ position ↔ v.rank ≤ position.toNat := by omega
    have hscalar : (!v.isScalar) = v.isArray := by cases v <;> rfl
    rw [bind_of_eq_ok (size_eq hfits hnonneg), hscalar]
    simp only [hle]
    split <;> rfl

/-- Only the two outermost axes are reduced, the inner one first. -/
theorem alongAxes_eq {v : Value} (hv : v.Within 0x8000000000000000) (chosen : Nat → Bool) :
    ([1, 0].filter chosen).foldlM (fun u axis => alongAxis r dtype keepDims axis u) v =
      report
        (([1, 0].filter chosen).foldlM (fun u axis => r.alongAxis dtype keepDims axis u) v) := by
  have hinner : alongAxis r dtype keepDims 1 v = report (r.alongAxis dtype keepDims 1 v) :=
    alongAxis_eq (by decide) hv
  have houter : ∀ {u : Value}, u.rank ≤ v.depth →
      alongAxis r dtype keepDims 0 u = report (r.alongAxis dtype keepDims 0 u) := fun hu =>
    alongAxis_outermost (Nat.lt_trans (Nat.lt_of_le_of_lt hu hv.depth) (by decide))
  cases h1 : chosen 1 <;> cases h0 : chosen 0 <;> simp only [List.filter_cons, h1, h0]
  · rfl
  · simp [houter v.rank_le_depth]
  · simp [hinner]
  · simp only [if_true, List.filter_nil, List.foldlM_cons, List.foldlM_nil, hinner, report_bind]
    cases hw : r.alongAxis dtype keepDims 1 v with
    | error f => rfl
    | ok w =>
      -- Reducing the inner axis adds none, so the result can be reduced along the outer one.
      rw [report_ok, ok_bind, ok_bind, houter (Reduction.rank_alongAxis_le hw)]
      rfl

theorem reduce_eq {v : Value} {axes : Option (List Int)} (hv : v.Within 0x8000000000000000)
    (haxes : ∀ listed ∈ axes, ∀ axis ∈ listed, Word.Fits axis) :
    reduce r dtype keepDims axes v = report (r.reduce dtype keepDims axes v).outcome := by
  unfold reduce
  rw [bind_of_eq_ok (rank_of_within hv)]
  cases axes with
  | none => rfl
  | some listed =>
    have hdepths : listed.mapM (depth v.rank v.isScalar) =
        report (listed.mapM (Reduction.depth v)) :=
      mapM_report fun axis haxis => depth_eq hv (haxes listed rfl axis haxis)
    dsimp only
    rw [hdepths, Reduction.reduce, Reduction.order]
    cases listed.mapM (Reduction.depth v) with
    | error f => rfl
    | ok depths =>
      rw [report_ok, ok_bind, ok_bind]
      change _ = report (if v.isScalar then (⟨[], .ok v⟩ : Reduction.Trail)
        else r.alongAxes dtype keepDims ([1, 0].filter (depths.contains ·)) v).outcome
      split
      · rfl
      · rw [alongAxes_eq hv, Reduction.outcome_alongAxes]

/-! ## All kernels -/

/-- No step of the kernels overflows or goes out of bounds, whatever words they are given as
positions and axes: with all steps checked they report the same results. Of slices that is said as
long as no part that starts within its axis ends beyond the words; the position that lies outside of
the value is then the first or the last one of a part that was asked for. -/
theorem positions_stay_in_range {values : List Value}
    (hvalues : ∀ v ∈ values, v.Within 0x8000000000000000) :
    (∀ v ∈ values,
      (∀ starts sizes : List Int, starts.length < 0x8000000000000000 →
        Bounded (starts.zip sizes) v →
        slice v starts sizes = report (v.slice starts sizes) ∧
          ∀ i n, v.slice starts sizes = .error (.indexOutOfBounds i n) →
            Beyond (starts.zip sizes) i n) ∧
      (∀ i, Word.Fits i → index v i = report (v.index i)) ∧
      transpose v = report v.transpose ∧
      (∀ axis, Word.Fits axis → argmax v axis = report (v.argmax axis)) ∧
      ∀ (r : Reduction) (dtype : DType) (keepDims : Bool) (axes : Option (List Int)),
        (∀ listed ∈ axes, ∀ axis ∈ listed, Word.Fits axis) →
        reduce r dtype keepDims axes v = report (r.reduce dtype keepDims axes v).outcome) ∧
    ∀ axis, Word.Fits axis → concat values axis = report (Value.concat values axis) := by
  refine ⟨fun v hmem => ?_, fun axis haxis => concat_eq hvalues haxis⟩
  have hv := hvalues v hmem
  exact ⟨fun starts sizes hlength hbox => slice_eq hv hlength hbox, fun i hi => index_eq hv hi,
    transpose_eq hv, fun axis haxis => argmax_eq hv haxis,
    fun r dtype keepDims axes haxes => reduce_eq hv haxes⟩

/-- A slice that ends behind three items, and the least word as an axis and as a position. -/
theorem positions_stay_in_range_extremes :
    let v := Value.array [.scalar (.int 1), .scalar (.int 2), .scalar (.int 3)]
    v.Within 0x8000000000000000 ∧ Bounded [(2, 0x7FFFFFFFFFFFFFFD)] v ∧
      Word.Fits (-0x8000000000000000) ∧
      slice v [2] [0x7FFFFFFFFFFFFFFD] =
        .error (.fault (.indexOutOfBounds 0x7FFFFFFFFFFFFFFE 3)) ∧
      index v (-0x8000000000000000) =
        .error (.fault (.indexOutOfBounds (-0x8000000000000000) 3)) ∧
      argmax v (-0x8000000000000000) = .error (.fault (.invalidAxis (-0x8000000000000000) 1)) := by
  intro v
  have hv : v.Within 0x8000000000000000 := ⟨by decide, by decide⟩
  have hbounded : Bounded [(2, 0x7FFFFFFFFFFFFFFD)] v :=
    fun _ _ => ⟨by decide, fun _ _ _ _ => trivial⟩
  have hfits : Word.Fits (-0x8000000000000000) := by decide
  have hvalues : ∀ w ∈ [v], w.Within 0x8000000000000000 := by simpa using hv
  obtain ⟨hkernels, -⟩ := positions_stay_in_range hvalues
  obtain ⟨hslice, hindex, -, hargmax, -⟩ := hkernels v (List.mem_singleton_self v)
  refine ⟨hv, hbounded, hfits, ?_, ?_, ?_⟩
  · obtain ⟨h, -⟩ := hslice [2] [0x7FFFFFFFFFFFFFFD] (by decide) hbounded
    rw [h]
    rfl
  · rw [hindex _ hfits]
    rfl
  · rw [hargmax _ hfits]
    rfl

/-- The end of the part that starts at 2 and has the largest word as its size is no word. -/
theorem positions_stay_in_range_fails :
    ¬ ∀ (v : Value) (starts sizes : List Int), v.Within 0x8000000000000000 →
      starts.length < 0x8000000000000000 →
      (∀ p ∈ starts.zip sizes, Word.Fits p.1 ∧ Word.Fits p.2) →
      slice v starts sizes ≠ .error .overflow ∧
        ∀ i n, v.slice starts sizes = .error (.indexOutOfBounds i n) →
          Beyond (starts.zip sizes) i n := by
  intro h
  let v := Value.array [.scalar (.int 1), .scalar (.int 2), .scalar (.int 3)]
  have hfits : ∀ p ∈ [(2 : Int)].zip [0x7FFFFFFFFFFFFFFF], Word.Fits p.1 ∧ Word.Fits p.2 := by
    decide
  obtain ⟨hsafe, -⟩ := h v [2] [0x7FFFFFFFFFFFFFFF] ⟨by decide, by decide⟩ (by decide) hfits
  exact hsafe rfl

end Checked

end Dataflow
