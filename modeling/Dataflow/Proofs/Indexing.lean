import Dataflow.Proofs.Machine
import Dataflow.Rearrange.Matrix
import Dataflow.Rearrange.Slice

/-!
# Positions in machine integers

The kernels that take positions, axes and extents from their caller, with every step on them
checked. They report what the kernels on unbounded numbers give as long as no slice is asked for
that would end beyond the signed integers.
-/

namespace Dataflow

open Except

namespace Checked

/-! ## Slices -/

/-- The first position after the part of an axis that starts at `start`. -/
def stop (length start : Nat) (extent : Int) : Checked Nat :=
  if extent = -1 then .ok length
  else if extent < 0 then .error (.fault (.invalidSize extent))
  else do
    let stop ← size (start + extent)
    if length < stop then
      let stop ← word stop
      let last ← word (stop - 1)
      throw (.fault (.indexOutOfBounds last length))
    return stop

def sliceAt : List (Int × Int) → Value → Checked Value
  | [], v => .ok v
  | (start, extent) :: box, v => do
    let items := v.items?.getD []
    if start < 0 ∨ items.length < start then
      throw (.fault (.indexOutOfBounds start items.length))
    let stop ← stop items.length start.toNat extent
    let items ← part items start.toNat stop
    return .array (← items.mapM (sliceAt box))

def slice (v : Value) (starts sizes : List Int) : Checked Value := do
  if starts.length ≠ sizes.length then
    throw (.fault (.rankMismatch starts.length sizes.length))
  let rank ← rank v
  if rank < starts.length then
    let count ← word starts.length
    let axis ← word (count - 1)
    throw (.fault (.invalidAxis axis rank))
  sliceAt (starts.zip sizes) v

/-- Every part that the box cuts out of an axis ends where signed integers can tell. Nothing is
asked of a part that starts outside of its axis, nor of items that are not cut out. -/
def Bounded : List (Int × Int) → Value → Prop
  | [], _ => True
  | (start, extent) :: box, v =>
    let items := v.items?.getD []
    0 ≤ start → start ≤ items.length → start + extent < 0x8000000000000000 ∧
      ∀ last, Value.stop items.length start.toNat extent = .ok last →
        ∀ item ∈ (items.take last).drop start.toNat, Bounded box item

theorem toInt_ofNat_sub_one {n : Nat} (hpos : 0 < n) (h : n < 0x8000000000000000) :
    (Int64.ofNat n - 1).toInt = n - 1 := by
  rw [Int64.toInt_sub, Int64.toInt_ofNat_of_lt (by omega), Int64.toInt_one,
    Int.bmod_eq_of_le (by omega) (by omega)]

theorem stop_eq (length : Nat) {start : Nat} {extent : Int}
    (hsum : start + extent < 0x8000000000000000) :
    stop length start extent = report (Value.stop length start extent) ∧
      ∀ i n, Value.stop length start extent = .error (.indexOutOfBounds i n) →
        n = length ∧ length < start + extent ∧ i = start + extent - 1 := by
  by_cases hopen : extent = -1
  · rw [stop, Value.stop, if_pos hopen, if_pos hopen]
    exact ⟨rfl, fun i n h => by cases h⟩
  by_cases hsign : extent < 0
  · rw [stop, Value.stop, if_neg hopen, if_neg hopen, if_pos hsign, if_pos hsign]
    exact ⟨rfl, fun i n h => by cases h⟩
  obtain ⟨last, hlast⟩ : ∃ last : Nat, last = start + extent.toNat := ⟨_, rfl⟩
  have hextent : (start : Int) + extent = last := by
    rw [hlast, Nat.cast_add, Int.toNat_of_nonneg (not_lt.mp hsign)]
  rw [hextent] at hsum
  have hfits : last < 0x8000000000000000 := by exact_mod_cast hsum
  rw [stop, Value.stop, if_neg hopen, if_neg hopen, if_neg hsign, if_neg hsign, ← hlast, hextent]
  have hsize : size last = .ok last := size_natCast (Nat.lt_trans hfits (by decide))
  -- An end beyond the axis is reported as the position before it, which is a word like the end.
  by_cases hlength : length < last
  · have hpos : 0 < last := Nat.lt_of_le_of_lt (Nat.zero_le _) hlength
    have hword : word last = .ok last := word_natCast hfits
    have hindex : word (last - 1) = .ok (last - 1) := word_pred hpos hfits
    rw [bind_of_eq_ok hsize, if_pos hlength, if_pos hlength, bind_of_eq_ok hword,
      bind_of_eq_ok hindex, toInt_ofNat_sub_one hpos hfits]
    refine ⟨rfl, fun i n h => ?_⟩
    cases h
    exact ⟨rfl, Int.ofNat_lt.mpr hlength, rfl⟩
  · rw [bind_of_eq_ok hsize, if_neg hlength, if_neg hlength]
    exact ⟨rfl, fun i n h => by cases h⟩

theorem le_of_stop {length start last : Nat} {extent : Int} (hstart : start ≤ length)
    (h : Value.stop length start extent = .ok last) : start ≤ last ∧ last ≤ length := by
  unfold Value.stop at h
  split at h
  · cases h
    exact ⟨hstart, Nat.le_refl _⟩
  · split at h
    · cases h
    · split at h
      · cases h
      · cases h
        omega

/-- The start or the extent of the box reaches beyond the axis of extent `n`, and `i` is the
position that lies there. -/
def Beyond (box : List (Int × Int)) (i : Int) (n : Nat) : Prop :=
  ∃ start extent, (start, extent) ∈ box ∧
    ((start < 0 ∨ n < start) ∧ i = start ∨ n < start + extent ∧ i = start + extent - 1)

theorem Beyond.cons {box : List (Int × Int)} {i : Int} {n : Nat} (h : Beyond box i n)
    (p : Int × Int) : Beyond (p :: box) i n := by
  obtain ⟨start, extent, hmem, hbeyond⟩ := h
  exact ⟨start, extent, List.mem_cons_of_mem p hmem, hbeyond⟩

theorem sliceAt_eq {box : List (Int × Int)} {v : Value} (hbox : Bounded box v) :
    sliceAt box v = report (Value.sliceAt box v) ∧
      ∀ i n, Value.sliceAt box v = .error (.indexOutOfBounds i n) → Beyond box i n := by
  induction box generalizing v with
  | nil => exact ⟨rfl, fun i n h => by cases h⟩
  | cons p box ih =>
    obtain ⟨start, extent⟩ := p
    rw [sliceAt, Value.sliceAt]
    rw [Bounded] at hbox
    generalize v.items?.getD [] = items at hbox
    -- Outside of its axis the part is refused at once, and nothing is known of where it would end.
    by_cases hstart : start < 0 ∨ items.length < start
    · simp only [if_pos hstart]
      refine ⟨rfl, fun i n h => ?_⟩
      cases h
      exact ⟨start, extent, List.mem_cons_self, .inl ⟨hstart, rfl⟩⟩
    · simp only [if_neg hstart]
      obtain ⟨first, rfl⟩ := Int.eq_ofNat_of_zero_le (by omega : 0 ≤ start)
      have hfirst : first ≤ items.length := by omega
      obtain ⟨hsum, hrest⟩ := hbox (Int.natCast_nonneg first) (Int.ofNat_le.mpr hfirst)
      obtain ⟨hstop, hindex⟩ := stop_eq items.length hsum
      simp only [Int.toNat_natCast] at hrest ⊢
      rw [hstop]
      cases hlast : Value.stop items.length first extent with
      | error f =>
        refine ⟨rfl, fun i n h => ?_⟩
        cases h
        obtain ⟨rfl, hbeyond, hi⟩ := hindex i n hlast
        exact ⟨first, extent, List.mem_cons_self, .inr ⟨hbeyond, hi⟩⟩
      | ok last =>
        -- What is cut out lies in the axis, so the induction goes on with each item of it.
        obtain ⟨hfrom, hto⟩ := le_of_stop hfirst hlast
        rw [report_ok, ok_bind, ok_bind, bind_of_eq_ok (part_eq hfrom hto),
          mapM_report fun item hitem => (ih (hrest last hlast item hitem)).1]
        cases hitems : ((items.take last).drop first).mapM (Value.sliceAt box) with
        | ok ws => exact ⟨rfl, fun i n h => by cases h⟩
        | error f =>
          refine ⟨rfl, fun i n h => ?_⟩
          cases h
          obtain ⟨before, item, after, hsplit, -, hitem⟩ := exists_first_of_mapM hitems
          have hmem : item ∈ (items.take last).drop first := by simp [hsplit]
          exact ((ih (hrest last hlast item hmem)).2 i n hitem).cons _

theorem slice_eq {v : Value} {starts sizes : List Int} (hv : v.Within 0x8000000000000000)
    (hlength : starts.length < 0x8000000000000000)
    (hbox : Bounded (starts.zip sizes) v) :
    slice v starts sizes = report (v.slice starts sizes) ∧
      ∀ i n, v.slice starts sizes = .error (.indexOutOfBounds i n) →
        Beyond (starts.zip sizes) i n := by
  unfold slice Value.slice
  by_cases hsizes : starts.length ≠ sizes.length
  · rw [if_pos hsizes, if_pos hsizes]
    exact ⟨rfl, fun i n h => nomatch h⟩
  · rw [if_neg hsizes, if_neg hsizes, bind_of_eq_ok (rank_of_within hv)]
    by_cases hrank : v.rank < starts.length
    · rw [if_pos hrank, if_pos hrank, bind_of_eq_ok (word_natCast hlength),
        bind_of_eq_ok (word_pred (Nat.lt_of_le_of_lt (Nat.zero_le _) hrank) hlength)]
      exact ⟨rfl, fun i n h => nomatch h⟩
    · rw [if_neg hrank, if_neg hrank]
      exact sliceAt_eq hbox

/-! ## Items -/

/-- The item at position `i` of an array. -/
def index (v : Value) (i : Int) : Checked Value :=
  match v with
  | .scalar s => .error (.fault (.typeMismatch .array s.text))
  | .array items => do
    let position ← position items.length i
    if position < 0 then throw (.fault (.indexOutOfBounds i items.length))
    else
      match items[position.toNat]? with
      | some item => return item
      | none => throw (.fault (.indexOutOfBounds i items.length))

theorem index_eq {v : Value} {i : Int} (hv : v.Within 0x8000000000000000) (hi : Word.Fits i) :
    index v i = report (v.index i) := by
  cases v with
  | scalar s => rfl
  | array items =>
    unfold index Value.index
    dsimp only
    rw [bind_of_eq_ok (position_eq hv.length hi).1]
    generalize (if i < 0 then i + items.length else i : Int) = position
    split
    · rfl
    · cases items[position.toNat]? <;> rfl

/-! ## Matrices -/

/-- The item at position `j` of a row. A scalar in the place of a row stands for itself. -/
def rowItem (j : Nat) : Value → Checked Value
  | .scalar s => .ok (.scalar s)
  | .array row => item row j

def transpose (v : Value) : Checked Value := do
  match ← rank v with
  | 0 | 1 => return v
  | 2 =>
    let rows := v.items?.getD []
    let cols := (rows.head?.map Value.length).getD 0
    match rows.find? fun row => row.length ≠ cols with
    | some bad =>
      throw (.fault (.shapeMismatch [rows.length, cols] [rows.length, bad.length]))
    | none =>
      let columns ← (List.range cols).mapM fun j => do
        let column ← rows.mapM (rowItem j)
        return .array column
      return .array columns
  | n => throw (.fault (.untransposableRank n))

theorem rowItem_eq {row : Value} {j : Nat} (h : j < row.length) :
    rowItem j row = .ok (Value.rowItem j row) := by
  cases row with
  | scalar s => rfl
  | array items =>
    rw [rowItem, item_eq h, Value.rowItem, List.getD_eq_getElem?_getD, List.getElem?_eq_getElem h]
    rfl

theorem transpose_eq {v : Value} (hv : v.Within 0x8000000000000000) :
    transpose v = report v.transpose := by
  unfold transpose Value.transpose
  rw [bind_of_eq_ok (rank_of_within hv)]
  match v.rank with
  | 0 | 1 | n + 3 => rfl
  | 2 =>
    dsimp only
    generalize v.items?.getD [] = rows
    generalize (rows.head?.map Value.length).getD 0 = cols
    cases hbad : rows.find? fun row => row.length ≠ cols with
    | some bad => rfl
    | none =>
      -- The rows were compared with the first one, so they all have an item in each column.
      have hlengths : ∀ row ∈ rows, row.length = cols := by simpa using hbad
      have hcolumn : ∀ j ∈ List.range cols, (do
          let column ← rows.mapM (rowItem j)
          return Value.array column : Checked Value) =
            .ok (.array (rows.map (Value.rowItem j))) := by
        intro j hj
        have hitems : ∀ row ∈ rows, rowItem j row = .ok (Value.rowItem j row) := fun row hrow =>
          rowItem_eq (hlengths row hrow ▸ List.mem_range.mp hj)
        exact bind_of_eq_ok ((mapM_congr hitems).trans List.mapM_pure)
      exact bind_of_eq_ok ((mapM_congr hcolumn).trans List.mapM_pure)

end Checked

end Dataflow
