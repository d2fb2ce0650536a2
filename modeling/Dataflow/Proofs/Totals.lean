import Dataflow.Proofs.Folding
import Mathlib.Data.Set.List

/-!
# Totals of words

A matrix of words is reduced overall by one fold through all of its words, and along both axes by a
fold of every row and another one of the row totals. Word arithmetic is exact modulo 2^64, so it is
associative, and the two ways come to the same sum and the same product.
-/

namespace Dataflow

open Value

namespace Reduction

/-! ## Folding words -/

/-- The operator of a reduction on words. -/
def onWords : Reduction → Int64 → Int64 → Int64
  | .sum | .mean => (· + ·)
  | .prod => (· * ·)

/-- What reducing no words gives. -/
def neutral : Reduction → Int64
  | .sum | .mean => 0
  | .prod => 1

def total (r : Reduction) (ns : List Int64) : Int64 := ns.foldl r.onWords r.neutral

/-- The sum or the product of whole numbers. -/
def exact : Reduction → List Int → Int
  | .sum | .mean => List.foldr (· + ·) 0
  | .prod => List.foldr (· * ·) 1

instance (r : Reduction) : Std.Associative r.onWords where
  assoc := by
    cases r with
    | sum => exact Int64.add_assoc
    | mean => exact Int64.add_assoc
    | prod => exact Int64.mul_assoc

theorem onWords_neutral (r : Reduction) (n : Int64) : r.onWords n r.neutral = n := by
  cases r <;> simp [onWords, neutral]

theorem neutral_onWords (r : Reduction) (n : Int64) : r.onWords r.neutral n = n := by
  cases r <;> simp [onWords, neutral]

theorem total_cons (r : Reduction) (n : Int64) (ns : List Int64) :
    r.total (n :: ns) = ns.foldl r.onWords n := by
  rw [total, List.foldl_cons, neutral_onWords]

theorem total_append (r : Reduction) (ms ns : List Int64) :
    r.total (ms ++ ns) = r.onWords (r.total ms) (r.total ns) := by
  rw [total, List.foldl_append, ← total, ← onWords_neutral r (r.total ms), List.foldl_assoc,
    onWords_neutral, ← total]

theorem total_flatten (r : Reduction) (rows : List (List Int64)) :
    r.total rows.flatten = r.total (rows.map r.total) := by
  induction rows with
  | nil => rfl
  | cons row rows ih =>
    rw [List.flatten_cons, total_append, ih, List.map_cons, ← List.singleton_append, total_append]
    rw [total_cons, List.foldl_nil]

/-- A total of words is the exact one modulo 2^64. -/
theorem total_eq_ofInt (r : Reduction) (ns : List Int64) :
    r.total ns = Int64.ofInt (r.exact (ns.map Int64.toInt)) := by
  induction ns with
  | nil => cases r <;> rfl
  | cons n ns ih =>
    rw [← List.singleton_append, total_append, ih, total_cons, List.foldl_nil]
    cases r <;> simp [exact, onWords, Int64.ofInt_add, Int64.ofInt_mul]

end Reduction

namespace Value

/-! ## Matrices of words -/

def ofWord (n : Int64) : Value := .scalar (.int n)

def ofWords (ns : List Int64) : Value := .array (ns.map ofWord)

theorem scalars_ofWords (ns : List Int64) : (ofWords ns).scalars = ns.map .int := by
  rw [ofWords, scalars_array, List.flatMap_map]
  exact List.map_eq_flatMap.symm

theorem scalars_array_ofWords (rows : List (List Int64)) :
    (Value.array (rows.map ofWords)).scalars = rows.flatten.map .int := by
  rw [scalars_array, List.flatMap_map, List.map_flatten, List.flatMap]
  exact congrArg List.flatten (List.map_congr_left fun row _ => scalars_ofWords row)

theorem Rect.rank_eq {vs : List Value} {v : Value} (h : Rect (.array vs)) (hv : v ∈ vs) :
    (Value.array vs).rank = v.rank + 1 := by
  rw [← length_dims, h.dims_eq hv, List.length_cons, length_dims]

/-- A flat array of words. -/
theorem Rect.exists_ofWords {v : Value} (h : v.Rect) (hrank : v.rank = 1)
    (hwords : ∀ s ∈ v.scalars, ∃ n, s = .int n) : ∃ ns, ofWords ns = v := by
  obtain ⟨cells, rfl⟩ := eq_array_of_rank hrank
  have hcells : ∀ c ∈ cells, ∃ n, ofWord n = c := by
    intro c hc
    have hzero : c.rank = 0 := Nat.succ.inj ((h.rank_eq hc).symm.trans hrank)
    obtain ⟨s, rfl⟩ := eq_scalar_of_rank hzero
    obtain ⟨n, rfl⟩ := hwords s (by simpa using ⟨_, hc, List.mem_singleton_self s⟩)
    exact ⟨n, rfl⟩
  obtain ⟨ns, hns⟩ : cells ∈ Set.range (List.map ofWord) := (Set.range_list_map ofWord).ge hcells
  exact ⟨ns, congrArg Value.array hns⟩

/-- A matrix of words, with at least one row. -/
theorem Rect.exists_rows {v : Value} (h : v.Rect) (hrank : v.rank = 2)
    (hwords : ∀ s ∈ v.scalars, ∃ n, s = .int n) :
    ∃ row rows, v = .array ((row :: rows).map ofWords) := by
  obtain ⟨items, rfl⟩ := eq_array_of_rank hrank
  have hitems : ∀ w ∈ items, ∃ ns, ofWords ns = w := by
    intro w hw
    have hone : w.rank = 1 := Nat.succ.inj ((h.rank_eq hw).symm.trans hrank)
    refine (h.of_mem hw).exists_ofWords hone fun s hs => hwords s ?_
    rw [scalars_array]
    exact List.mem_flatMap.mpr ⟨w, hw, hs⟩
  obtain ⟨rows, rfl⟩ : items ∈ Set.range (List.map ofWords) :=
    (Set.range_list_map ofWords).ge hitems
  cases rows with
  | nil => cases hrank
  | cons row rows => exact ⟨row, rows, rfl⟩

end Value

namespace Reduction

variable {r : Reduction} {dtype : DType}

/-! ## Reducing words -/

theorem binary_ofWord (a b : Int64) :
    binary r.operator (ofWord a) (ofWord b) = .ok (ofWord (r.onWords a b)) := by
  rw [binary, ofWord, ofWord, broadcast]
  cases r <;> rfl

/-- Arrays of one item meet in this item. -/
theorem binary_singleton {op : BinaryOp} {a b c : Value} (hrank : a.rank = b.rank)
    (h : binary op a b = .ok c) : binary op (.array [a]) (.array [b]) = .ok (.array [c]) := by
  have hranks : (Value.array [a]).rank = (Value.array [b]).rank := congrArg Nat.succ hrank
  refine (broadcast_items hranks).trans ?_
  change (Value.array <$> [0].mapM fun _ => binary op a b) = _
  rw [List.mapM_cons, h]
  rfl

/-- What stands in the place of the items of an axis that come to `v`. -/
def kept (keepDims : Bool) (v : Value) : Value := if keepDims then .array [v] else v

theorem binary_kept (keepDims : Bool) (a b : Int64) :
    binary r.operator (kept keepDims (ofWord a)) (kept keepDims (ofWord b)) =
      .ok (kept keepDims (ofWord (r.onWords a b))) := by
  cases keepDims with
  | false => exact binary_ofWord a b
  | true => exact binary_singleton rfl (binary_ofWord a b)

theorem identity_of_isInteger (h : dtype.isInteger) : r.identity dtype = .int r.neutral := by
  cases dtype with
  | int32 => cases r <;> rfl
  | int16 => cases r <;> rfl
  | _ => cases h

/-- Folding words that are wrapped up in some way, such that the operator goes through. -/
theorem fold_words {e : Int64 → Value} (hr : r ≠ .mean)
    (he : ∀ a b, binary r.operator (e a) (e b) = .ok (e (r.onWords a b))) (n : Int64)
    (ns : List Int64) : r.fold dtype ((n :: ns).map e) = .ok (e (r.total (n :: ns))) := by
  have hrun : (ns.map e).foldlM (binary r.operator) (e n) = .ok (e (ns.foldl r.onWords n)) := by
    induction ns generalizing n with
    | nil => rfl
    | cons m ns ih =>
      rw [List.map_cons, List.foldlM_cons, he]
      exact ih (r.onWords n m)
  rw [total_cons, List.map_cons, fold, hrun]
  exact if_neg hr

theorem fold_ofWord (hr : r ≠ .mean) (hdtype : dtype.isInteger) (ns : List Int64) :
    r.fold dtype (ns.map ofWord) = .ok (ofWord (r.total ns)) := by
  cases ns with
  | nil => exact congrArg (Except.ok ∘ Value.scalar) (identity_of_isInteger hdtype)
  | cons n ns => exact fold_words hr binary_ofWord n ns

theorem overall_rows (hr : r ≠ .mean) (hdtype : dtype.isInteger) (keepDims : Bool) {v : Value}
    {ns : List Int64} (hrank : v.rank = 2) (hscalars : v.scalars = ns.map .int) :
    r.overall dtype keepDims v = .ok (kept keepDims (kept keepDims (ofWord (r.total ns)))) := by
  have hfold : r.fold dtype (v.scalars.map .scalar) = .ok (ofWord (r.total ns)) := by
    rw [hscalars, List.map_map]
    exact fold_ofWord hr hdtype ns
  rw [overall, hfold, hrank]
  cases keepDims <;> rfl

/-- The totals of the rows. -/
theorem alongAxis_rows (hr : r ≠ .mean) (hdtype : dtype.isInteger) (keepDims : Bool)
    (rows : List (List Int64)) :
    r.alongAxis dtype keepDims 1 (.array (rows.map ofWords)) =
      .ok (.array ((rows.map r.total).map fun n => kept keepDims (ofWord n))) := by
  have hrow (row : List Int64) : r.alongAxis dtype keepDims 0 (ofWords row) =
      .ok (kept keepDims (ofWord (r.total row))) := by
    rw [ofWords, alongAxis, fold_ofWord hr hdtype]
    rfl
  have hrows : (rows.map ofWords).mapM (r.alongAxis dtype keepDims 0) =
      .ok (rows.map fun row => kept keepDims (ofWord (r.total row))) := by
    rw [List.mapM_map]
    exact (Except.mapM_congr fun row _ => hrow row).trans List.mapM_pure
  rw [alongAxis, hrows, List.map_map]
  rfl

/-- The total of the totals of the rows. -/
theorem foldlM_alongAxis_rows (hr : r ≠ .mean) (hdtype : dtype.isInteger) (keepDims : Bool)
    (row : List Int64) (rows : List (List Int64)) :
    [1, 0].foldlM (fun u d => r.alongAxis dtype keepDims d u)
        (.array ((row :: rows).map ofWords)) =
      .ok (kept keepDims (kept keepDims (ofWord (r.total (row :: rows).flatten)))) := by
  have hfold : r.fold dtype (((row :: rows).map r.total).map fun n => kept keepDims (ofWord n)) =
      .ok (kept keepDims (ofWord (r.total (row :: rows).flatten))) := by
    rw [total_flatten]
    exact fold_words hr (binary_kept keepDims) (r.total row) (rows.map r.total)
  rw [List.foldlM_cons, alongAxis_rows hr hdtype]
  change [0].foldlM (fun u d => r.alongAxis dtype keepDims d u) (Value.array _) = _
  rw [List.foldlM_cons, alongAxis, hfold]
  rfl

/-- A list of both axes of a matrix, in whatever order and however often they are counted. -/
theorem outcome_reduce_both {v : Value} {axes : List Int} {keepDims : Bool} (hrank : v.rank = 2)
    (h : ∀ axis ∈ axes, position v axis = 0 ∨ position v axis = 1)
    (hzero : 0 ∈ axes.map (position v)) (hone : 1 ∈ axes.map (position v)) :
    (r.reduce dtype keepDims (some axes) v).outcome =
      [1, 0].foldlM (fun u d => r.alongAxis dtype keepDims d u) v := by
  have hv : v.isArray := isArray_iff.mpr (by omega)
  have hvalid : ∀ axis ∈ axes, Valid v axis := by
    intro axis haxis
    have hposition := h axis haxis
    exact ⟨hposition, by omega⟩
  have hboth : ([1, 0].filter fun d : Nat => (d : Int) ∈ axes.map (position v)) = [1, 0] := by
    apply List.filter_eq_self.mpr
    intro d hd
    rcases List.mem_pair.mp hd with rfl | rfl
    · exact decide_eq_true hone
    · exact decide_eq_true hzero
  rw [outcome_reduce_of_valid hv hvalid, hboth]

end Reduction

namespace Value

open Reduction (position kept)

/-- Reducing a matrix of words overall is reducing it along both axes, however these are counted.
The sum or the product is that of the whole numbers modulo 2^64. -/
theorem Rect.reduce_all_eq_both_axes (r : Reduction) (dtype : DType) (keepDims : Bool) {v : Value}
    (hr : r = .sum ∨ r = .prod) (hdtype : dtype.isInteger) (h : v.Rect) (hrank : v.rank = 2)
    (hwords : ∀ s ∈ v.scalars, ∃ n, s = .int n) :
    (r.reduce dtype keepDims none v).outcome =
        (r.reduce dtype keepDims (some [0, 1]) v).outcome ∧
      (r.reduce dtype keepDims none v).outcome =
        (r.reduce dtype keepDims (some [-1, -2]) v).outcome ∧
      ∃ ns : List Int64, v.scalars = ns.map .int ∧
        let total : Value := .scalar (.int (Int64.ofInt (r.exact (ns.map Int64.toInt))))
        (r.reduce dtype keepDims none v).outcome =
          .ok (if keepDims then .array [.array [total]] else total) := by
  have hmean : r ≠ .mean := by
    rintro rfl
    exact hr.elim nofun nofun
  have hlisted : (r.reduce dtype keepDims (some [0, 1]) v).outcome =
      [1, 0].foldlM (fun u d => r.alongAxis dtype keepDims d u) v :=
    Reduction.outcome_reduce_both hrank (by simp [position]) (by simp [position])
      (by simp [position])
  have hcounted : (r.reduce dtype keepDims (some [-1, -2]) v).outcome =
      [1, 0].foldlM (fun u d => r.alongAxis dtype keepDims d u) v :=
    Reduction.outcome_reduce_both hrank (by simp [position, hrank]) (by simp [position, hrank])
      (by simp [position, hrank])
  -- Either list of axes comes to folding the columns first, and then the row that is left.
  obtain ⟨row, rows, rfl⟩ := h.exists_rows hrank hwords
  have hscalars := scalars_array_ofWords (row :: rows)
  have hoverall : (r.reduce dtype keepDims none (.array ((row :: rows).map ofWords))).outcome =
      .ok (kept keepDims (kept keepDims (ofWord (r.total (row :: rows).flatten)))) :=
    Reduction.overall_rows hmean hdtype keepDims hrank hscalars
  have hboth := Reduction.foldlM_alongAxis_rows hmean hdtype keepDims row rows
  rw [hlisted, hcounted, hboth]
  refine ⟨hoverall, hoverall, _, hscalars, ?_⟩
  rw [hoverall, Reduction.total_eq_ofInt]
  cases keepDims <;> rfl

/-- A sum past the largest word. -/
theorem Rect.reduce_all_eq_both_axes_past_largest :
    let v : Value := .array [.array [.scalar (.int 0x7FFFFFFFFFFFFFFF), .scalar (.int 1)],
      .array [.scalar (.int 2), .scalar (.int 3)]]
    v.Rect ∧ v.rank = 2 ∧ (∀ s ∈ v.scalars, ∃ n, s = .int n) ∧
      (Reduction.sum.reduce .int16 false none v).outcome =
        (Reduction.sum.reduce .int16 false (some [0, 1]) v).outcome ∧
      (Reduction.sum.reduce .int16 false none v).outcome =
        .ok (.scalar (.int (-0x7FFFFFFFFFFFFFFB))) := by
  intro v
  have hrow (m n : Int64) : (Value.array [.scalar (.int m), .scalar (.int n)]).Rect :=
    .array (by simp [Rect.scalar]) (by simp [dims])
  have hv : v.Rect := .array (by simp [hrow]) (by simp [dims])
  have hwords : ∀ s ∈ v.scalars, ∃ n, s = .int n := by simp [v]
  obtain ⟨hboth, -, ns, hns, htotal⟩ :=
    hv.reduce_all_eq_both_axes .sum .int16 false (.inl rfl) rfl rfl hwords
  have : ns = [0x7FFFFFFFFFFFFFFF, 1, 2, 3] :=
    List.map_injective_iff.mpr (fun _ _ h => Scalar.int.inj h) hns.symm
  subst this
  exact ⟨hv, rfl, hwords, hboth, htotal⟩

end Value

end Dataflow
