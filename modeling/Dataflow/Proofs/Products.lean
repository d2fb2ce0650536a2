import Dataflow.Matrix.Product
import Dataflow.Proofs.Extents
import Dataflow.Proofs.Packing
import Dataflow.Proofs.Totals
import Mathlib.Algebra.BigOperators.Intervals

/-!
# Products of words

A matrix product is summed up in place, one row of the second matrix after the other. The loops are
followed one entry of the sums at a time: an entry collects the products of a row and of a column,
in their order. As many sums are set up as can be counted in 64 bits, so this is said of products
with fewer entries than that. Sums and products of words are exact modulo 2^64, and so is the
product of two matrices of words. It is the one that elementwise multiplication and reduction
give.
-/

namespace Dataflow

/-! ## Row-major order -/

section RowMajor

variable {α : Type}

/-- The entries of an `m × n` matrix, row after row. -/
def rowMajor (m n : Nat) (f : Nat → Nat → α) : List α :=
  (List.range m).flatMap fun i => (List.range n).map (f i)

theorem map_rowMajor {β : Type} (m n : Nat) (f : Nat → Nat → α) (g : α → β) :
    (rowMajor m n f).map g = rowMajor m n fun i j => g (f i j) := by
  rw [rowMajor, List.map_flatMap]
  exact congrArg (List.flatMap · (List.range m)) (funext fun i => List.map_map)

end RowMajor

/-! ## Summing up in place -/

section Sums

variable {α : Type}

theorem size_foldl {β : Type} {f : Array α → β → Array α} (h : ∀ xs y, (f xs y).size = xs.size)
    (ys : List β) (xs : Array α) : (ys.foldl f xs).size = xs.size := by
  induction ys generalizing xs with
  | nil => rfl
  | cons y ys ih => rw [List.foldl_cons, ih, h]

variable [Add α] [Mul α] {zero : α} {a b : Array α} {m k n i i' j p : Nat} {sums : Array α}

theorem size_addRow (x : α) : (addRow zero b n i p x sums).size = sums.size :=
  size_foldl (fun _ _ => Array.size_modify) _ _

theorem size_addRows : (addRows zero a b k n i sums).size = sums.size :=
  size_foldl (fun _ _ => size_addRow _) _ _

theorem length_productEntries : (productEntries zero a b m k n).length = counted (m * n) := by
  rw [productEntries, Array.length_toList, size_foldl fun _ _ => size_addRows,
    Array.size_replicate]

end Sums

/-! ## Words -/

namespace Scalar

/-- What a whole number or a truth value is in arithmetic. -/
def word : Scalar → Int64
  | .int i => i
  | .bool b => if b then 1 else 0
  | _ => 0

theorem asInt_eq_word {s : Scalar} (h : Dense.isWord s) : s.asInt = .ok s.word := by
  cases s with
  | int i => rfl
  | bool b => rfl
  | float x => cases h
  | str s => cases h

end Scalar

/-! ## Matrices -/

namespace Value

/-- The row of `n` scalars with `f j` at position `j`. -/
def line (n : Nat) (f : Nat → Scalar) : Value := .array ((List.range n).map fun j => .scalar (f j))

/-- The matrix with `f i j` in row `i` and column `j`. -/
def matrix (m n : Nat) (f : Nat → Nat → Scalar) : Value :=
  .array ((List.range m).map fun i => line n (f i))

variable {m k k' n i j : Nat} {f g : Nat → Nat → Scalar}

theorem dims_line (n : Nat) (f : Nat → Scalar) : (line n f).dims = [n] := by
  rw [line, dims_map_scalar, List.length_range]

theorem rect_line (n : Nat) (f : Nat → Scalar) : (line n f).Rect := by
  refine .array (fun v hv => ?_) fun v hv w hw => ?_
  · obtain ⟨j, -, rfl⟩ := List.mem_map.mp hv
    exact .scalar (f j)
  · obtain ⟨j, -, rfl⟩ := List.mem_map.mp hv
    obtain ⟨k, -, rfl⟩ := List.mem_map.mp hw
    rfl

theorem rect_matrix (m n : Nat) (f : Nat → Nat → Scalar) : (matrix m n f).Rect := by
  refine .array (fun v hv => ?_) fun v hv w hw => ?_
  · obtain ⟨i, -, rfl⟩ := List.mem_map.mp hv
    exact rect_line n (f i)
  · obtain ⟨i, -, rfl⟩ := List.mem_map.mp hv
    obtain ⟨j, -, rfl⟩ := List.mem_map.mp hw
    rw [dims_line, dims_line]

theorem dims_matrix (hm : 1 ≤ m) : (matrix m n f).dims = [m, n] := by
  have hrow : line n (f 0) ∈ (List.range m).map fun i => line n (f i) :=
    List.mem_map.mpr ⟨0, List.mem_range.mpr hm, rfl⟩
  rw [matrix, (rect_matrix m n f).dims_eq hrow, dims_line, List.length_map, List.length_range]

theorem scalars_line (n : Nat) (f : Nat → Scalar) : (line n f).scalars = (List.range n).map f := by
  rw [line, scalars_array, List.flatMap_map]
  exact List.map_eq_flatMap.symm

theorem scalars_matrix (m n : Nat) (f : Nat → Nat → Scalar) :
    (matrix m n f).scalars = rowMajor m n f := by
  rw [matrix, scalars_array, List.flatMap_map, rowMajor]
  exact congrArg (List.flatMap · (List.range m)) (funext fun i => scalars_line n (f i))

theorem mapM_asInt {ss : List Scalar} (h : ∀ s ∈ ss, Dense.isWord s) :
    ss.mapM Scalar.asInt = .ok (ss.map Scalar.word) :=
  (Except.mapM_congr fun s hs => Scalar.asInt_eq_word (h s hs)).trans List.mapM_pure

theorem ofValue_matrix (hm : 1 ≤ m) (h : ∀ i < m, ∀ j < n, Dense.isWord (f i j)) :
    Dense.ofValue (matrix m n f) =
      .ok ⟨[m, n], .words (rowMajor m n fun i j => (f i j).word)⟩ := by
  have hwords : ∀ s ∈ (matrix m n f).scalars, Dense.isWord s := by
    simp only [scalars_matrix, rowMajor, List.mem_flatMap, List.mem_map, List.mem_range]
    rintro s ⟨i, hi, j, hj, rfl⟩
    exact h i hi j hj
  have hcount := (rect_matrix m n f).tallies
  rw [Tallies] at hcount
  rw [Dense.ofValue, if_neg (not_not.mpr hcount), if_pos (List.all_eq_true.mpr hwords),
    mapM_asInt hwords, dims_matrix hm, scalars_matrix, map_rowMajor]
  rfl

/-- A rectangular matrix of whole numbers and truth values without an empty axis. It is `m × n` once
it is transposed, if `flip` is set. -/
structure Factor (flip : Bool) (m n : Nat) (v : Value) : Prop where
  rect : v.Rect
  dims_eq : v.dims = if flip then [n, m] else [m, n]
  words : ∀ s ∈ v.scalars, Dense.isWord s
  rows : 1 ≤ m
  cols : 1 ≤ n

/-- The scalar in row `i` and column `j`, once the matrix is transposed if `flip` is set. -/
def cell (flip : Bool) (v : Value) (i j : Nat) : Scalar := v.item (if flip then [j, i] else [i, j])

namespace Factor

variable {flip ta tb : Bool} {v a b : Value}

theorem isWord_cell (h : Factor flip m n v) : ∀ i < m, ∀ j < n, Dense.isWord (cell flip v i j) := by
  intro i hi j hj
  have hplace : (if flip then [j, i] else [i, j]) ∈ indices v.dims := by
    rw [h.dims_eq]
    cases flip <;> simp [indices, hi, hj]
  exact h.words _ (mem_scalars_of_at? (h.rect.at?_eq_item hplace))

/-- The packed factor. -/
theorem ofValue (h : Factor flip m n v) : Dense.ofValue (matrix m n (cell flip v)) =
    .ok ⟨[m, n], .words (rowMajor m n fun i j => (cell flip v i j).word)⟩ :=
  ofValue_matrix h.rows h.isWord_cell

end Factor

/-! ## Elementwise products -/

end Value

end Dataflow
