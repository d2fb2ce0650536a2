import Dataflow.Matrix.Dense
import Dataflow.Proofs.Doubles
import Dataflow.Proofs.Elementwise

/-!
# Broadcasting with the operands exchanged

Broadcasting treats its two operands alike. With the operands in the other order, and a combinator
that takes its arguments in the other order, it gives the same value, or fails at the same place.
So what an operator does not care about on scalars, the broadcast operator does not care about on
values, ragged ones included.
-/

namespace Except

variable {ε α β γ : Type} {R S : ε → ε → Prop}

/-- The same result on both sides, or faults that are related. -/
inductive Corresponds (R : ε → ε → Prop) : Except ε α → Except ε α → Prop where
  | ok (a : α) : Corresponds R (.ok a) (.ok a)
  | error {e e' : ε} (h : R e e') : Corresponds R (.error e) (.error e')

namespace Corresponds

variable {x y : Except ε α}

theorem ok_iff (h : Corresponds R x y) (a : α) : x = .ok a ↔ y = .ok a := by
  cases h <;> simp

theorem of_ok_iff (h : ∀ a, x = .ok a ↔ y = .ok a) : Corresponds (fun _ _ => True) x y := by
  cases x with
  | ok a =>
    rw [(h a).mp rfl]
    exact .ok a
  | error e =>
    cases y with
    | ok b => cases (h b).mpr rfl
    | error e' => exact .error trivial

theorem exists_error {e : ε} (h : Corresponds R x y) (hx : x = .error e) :
    ∃ e', y = .error e' ∧ R e e' := by
  cases h with
  | ok => cases hx
  | error h =>
    cases hx
    exact ⟨_, rfl, h⟩

theorem bind {f g : α → Except ε β} (h : Corresponds R x y)
    (hfg : ∀ a, Corresponds R (f a) (g a)) : Corresponds R (x >>= f) (y >>= g) := by
  cases h with
  | ok a => exact hfg a
  | error h => exact .error h

theorem mapM {f g : γ → Except ε α} {xs : List γ}
    (h : ∀ c ∈ xs, Corresponds R (f c) (g c)) : Corresponds R (xs.mapM f) (xs.mapM g) := by
  induction xs with
  | nil => exact .ok []
  | cons c xs ih =>
    rw [List.mapM_cons, List.mapM_cons]
    refine (h c List.mem_cons_self).bind fun a => ?_
    exact (ih fun d hd => h d (List.mem_cons_of_mem c hd)).bind fun as => .ok _

/-- A change of the faults alone. -/
theorem mapError_eq {φ : ε → ε} (h : Corresponds (fun e e' => e' = φ e) x y) :
    y = x.mapError φ := by
  cases h with
  | ok a => rfl
  | error h => exact congrArg Except.error h

end Corresponds

end Except

namespace Dataflow

open Except (Corresponds)

/-- The fault with the two shapes of a broadcast in the other order. -/
def Fault.exchanged : Fault → Fault
  | .incompatibleShapes a b => .incompatibleShapes b a
  | e => e

namespace Value

variable {R : Fault → Fault → Prop}

/-! ## Scalars under a walk -/

mutual

theorem traverse_corresponds {f g : Scalar → Except Fault Value} :
    (v : Value) → (∀ s ∈ v.scalars, Corresponds R (f s) (g s)) →
      Corresponds R (v.traverse f) (v.traverse g)
  | .scalar s, h => h s (by simp)
  | .array items, h => by
    exact (traverseItems_corresponds items h).bind fun ws => .ok _

theorem traverseItems_corresponds {f g : Scalar → Except Fault Value} :
    (vs : List Value) → (∀ s ∈ scalarsOfItems vs, Corresponds R (f s) (g s)) →
      Corresponds R (traverseItems f vs) (traverseItems g vs)
  | [], _ => .ok []
  | v :: vs, h => by
    refine (traverse_corresponds v fun s hs => h s ?_).bind fun w =>
      (traverseItems_corresponds vs fun s hs => h s ?_).bind fun ws => .ok _
    · exact List.mem_append_left _ hs
    · exact List.mem_append_right _ hs

end

theorem mem_scalars_array {x : Value} {xs : List Value} {s : Scalar} (hx : x ∈ xs)
    (hs : s ∈ x.scalars) : s ∈ (array xs).scalars := by
  rw [scalars_array]
  exact List.mem_flatMap.mpr ⟨x, hx, hs⟩

theorem mem_scalars_of_replicate {n : Nat} {x : Value} {s : Scalar}
    (h : s ∈ (array (List.replicate n x)).scalars) : s ∈ x.scalars := by
  rw [scalars_array] at h
  obtain ⟨y, hy, hs⟩ := List.mem_flatMap.mp h
  rwa [List.eq_of_mem_replicate hy] at hs

/-! ## The walk through two values -/

variable {f g : Scalar → Scalar → Except Fault Value}

/-- If the combinators correspond with their arguments exchanged, so do the broadcasts with their
operands exchanged. -/
theorem broadcast_corresponds (hR : ∀ p q, R (.incompatibleShapes p q) (.incompatibleShapes q p))
    (a b : Value) (h : ∀ s ∈ a.scalars, ∀ t ∈ b.scalars, Corresponds R (f s t) (g t s)) :
    Corresponds R (broadcast f a b) (broadcast g b a) := by
  induction a, b using Pair.induction with
  | scalars s t =>
    rw [broadcast, broadcast]
    exact h s (by simp) t (by simp)
  | scalarRight xs t =>
    rw [broadcast, broadcast]
    exact traverse_corresponds _ fun s hs => h s hs t (by simp)
  | scalarLeft s ys =>
    rw [broadcast, broadcast]
    exact traverse_corresponds _ fun t ht => h s (by simp) t ht
  | repeatLeft xs ys lower ih =>
    -- With the operands exchanged, the other side is the lower one.
    rw [broadcast_repeatLeft lower, broadcast_repeatRight lower]
    exact ih fun s hs t ht => h s (mem_scalars_of_replicate hs) t ht
  | repeatRight xs ys lower ih =>
    rw [broadcast_repeatRight lower, broadcast_repeatLeft lower]
    exact ih fun s hs t ht => h s hs t (mem_scalars_of_replicate ht)
  | items xs ys equal ih =>
    rw [broadcast_items equal, broadcast_items equal.symm, commonExtent?_comm]
    cases hn : commonExtent? ys.length xs.length with
    | none => exact .error (hR _ _)
    | some n =>
      obtain ⟨hys, hxs⟩ := length_of_commonExtent? hn
      refine (Corresponds.mapM fun j hj => ?_).bind fun ws => .ok _
      have hx := itemAt_mem hxs (List.mem_range.mp hj)
      have hy := itemAt_mem hys (List.mem_range.mp hj)
      exact ih _ hx _ hy fun s hs t ht =>
        h s (mem_scalars_array hx hs) t (mem_scalars_array hy ht)

end Value

/-! ## Orders read from the other side -/

theorem Double.compare?_swap (x y : Float) :
    compare? y x = (compare? x y).map Ordering.swap := by
  by_cases h : x.isNaN = true ∨ y.isNaN = true
  · rw [compare?_of_isNaN h, compare?_of_isNaN h.symm]
    rfl
  · obtain ⟨hx, hy⟩ : x.isNaN = false ∧ y.isNaN = false := by simpa using h
    rw [compare?_eq_place hx hy, compare?_eq_place hy hx, Option.map_some, Int.compare_swap]

theorem Number.compare?_swap (x y : Number) :
    compare? y x = (compare? x y).map Ordering.swap := by
  cases x with
  | int a =>
    cases y with
    | int b =>
      refine congrArg some (compareOfLessAndEq_eq_swap ?_ Int64.le_total Int64.not_le)
      exact Int64.le_antisymm
    | float y => exact Double.compare?_swap _ _
  | float x => cases y <;> exact Double.compare?_swap _ _

theorem Scalar.isString_or_number (s : Scalar) :
    (∃ text, s = .str text) ∨ ∃ x, Number.ofValue (.scalar s) = .ok x := by
  cases s with
  | str text => exact .inl ⟨text, rfl⟩
  | _ => exact .inr ⟨_, rfl⟩

namespace Comparison

/-- The comparison that holds of the operands in the other order. -/
def mirrored : Comparison → Comparison
  | .equal => .equal
  | .notEqual => .notEqual
  | .less => .greater
  | .greater => .less
  | .lessEqual => .greaterEqual
  | .greaterEqual => .lessEqual

theorem holds_mirrored (op : Comparison) (o : Option Ordering) :
    op.mirrored.holds (o.map Ordering.swap) = op.holds o := by
  cases op <;> rcases o with _ | _ | _ | _ <;> rfl

/-- The refusals on the two sides differ in their texts. -/
theorem onMixed_mirrored (op : Comparison) (a b : Value) :
    Corresponds (fun _ _ => True) (op.onMixed a b) (op.mirrored.onMixed b a) := by
  cases op with
  | equal | notEqual => exact .ok _
  | _ => exact .error trivial

theorem apply_mirrored_of_ofValue (op : Comparison) {s t : Scalar} {x y : Number}
    (hx : Number.ofValue (.scalar s) = .ok x) (hy : Number.ofValue (.scalar t) = .ok y) :
    op.mirrored.apply (.scalar t) (.scalar s) = op.apply (.scalar s) (.scalar t) := by
  rw [apply_of_ofValue _ hx hy, apply_of_ofValue _ hy hx, Number.compare?_swap x, holds_mirrored]

theorem apply_mirrored (op : Comparison) (s t : Scalar) :
    Corresponds (fun _ _ => True) (op.apply (.scalar s) (.scalar t))
      (op.mirrored.apply (.scalar t) (.scalar s)) := by
  rcases s.isString_or_number with ⟨u, rfl⟩ | ⟨x, hx⟩
  · rcases t.isString_or_number with ⟨v, rfl⟩ | ⟨y, hy⟩
    · have hswap : some (compareOfLessAndEq v u) =
          (some (compareOfLessAndEq u v)).map Ordering.swap :=
        congrArg some (compareOfLessAndEq_eq_swap le_antisymm le_total not_le)
      rw [apply, apply, hswap, holds_mirrored]
      exact .ok _
    · cases t with
      | str => cases hy
      | _ => exact op.onMixed_mirrored _ _
  · rcases t.isString_or_number with ⟨v, rfl⟩ | ⟨y, hy⟩
    · cases s with
      | str => cases hx
      | _ => exact op.onMixed_mirrored _ _
    · rw [op.apply_mirrored_of_ofValue hx hy, op.apply_of_ofValue hx hy]
      exact .ok _

end Comparison

namespace Value

theorem binary_mirrored (op : Comparison) (a b v : Value) :
    binary (.comparison op) a b = .ok v ↔ binary (.comparison op.mirrored) b a = .ok v := by
  refine (broadcast_corresponds (R := fun _ _ => True) (fun _ _ => trivial) a b ?_).ok_iff v
  intro s _ t _
  exact ((op.apply_mirrored s t).bind fun r => .ok _).bind fun r => .ok _

end Value

/-! ## Operators that do not mind -/

namespace BinaryOp

/-- The operators that give the same word for two words in either order. -/
def commuting : List BinaryOp :=
  [.arithmetic .add, .arithmetic .mul, .comparison .equal, .comparison .notEqual]

theorem exists_word {s : Scalar} (h : Dense.isWord s = true) :
    ∃ a, Number.ofValue (.scalar s) = .ok (.int a) := by
  cases s with
  | bool b => exact ⟨_, rfl⟩
  | int i => exact ⟨_, rfl⟩
  | _ => cases h

theorem exists_comparison_comm {op : Comparison} (hop : op.mirrored = op) {s t : Scalar}
    {x y : Number} (hx : Number.ofValue (.scalar s) = .ok x)
    (hy : Number.ofValue (.scalar t) = .ok y) :
    ∃ r, (comparison op).apply (.scalar s) (.scalar t) = .ok r ∧
      (comparison op).apply (.scalar t) (.scalar s) = .ok r := by
  have hmirrored := op.apply_mirrored_of_ofValue hx hy
  rw [hop] at hmirrored
  simp only [apply_comparison, hmirrored, op.apply_of_ofValue hx hy]
  exact ⟨_, rfl, rfl⟩

theorem exists_apply_comm {op : BinaryOp} (hop : op ∈ commuting) {s t : Scalar}
    (hs : Dense.isWord s = true) (ht : Dense.isWord t = true) :
    ∃ r, op.apply (.scalar s) (.scalar t) = .ok r ∧ op.apply (.scalar t) (.scalar s) = .ok r := by
  obtain ⟨a, ha⟩ := exists_word hs
  obtain ⟨b, hb⟩ := exists_word ht
  simp only [commuting, List.mem_cons, List.not_mem_nil, or_false] at hop
  rcases hop with rfl | rfl | rfl | rfl
  · refine ⟨.int (a + b), Arithmetic.apply_of_ofValue .add ha hb, ?_⟩
    rw [Int64.add_comm]
    exact Arithmetic.apply_of_ofValue .add hb ha
  · refine ⟨.int (a * b), Arithmetic.apply_of_ofValue .mul ha hb, ?_⟩
    rw [Int64.mul_comm]
    exact Arithmetic.apply_of_ofValue .mul hb ha
  · exact exists_comparison_comm rfl ha hb
  · exact exists_comparison_comm rfl ha hb

end BinaryOp

namespace Value

/-- Broadcasting with the operands exchanged, and the arguments of the combinator with them, gives
the same value, or fails with the same fault up to the order of two shapes: only a fault of the
broadcast itself names them in the other order, one of the combinator stays as it is. So addition,
multiplication, equality and inequality of words commute, and one value is less than another
wherever the other is greater. -/
theorem broadcasts_symmetrically (a b : Value) :
    (∀ f : Scalar → Scalar → Except Fault Value,
      (∀ v, broadcast f a b = .ok v ↔ broadcast (flip f) b a = .ok v) ∧
      ∀ e, broadcast f a b = .error e → ∃ e', broadcast (flip f) b a = .error e' ∧
        ((e' = e ∧ ∃ s ∈ a.scalars, ∃ t ∈ b.scalars, f s t = .error e) ∨
          ∃ p q, e = .incompatibleShapes p q ∧ e' = .incompatibleShapes q p)) ∧
    (∀ op ∈ BinaryOp.commuting, (∀ s ∈ a.scalars, Dense.isWord s = true) →
      (∀ t ∈ b.scalars, Dense.isWord t = true) →
        binary op b a = (binary op a b).mapError Fault.exchanged) ∧
    ∀ v, binary (.comparison .less) a b = .ok v ↔ binary (.comparison .greater) b a = .ok v := by
  refine ⟨fun f => ?_, fun op hop ha hb => ?_, binary_mirrored .less a b⟩
  · have h := broadcast_corresponds (f := f) (g := flip f) (R := fun e e' =>
      (e' = e ∧ ∃ s ∈ a.scalars, ∃ t ∈ b.scalars, f s t = .error e) ∨
        ∃ p q, e = .incompatibleShapes p q ∧ e' = .incompatibleShapes q p)
      (fun p q => .inr ⟨p, q, rfl, rfl⟩) a b ?_
    · exact ⟨h.ok_iff, fun e he => h.exists_error he⟩
    · intro s hs t ht
      rw [flip]
      cases hst : f s t with
      | ok w => exact .ok w
      | error e => exact .error (.inl ⟨rfl, s, hs, t, ht, hst⟩)
  · refine Corresponds.mapError_eq (broadcast_corresponds (fun p q => rfl) a b ?_)
    intro s hs t ht
    obtain ⟨r, hst, hts⟩ := BinaryOp.exists_apply_comm hop (ha s hs) (hb t ht)
    rw [hst, hts]
    exact .ok _

/-- A row of words meets a column, and does not meet a shorter row. -/
theorem broadcasts_symmetrically_row_column :
    let row : Value := .array [.scalar (.int 1), .scalar (.bool true), .scalar (.int 3)]
    let column : Value := .array [.array [.scalar (.int 10)], .array [.scalar (.int 20)]]
    let short : Value := .array [.scalar (.int 5), .scalar (.int 6)]
    let f := scalarwise fun s t => (BinaryOp.arithmetic .sub).apply s t
    (BinaryOp.arithmetic .add ∈ BinaryOp.commuting ∧
      (∀ s ∈ row.scalars, Dense.isWord s = true) ∧ (∀ t ∈ column.scalars, Dense.isWord t = true) ∧
      binary (.arithmetic .add) column row =
        (binary (.arithmetic .add) row column).mapError Fault.exchanged) ∧
    broadcast f row short = .error (.incompatibleShapes [3] [2]) ∧
    ∃ e', broadcast (flip f) short row = .error e' ∧
      ((e' = .incompatibleShapes [3] [2] ∧ ∃ s ∈ row.scalars, ∃ t ∈ short.scalars,
        f s t = .error (.incompatibleShapes [3] [2])) ∨
      ∃ p q, .incompatibleShapes [3] [2] = Fault.incompatibleShapes p q ∧
        e' = .incompatibleShapes q p) := by
  intro row column short f
  have hadd : BinaryOp.arithmetic .add ∈ BinaryOp.commuting := by simp [BinaryOp.commuting]
  have hrow : ∀ s ∈ row.scalars, Dense.isWord s = true := by simp [row, Dense.isWord]
  have hcolumn : ∀ t ∈ column.scalars, Dense.isWord t = true := by simp [column, Dense.isWord]
  have hfault : broadcast f row short = .error (.incompatibleShapes [3] [2]) :=
    broadcast_items (rfl : row.rank = short.rank)
  exact ⟨⟨hadd, hrow, hcolumn, (broadcasts_symmetrically row column).2.1 _ hadd hrow hcolumn⟩,
    hfault, ((broadcasts_symmetrically row short).1 f).2 _ hfault⟩

end Value

end Dataflow
