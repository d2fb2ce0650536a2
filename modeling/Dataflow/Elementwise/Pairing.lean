import Dataflow.Value.Basic

/-!
# Pairing two values level by level

Elementwise operations on two values walk down both at once. Where the ranks differ, the value of
lower rank is first repeated along the outer axis of the other one, which makes it larger, and in
ragged values each pair of items can call for that anew, on either side. `Pair.Next` lists the pairs
that such a walk goes on to, and `Pair.next_wellFounded` says that it ends all the same: a repeated
value is layers of copies around a core, and below the layers the cores only shrink.
-/

namespace Dataflow

/-- Two values that are walked through together. -/
structure Pair where
  left : Value
  right : Value

namespace Pair

/-- `Next q p`: the walk goes on from the pair `p` of arrays to the pair `q`. -/
inductive Next : Pair → Pair → Prop where
  | repeatLeft {xs ys : List Value} (lower : (Value.array xs).rank < (Value.array ys).rank) :
      Next ⟨.array (List.replicate ys.length (.array xs)), .array ys⟩ ⟨.array xs, .array ys⟩
  | repeatRight {xs ys : List Value} (lower : (Value.array ys).rank < (Value.array xs).rank) :
      Next ⟨.array xs, .array (List.replicate xs.length (.array ys))⟩ ⟨.array xs, .array ys⟩
  | items {xs ys : List Value} {x y : Value}
      (equal : (Value.array xs).rank = (Value.array ys).rank) (left : x ∈ xs) (right : y ∈ ys) :
      Next ⟨x, y⟩ ⟨.array xs, .array ys⟩

/-! ## Layers of copies -/

/-- `Layered k a x`: the value `x` is `a` inside `k` nonempty layers of copies. -/
inductive Layered : Nat → Value → Value → Prop where
  | bare {a : Value} : Layered 0 a a
  | layer {k n : Nat} {a x : Value} (inner : Layered k a x) :
      Layered (k + 1) a (.array (List.replicate (n + 1) x))

theorem Layered.rank_eq {k : Nat} {a x : Value} (h : Layered k a x) : x.rank = k + a.rank := by
  induction h with
  | bare => simp
  | layer _ ih => simp [List.replicate_succ, Value.rank, ih]; omega

/-- An item of a layered value lies either in the core or one layer further in. -/
theorem Layered.item {k : Nat} {a x : Value} {xs : List Value} (h : Layered k a (.array xs))
    (hx : x ∈ xs) :
    (sizeOf x < sizeOf a ∧ Layered 0 x x) ∨ ∃ j, k = j + 1 ∧ Layered j a x := by
  cases h with
  | bare =>
    have := List.sizeOf_lt_of_mem hx
    exact .inl ⟨by simp only [Value.array.sizeOf_spec]; omega, .bare⟩
  | @layer j n _ y inner =>
    rw [List.eq_of_mem_replicate hx]
    exact .inr ⟨j, rfl, inner⟩

/-- An array of rank two or more has an item, so repeating along it adds a layer. -/
theorem Layered.repeated {k : Nat} {a x : Value} {ys : List Value} (h : Layered k a x)
    (hx : 1 ≤ x.rank) (lower : x.rank < (Value.array ys).rank) :
    Layered (k + 1) a (.array (List.replicate ys.length x)) := by
  cases ys with
  | nil => simp [Value.rank] at lower; omega
  | cons y ys => exact .layer h

theorem one_le_rank_array (xs : List Value) : 1 ≤ (Value.array xs).rank := by
  cases xs <;> simp [Value.rank]

/-! ## The walk ends -/

/-- Repeating closes the gap between the ranks by one. Going on to items keeps equal ranks equal
while both sides lose a layer, and makes a core smaller otherwise. -/
theorem acc_of_layered {k l : Nat} {a b x y : Value} (hx : Layered k a x) (hy : Layered l b y) :
    Acc Next ⟨x, y⟩ := by
  constructor
  intro p hp
  have rx := hx.rank_eq
  have ry := hy.rank_eq
  cases hp with
  | repeatLeft lower =>
    have hx' := hx.repeated (one_le_rank_array _) lower
    have := hx'.rank_eq
    exact acc_of_layered hx' hy
  | repeatRight lower =>
    have hy' := hy.repeated (one_le_rank_array _) lower
    have := hy'.rank_eq
    exact acc_of_layered hx hy'
  | items equal left right =>
    rcases hx.item left with ⟨sx, hx'⟩ | ⟨j, rfl, hx'⟩ <;>
      rcases hy.item right with ⟨sy, hy'⟩ | ⟨i, rfl, hy'⟩ <;>
      exact acc_of_layered hx' hy'
termination_by
  (sizeOf a + sizeOf b, (k + a.rank - (l + b.rank)) + (l + b.rank - (k + a.rank)), k + l)
decreasing_by
  all_goals simp_wf
  · exact .right _ (.left _ _ (by omega))
  · exact .right _ (.left _ _ (by omega))
  · exact .left _ _ (by omega)
  · exact .left _ _ (by omega)
  · exact .left _ _ (by omega)
  · rw [show j + a.rank - (i + b.rank) + (i + b.rank - (j + a.rank)) =
      k + a.rank - (l + b.rank) + (l + b.rank - (k + a.rank)) by omega]
    exact .right _ (.right _ (by omega))

/-- The walk through two values ends, ragged ones included. -/
theorem next_wellFounded : WellFounded Next :=
  ⟨fun _ => acc_of_layered .bare .bare⟩

instance : WellFoundedRelation Pair := ⟨Next, next_wellFounded⟩

/-- What holds of two values once it holds of the pairs that the walk goes on to, holds of any two
values. -/
@[elab_as_elim]
theorem induction {P : Value → Value → Prop}
    (scalars : ∀ s t, P (.scalar s) (.scalar t))
    (scalarRight : ∀ xs t, P (.array xs) (.scalar t))
    (scalarLeft : ∀ s ys, P (.scalar s) (.array ys))
    (repeatLeft : ∀ xs ys, (Value.array xs).rank < (Value.array ys).rank →
      P (.array (List.replicate ys.length (.array xs))) (.array ys) → P (.array xs) (.array ys))
    (repeatRight : ∀ xs ys, (Value.array ys).rank < (Value.array xs).rank →
      P (.array xs) (.array (List.replicate xs.length (.array ys))) → P (.array xs) (.array ys))
    (items : ∀ xs ys, (Value.array xs).rank = (Value.array ys).rank →
      (∀ x ∈ xs, ∀ y ∈ ys, P x y) → P (.array xs) (.array ys))
    (a b : Value) : P a b :=
  match a, b with
  | .scalar s, .scalar t => scalars s t
  | .array xs, .scalar t => scalarRight xs t
  | .scalar s, .array ys => scalarLeft s ys
  | .array xs, .array ys =>
    if left : (Value.array xs).rank < (Value.array ys).rank then
      repeatLeft xs ys left (induction scalars scalarRight scalarLeft repeatLeft repeatRight items ..)
    else if right : (Value.array ys).rank < (Value.array xs).rank then
      repeatRight xs ys right
        (induction scalars scalarRight scalarLeft repeatLeft repeatRight items ..)
    else
      items xs ys (by omega) fun x _hx y _hy =>
        induction scalars scalarRight scalarLeft repeatLeft repeatRight items x y
termination_by Pair.mk a b
decreasing_by
  · exact .repeatLeft left
  · exact .repeatRight right
  · exact .items (by omega) _hx _hy

end Pair

end Dataflow
