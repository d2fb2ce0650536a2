import Dataflow.Value.Basic

/-!
# Sizes of values

The lengths of all arrays in a value and how deeply they are nested. The rank only follows the first
items, so a ragged value can be deeper than its rank says.
-/

namespace Dataflow.Value

mutual

/-- How many arrays lie inside each other. -/
def depth : Value → Nat
  | .scalar _ => 0
  | .array items => depthOfItems items + 1

def depthOfItems : List Value → Nat
  | [] => 0
  | v :: vs => max v.depth (depthOfItems vs)

end

mutual

/-- The length of the longest array inside. -/
def width : Value → Nat
  | .scalar _ => 0
  | .array items => max items.length (widthOfItems items)

def widthOfItems : List Value → Nat
  | [] => 0
  | v :: vs => max v.width (widthOfItems vs)

end

/-- A measure of lists that takes the largest of the measures of their items. -/
theorem le_of_mem_of_cons {f : Value → Nat} {g : List Value → Nat}
    (hcons : ∀ v vs, g (v :: vs) = max (f v) (g vs)) {v : Value} {vs : List Value} (h : v ∈ vs) :
    f v ≤ g vs := by
  induction vs with
  | nil => cases h
  | cons w vs ih =>
    rw [hcons]
    rcases List.mem_cons.mp h with rfl | h
    · exact Nat.le_max_left _ _
    · exact Nat.le_trans (ih h) (Nat.le_max_right _ _)

theorem depth_lt_of_mem {v : Value} {vs : List Value} (h : v ∈ vs) :
    v.depth < (array vs).depth :=
  Nat.lt_succ_of_le (le_of_mem_of_cons (fun _ _ => rfl) h)

theorem width_le_of_mem {v : Value} {vs : List Value} (h : v ∈ vs) :
    v.width ≤ (array vs).width :=
  Nat.le_trans (le_of_mem_of_cons (fun _ _ => rfl) h) (Nat.le_max_right vs.length _)

/-- The rank counts the arrays on one of the ways down. -/
theorem rank_le_depth : (v : Value) → v.rank ≤ v.depth
  | .scalar _ => Nat.le_refl _
  | .array [] => Nat.le_refl _
  | .array (v :: _) => Nat.succ_le_succ (Nat.le_trans (rank_le_depth v) (Nat.le_max_left _ _))

/-- All arrays in the value are shorter than `n`, and fewer than `n` lie inside each other. -/
structure Within (n : Nat) (v : Value) : Prop where
  depth : v.depth < n
  width : v.width < n

namespace Within

variable {n : Nat} {v : Value} {vs : List Value}

theorem rank (h : v.Within n) : v.rank < n := Nat.lt_of_le_of_lt v.rank_le_depth h.depth

theorem length (h : (array vs).Within n) : vs.length < n :=
  Nat.lt_of_le_of_lt (Nat.le_max_left _ _) h.width

theorem item (h : (array vs).Within n) (hv : v ∈ vs) : v.Within n where
  depth := Nat.lt_trans (depth_lt_of_mem hv) h.depth
  width := Nat.lt_of_le_of_lt (width_le_of_mem hv) h.width

end Within

end Dataflow.Value
