import Dataflow.Fault

/-!
# Reshaping

A reshape lists the scalars of a value in row-major order and nests them again with other extents.
One extent may be left open; it becomes whatever makes the count of scalars come out right.
-/

namespace Dataflow

/-- The number of scalars in a rectangular value of the given extents. -/
def volume : List Nat → Nat
  | [] => 1
  | n :: ns => n * volume ns

/-- A number of elements as it is counted in 64 bits. -/
def counted (n : Nat) : Nat := n % UInt64.size

theorem counted_lt (n : Nat) : counted n < UInt64.size := Nat.mod_lt n (by decide)

theorem counted_of_lt {n : Nat} (h : n < UInt64.size) : counted n = n := Nat.mod_eq_of_lt h

/-- Counting on the way makes no difference in the end. -/
theorem counted_counted_mul (m n : Nat) : counted (counted m * n) = counted (m * n) :=
  Nat.mod_mul_mod m n UInt64.size

namespace Value

/-- The first `n` blocks of `size` scalars each. -/
def blocks (size : Nat) : (n : Nat) → List Scalar → List (List Scalar)
  | 0, _ => []
  | n + 1, flat => flat.take size :: blocks size n (flat.drop size)

/-- Nests scalars in row-major order. Without extents the first scalar is the result, or the empty
array if there is none. -/
def nest : List Nat → List Scalar → Value
  | [], s :: _ => .scalar s
  | [], [] => .array []
  | n :: ns, flat => .array ((blocks (volume ns) n flat).map (nest ns))

/-- What a list of target extents asks for. -/
structure Target where
  /-- Whether one extent is left open. -/
  isOpen : Bool
  /-- The product of the given extents, counted in 64 bits. -/
  known : Nat

/-- Reads target extents from left to right; `-1` leaves an extent open, once. -/
def Target.read (seen : Target) : List Int → Except Fault Target
  | [] => .ok seen
  | d :: ds =>
    if d = -1 then
      if seen.isOpen then .error .secondInferredExtent else read { seen with isOpen := true } ds
    else if d < 0 then .error (.invalidExtent d)
    else read { seen with known := counted (seen.known * d.toNat) } ds

/-- The extents that `target` stands for when there are `total` scalars, if the count comes out. -/
def Target.extents? (t : Target) (total : Nat) (target : List Int) : Option (List Nat) :=
  if t.isOpen then
    if t.known = 0 ∨ total % t.known ≠ 0 then none
    else some (target.map fun d => if d = -1 then total / t.known else d.toNat)
  else if t.known = total then some (target.map Int.toNat)
  else none

/-- The scalars of `v` with the extents `target`, of which one may be `-1`. -/
def reshape (v : Value) (target : List Int) : Except Fault Value := do
  let flat := v.scalars
  let t ← Target.read ⟨false, 1⟩ target
  match t.extents? flat.length target with
  | some dims => return nest dims flat
  | none => throw (.shapeMismatch [flat.length] (target.map Int.toNat))

end Value

end Dataflow
