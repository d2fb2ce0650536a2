import Dataflow.Elementwise.Pairing
import Dataflow.Scalar.Operator

/-!
# Elementwise operations

Applying an operator to every scalar of a value, or to the scalars of two values in the same place.
Two values are broadcast: a value of lower rank is repeated along the outer axis of the other one
until the ranks agree, and an axis of extent one stretches to meet its partner. Three values are
never broadcast; their nesting has to be the same.
-/

namespace Dataflow.Value

/-! ## Two values -/

/-- The common extent of two axes: equal extents stay, and one meets any other. -/
def commonExtent? (p q : Nat) : Option Nat :=
  if p = q then some p
  else if p = 1 then some q
  else if q = 1 then some p
  else none

/-- The items of an axis that meets an axis of extent `n`. -/
def stretch (n : Nat) : List Value → List Value
  | [x] => List.replicate n x
  | xs => xs

theorem mem_of_mem_stretch {n : Nat} {x : Value} {xs : List Value} (h : x ∈ stretch n xs) :
    x ∈ xs := by
  unfold stretch at h
  split at h
  · rw [List.eq_of_mem_replicate h]
    exact List.mem_singleton_self _
  · exact h

/-- Combines two values scalar by scalar, in row-major order of the result. The first fault that
arises on the way is the result. -/
def broadcast (f : Scalar → Scalar → Except Fault Value) (a b : Value) : Except Fault Value :=
  match a, b with
  | .scalar s, .scalar t => f s t
  | .array xs, .scalar t => (array xs).traverse fun s => f s t
  | .scalar s, .array ys => (array ys).traverse fun t => f s t
  | .array xs, .array ys =>
    if _lower : (array xs).rank < (array ys).rank then
      broadcast f (.array (List.replicate ys.length (.array xs))) (.array ys)
    else if _lower : (array ys).rank < (array xs).rank then
      broadcast f (.array xs) (.array (List.replicate xs.length (.array ys)))
    else
      match commonExtent? xs.length ys.length with
      | none => .error (.incompatibleShapes (array xs).dims (array ys).dims)
      | some n => do
        let items ← ((stretch n xs).zip (stretch n ys)).attach.mapM fun ⟨(x, y), _mem⟩ =>
          broadcast f x y
        return .array items
termination_by Pair.mk a b
decreasing_by
  · exact .repeatLeft _lower
  · exact .repeatRight _lower
  · have mem := List.of_mem_zip _mem
    exact .items (by omega) (mem_of_mem_stretch mem.1) (mem_of_mem_stretch mem.2)

/-- Combines every scalar of `vector` with `constant`, which becomes the left operand when `switch`
is set. A constant that is an array is broadcast like any other. -/
def broadcastConstant (f : Scalar → Scalar → Except Fault Value) (vector constant : Value)
    (switch : Bool) : Except Fault Value :=
  if switch then broadcast f constant vector else broadcast f vector constant

/-! ## Three values -/

mutual

/-- Combines three values of one nesting scalar by scalar. Where the nestings part, the fault names
the shape of `p` and the first shape that differs from it. -/
def zip3 (f : Scalar → Scalar → Scalar → Except Fault Value) :
    Value → Value → Value → Except Fault Value
  | .array ps, .array xs, .array ys =>
    if ps.length = xs.length ∧ ps.length = ys.length then do
      return .array (← zip3Items f ps xs ys)
    else .error (unequalNesting (.array ps) (.array xs) (.array ys))
  | .scalar p, .scalar x, .scalar y => f p x y
  | p, x, y => .error (unequalNesting p x y)
where
  unequalNesting (p x y : Value) : Fault :=
    .shapeMismatch p.dims (if x.dims ≠ p.dims then x.dims else y.dims)

def zip3Items (f : Scalar → Scalar → Scalar → Except Fault Value) :
    List Value → List Value → List Value → Except Fault (List Value)
  | p :: ps, x :: xs, y :: ys => do
    let w ← zip3 f p x y
    let ws ← zip3Items f ps xs ys
    return w :: ws
  | _, _, _ => .ok []

end

/-! ## Operators -/

/-- A binary operator, broadcast. -/
def binary (op : BinaryOp) (a b : Value) : Except Fault Value :=
  broadcast (fun s t => do return .scalar (← op.apply s t)) a b

/-- A unary operator on every scalar. -/
def unary (op : UnaryOp) (a : Value) : Except Fault Value :=
  a.traverse fun s => do return .scalar (← op.apply s)

/-- The scalar of `x` where that of `p` is true, and the scalar of `y` elsewhere. -/
def select (p x y : Value) : Except Fault Value :=
  zip3 (fun s t u => .ok (.scalar (if s.truthy then t else u))) p x y

end Dataflow.Value
