import Dataflow.Elementwise.Broadcast
import Dataflow.Value.Views

/-!
# Reducing along axes

A reduction folds an operator over the items of an axis, from the first to the last. Only the two
outermost axes can be reduced. Of several axes the innermost goes first, so that reducing one never
moves another.
-/

namespace Dataflow

inductive Reduction where
  | sum
  | mean
  | prod
deriving DecidableEq

namespace Reduction

/-- What reducing nothing gives: zero for sum and mean, one for product. -/
def identity (r : Reduction) (dtype : DType) : Scalar :=
  match r with
  | .sum | .mean => dtype.zero
  | .prod => dtype.one

/-- The operator that the reduction folds; a mean is a sum that is divided afterwards. -/
def operator : Reduction → BinaryOp
  | .sum | .mean => .arithmetic .add
  | .prod => .arithmetic .mul

def label : Reduction → String
  | .sum => "Sum"
  | .mean => "Mean"
  | .prod => "Prod"

/-- A sum of `n` items as their mean. Whole numbers are divided as words, toward zero. -/
def divide (n : Nat) : Scalar → Except Fault Scalar
  | .float x => .ok (.float (x / Float.ofNat n))
  | s => do return .int ((← s.asInt) / Int64.ofNat n)

/-- Folds the items of one axis. An empty axis gives the identity, which is not divided. -/
def fold (r : Reduction) (dtype : DType) : List Value → Except Fault Value
  | [] => .ok (.scalar (r.identity dtype))
  | first :: rest => do
    let total ← rest.foldlM (Value.binary r.operator) first
    if r = .mean then
      total.traverse fun s => do return .scalar (← divide (rest.length + 1) s)
    else return total

/-- Reduces the axis at the given depth. With `keepDims` it stays, with extent one. -/
def alongAxis (r : Reduction) (dtype : DType) (keepDims : Bool) : Nat → Value → Except Fault Value
  | axis, .scalar _ => .error (.invalidAxis axis 0)
  | 0, .array items => do
    let total ← r.fold dtype items
    return if keepDims then .array [total] else total
  | axis + 1, .array items => do
    return .array (← items.mapM (alongAxis r dtype keepDims axis))

/-- The outcome of a reduction, with the axes that were entered on the way. -/
structure Trail where
  entered : List Nat
  outcome : Except Fault Value

/-- Reduces one axis after another and stops at the first fault. -/
def alongAxes (r : Reduction) (dtype : DType) (keepDims : Bool) : List Nat → Value → Trail
  | [], v => ⟨[], .ok v⟩
  | axis :: axes, v =>
    match r.alongAxis dtype keepDims axis v with
    | .error fault => ⟨[axis], .error fault⟩
    | .ok w =>
      let trail := alongAxes r dtype keepDims axes w
      ⟨axis :: trail.entered, trail.outcome⟩

/-- An axis as its depth. A negative axis counts from the innermost one. Axes other than the two
outermost are refused, and so are axes that the value does not have, unless it is a scalar. -/
def depth (v : Value) (axis : Int) : Except Fault Nat :=
  let position := if axis < 0 then axis + v.rank else axis
  if position < 0 ∨ 1 < position then .error (.unsupportedReduction axis)
  else if v.isArray ∧ v.rank ≤ position then .error (.invalidAxis axis v.rank)
  else .ok position.toNat

/-- The depths of the listed axes in the order in which they are reduced. Repetitions do not
count. -/
def order (v : Value) (axes : List Int) : Except Fault (List Nat) := do
  let depths ← axes.mapM (depth v)
  return [1, 0].filter (depths.contains ·)

/-- Reduces every scalar of a value into one. -/
def overall (r : Reduction) (dtype : DType) (keepDims : Bool) (v : Value) : Except Fault Value := do
  let total ← r.fold dtype (v.scalars.map .scalar)
  return if keepDims then .filled (List.replicate v.rank 1) total else total

/-- Reduces `v` along the listed axes, or overall if none are listed. A scalar is its own reduction,
whatever valid axes are listed. -/
def reduce (r : Reduction) (dtype : DType) (keepDims : Bool) (axes : Option (List Int))
    (v : Value) : Trail :=
  match axes with
  | none => if v.isScalar then ⟨[], .ok v⟩ else ⟨[], r.overall dtype keepDims v⟩
  | some axes =>
    match order v axes with
    | .error fault => ⟨[], .error fault⟩
    | .ok depths => if v.isScalar then ⟨[], .ok v⟩ else r.alongAxes dtype keepDims depths v

end Reduction

end Dataflow
