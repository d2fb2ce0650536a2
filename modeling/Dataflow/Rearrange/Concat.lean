import Dataflow.Fault

/-!
# Concatenation

Joining values along one axis. On every axis outside the joined one the extents have to agree.
-/

namespace Dataflow.Value

/-- The items of each value, or the fault that a scalar has no such axis. -/
def itemsOfEach (axis : Nat) (values : List Value) : Except Fault (List (List Value)) :=
  values.mapM fun
    | .array items => .ok items
    | .scalar _ => .error (.invalidAxis axis 0)

/-- Joins values along an axis counted from the outermost one. -/
def concatAt : (axis : Nat) → List Value → Except Fault Value
  | 0, values => do return .array (← itemsOfEach 0 values).flatten
  | axis + 1, values => do
    let arrays ← itemsOfEach (axis + 1) values
    let first := values.headD (.array [])
    if let some bad := values.find? fun v => v.length ≠ first.length then
      throw (.shapeMismatch first.dims bad.dims)
    let items ← (List.range first.length).mapM fun i =>
      concatAt axis (arrays.filterMap fun items => items[i]?)
    return .array items

/-- Joins values along `axis`; a negative axis means the last one of the first value. Joining
nothing gives an empty array. -/
def concat (values : List Value) (axis : Int) : Except Fault Value :=
  match values with
  | [] => .ok (.array [])
  | first :: _ =>
    let rank := first.rank
    let axis := if axis < 0 then rank - 1 else axis.toNat
    if rank ≤ axis then .error (.invalidAxis axis rank) else concatAt axis values

end Dataflow.Value
