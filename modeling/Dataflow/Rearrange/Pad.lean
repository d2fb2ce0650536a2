import Dataflow.Fault

/-!
# Padding

Padding puts copies of a fill value before and after the items of every axis.
-/

namespace Dataflow.Value

/-- Pads a value of extents `dims`. The copies have the padded extents of the inner axes. -/
def padAt (fill : Value) : List (Nat × Nat) → List Nat → Value → Value
  | (before, after) :: inner, dims, .array items =>
    let innerDims := dims.drop 1
    let row := filled ((innerDims.zip inner).map fun (d, b, a) => d + b + a) fill
    .array (List.replicate before row ++ items.map (padAt fill inner innerDims) ++
      List.replicate after row)
  | _, _, v => v

/-- Pads each axis of `v` with the given numbers of copies of `fill` before and after. -/
def pad (v : Value) (paddings : List (Nat × Nat)) (fill : Value) : Except Fault Value :=
  if paddings.length ≠ v.dims.length then .error (.rankMismatch v.dims.length paddings.length)
  else .ok (padAt fill paddings v.dims v)

end Dataflow.Value
