import Dataflow.Fault

/-!
# Slices and items

A slice cuts a box out of a value, given by a start and a size on each of the leading axes; an index
takes one item of the outermost axis.
-/

namespace Dataflow.Value

/-- The first position after the part of an axis that starts at `start`. The size `-1` reaches to
the end of the axis. -/
def stop (length start : Nat) (size : Int) : Except Fault Nat :=
  if size = -1 then .ok length
  else if size < 0 then .error (.invalidSize size)
  else if length < start + size.toNat then
    .error (.indexOutOfBounds (Int64.ofNat (start + size.toNat) - 1).toInt length)
  else .ok (start + size.toNat)

/-- Cuts the box out of a value, one axis after the other. Where a ragged value has a scalar in the
place of an array there is nothing to cut out, as if the array were empty. -/
def sliceAt : List (Int × Int) → Value → Except Fault Value
  | [], v => .ok v
  | (start, size) :: box, v => do
    let items := v.items?.getD []
    if start < 0 ∨ items.length < start then throw (.indexOutOfBounds start items.length)
    let stop ← stop items.length start.toNat size
    return .array (← ((items.take stop).drop start.toNat).mapM (sliceAt box))

/-- The box that begins at `starts` and has the extents `sizes`. Axes that are not listed are kept
whole. -/
def slice (v : Value) (starts sizes : List Int) : Except Fault Value :=
  if starts.length ≠ sizes.length then .error (.rankMismatch starts.length sizes.length)
  else if v.rank < starts.length then .error (.invalidAxis (starts.length - 1) v.rank)
  else sliceAt (starts.zip sizes) v

/-- The item at position `i` of an array; a negative position counts from the end. -/
def index (v : Value) (i : Int) : Except Fault Value :=
  match v with
  | .scalar s => .error (.typeMismatch .array s.text)
  | .array items =>
    let position := if i < 0 then i + items.length else i
    if position < 0 then .error (.indexOutOfBounds i items.length)
    else
      match items[position.toNat]? with
      | some item => .ok item
      | none => .error (.indexOutOfBounds i items.length)

end Dataflow.Value
