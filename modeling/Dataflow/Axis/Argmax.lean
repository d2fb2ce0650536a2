import Dataflow.Value.Views

/-!
# Position of the maximum

The position of the largest scalar along an axis. Scalars are compared as doubles, and of equal ones
the first wins.
-/

namespace Dataflow.Value

/-- The position of the maximum in a list of scalars whose earlier part had its maximum `best` at
`position`; `next` is the position of the first scalar in the list. -/
def argmaxFrom (position : Nat) (best : Float) : (next : Nat) → List Value → Except Fault Nat
  | _, [] => .ok position
  | next, v :: vs => do
    let x ← v.asFloat
    if x > best then argmaxFrom next x (next + 1) vs else argmaxFrom position best (next + 1) vs

/-- The item of `v` at position `j`; `dims` is the shape that was expected of `v`. -/
def column (dims : List Nat) (j : Nat) (v : Value) : Except Fault Value :=
  match v.items? >>= (·[j]?) with
  | some item => .ok item
  | none => .error (.shapeMismatch dims v.dims)

mutual

/-- The positions of the maxima along the axis that consists of `first` and `rest`, for every place
inside `first`. -/
def argmaxAcross (rest : List Value) : (first : Value) → Except Fault Value
  | .scalar s => do
    let position ← argmaxFrom 0 (← s.asFloat) 1 rest
    return .scalar (.int (Int64.ofNat position))
  | .array items => do
    return .array (← argmaxColumns rest (Value.array items).dims 0 items)

/-- The same for the places from position `j` on, of which `items` are those inside the first. -/
def argmaxColumns (rest : List Value) (dims : List Nat) (j : Nat) :
    (items : List Value) → Except Fault (List Value)
  | [] => .ok []
  | item :: items => do
    let others ← rest.mapM (column dims j)
    let w ← argmaxAcross others item
    let ws ← argmaxColumns rest dims (j + 1) items
    return w :: ws

end

/-- The positions of the maxima along the axis at the given depth. -/
def argmaxAt : Nat → Value → Except Fault Value
  | axis, .scalar _ => .error (.invalidAxis axis 0)
  | 0, .array [] => .error .emptyArgmax
  | 0, .array (first :: rest) => argmaxAcross rest first
  | axis + 1, .array items => do return .array (← items.mapM (argmaxAt axis))

/-- The positions of the maxima along `axis`; a negative axis counts from the innermost one. -/
def argmax (v : Value) (axis : Int) : Except Fault Value :=
  let position := if axis < 0 then axis + v.rank else axis
  if position < 0 ∨ v.rank ≤ position then .error (.invalidAxis axis v.rank)
  else argmaxAt position.toNat v

end Dataflow.Value
