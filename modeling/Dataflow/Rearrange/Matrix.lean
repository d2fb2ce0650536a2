import Dataflow.Fault

/-!
# Matrices

Transposing a matrix, and the identity matrix.
-/

namespace Dataflow.Value

/-- The item at position `j` of a row. A scalar in the place of a row stands for itself. -/
def rowItem (j : Nat) : Value → Value
  | .scalar s => .scalar s
  | .array row => row.getD j (.array [])

/-- Swaps the two axes of a matrix whose rows all have the same length. Scalars and vectors stay as
they are, and values of higher rank are refused. -/
def transpose (v : Value) : Except Fault Value :=
  match v.rank with
  | 0 | 1 => .ok v
  | 2 =>
    let rows := v.items?.getD []
    let cols := (rows.head?.map length).getD 0
    match rows.find? fun row => row.length ≠ cols with
    | some bad => .error (.shapeMismatch [rows.length, cols] [rows.length, bad.length])
    | none => .ok (.array ((List.range cols).map fun j => .array (rows.map (rowItem j))))
  | n => .error (.untransposableRank n)

/-- The matrix with ones on the diagonal and zeros elsewhere. -/
def eye (rows cols : Nat) (dtype : DType) : Value :=
  .array ((List.range rows).map fun i =>
    .array ((List.range cols).map fun j =>
      .scalar (if i = j then dtype.one else dtype.zero)))

end Dataflow.Value
