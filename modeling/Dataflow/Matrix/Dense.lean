import Dataflow.Rearrange.Reshape
import Dataflow.Value.Views

/-!
# Dense arrays

A rectangular numeric value packed into one row of entries. Values without a float are packed as
words, so that their products stay exact.
-/

namespace Dataflow

/-- The entries of a dense array in row-major order. -/
inductive Entries where
  | words (entries : List Int64)
  | doubles (entries : List Float)

structure Dense where
  dims : List Nat
  entries : Entries

namespace Entries

def toDoubles : Entries → List Float
  | .words entries => entries.map Word.toFloat
  | .doubles entries => entries

def toScalars : Entries → List Scalar
  | .words entries => entries.map .int
  | .doubles entries => entries.map .float

end Entries

namespace Dense

def isWord : Scalar → Bool
  | .int _ | .bool _ => true
  | _ => false

/-- Packs a value. The scalars are counted and compared with the product of the extents, both in 64
bits; where the two agree, only strings are refused. -/
def ofValue (v : Value) : Except Fault Dense := do
  let flat := v.scalars
  if counted flat.length ≠ counted (volume v.dims) then throw (.shapeMismatch v.dims [flat.length])
  if flat.all isWord then return ⟨v.dims, .words (← flat.mapM Scalar.asInt)⟩
  else return ⟨v.dims, .doubles (← flat.mapM Scalar.asFloat)⟩

/-- Unpacks a dense array into a nested value. -/
def toValue (d : Dense) : Value :=
  .nest d.dims d.entries.toScalars

end Dense

end Dataflow
