import Dataflow.Matrix.Dense
import Dataflow.Rearrange.Matrix

/-!
# Matrix products

The product of two matrices on an interchangeable backend, which sees rows of entries only. Two
matrices of words have a product of words, which wraps; otherwise both are multiplied as doubles.
-/

namespace Dataflow

/-! ## Backends -/

section Sums

variable {α : Type} [Add α] [Mul α]

/-- Adds the multiple by `x` of row `p` of `b` to row `i` of `sums`. Rows have `n` entries. -/
def addRow (zero : α) (b : Array α) (n i p : Nat) (x : α) (sums : Array α) : Array α :=
  (List.range n).foldl
    (fun sums j => sums.modify (i * n + j) (· + x * b.getD (p * n + j) zero)) sums

/-- Adds the first `k` rows of `b`, multiplied by the entries of row `i` of `a`, to row `i` of
`sums`. -/
def addRows (zero : α) (a b : Array α) (k n i : Nat) (sums : Array α) : Array α :=
  (List.range k).foldl (fun sums p => addRow zero b n i p (a.getD (i * k + p) zero) sums) sums

/-- The entries of the product of an `m × k` and a `k × n` matrix. They are summed up in place, a
row of the second matrix after the other. As many are set up as the product of the extents is in 64
bits; where the entries are more than that, the first one missing stops the program, and here it is
passed over. -/
def productEntries (zero : α) (a b : Array α) (m k n : Nat) : List α :=
  let sums := Array.replicate (counted (m * n)) zero
  ((List.range m).foldl (fun sums i => addRows zero a b k n i sums) sums).toList

end Sums

/-- A way to multiply matrices given as rows of entries, with the extents `m`, `k` and `n`. -/
structure Backend where
  name : String
  doubles : List Float → List Float → (m k n : Nat) → Except Fault (List Float)
  words : List Int64 → List Int64 → (m k n : Nat) → Except Fault (List Int64)

namespace Backend

/-- The backend that sums in a plain loop. It checks that the operands have as many entries as their
extents call for, counted in 64 bits. -/
def cpu : Backend where
  name := "cpu"
  doubles := checked 0.0
  words := checked 0
where
  checkLength {α : Type} (operand : String) (entries : List α) (rows cols : Nat) :
      Except Fault Unit :=
    if counted entries.length = counted (rows * cols) then .ok ()
    else .error (.bufferLength operand entries.length rows cols)
  checked {α : Type} [Add α] [Mul α] (zero : α) (a b : List α) (m k n : Nat) :
      Except Fault (List α) := do
    checkLength "a" a m k
    checkLength "b" b k n
    return productEntries zero a.toArray b.toArray m k n

end Backend

/-! ## Products -/

namespace Dense

/-- The product of two dense matrices. -/
def multiply (backend : Backend) (a b : Dense) : Except Fault Dense :=
  match a.dims, b.dims with
  | [m, k], [k', n] => do
    if k ≠ k' then throw (.productMismatch m k k' n)
    match a.entries, b.entries with
    | .words p, .words q => return ⟨[m, n], .words (← backend.words p q m k n)⟩
    | p, q => return ⟨[m, n], .doubles (← backend.doubles p.toDoubles q.toDoubles m k n)⟩
  | [_, _], dims => throw (.rankMismatch 2 dims.length)
  | dims, _ => throw (.rankMismatch 2 dims.length)

end Dense

namespace Value

/-- The packed operands of a matrix product, each transposed if its flag is set. A scalar beside a
value that is not one stands for the value of that shape filled with it. -/
def factors (a b : Value) (transposeA transposeB : Bool) : Except Fault (Dense × Dense) := do
  let a ← if transposeA then a.transpose else pure a
  let b ← if transposeB then b.transpose else pure b
  let (a, b) :=
    match a, b with
    | .scalar _, .array _ => (filled b.dims a, b)
    | .array _, .scalar _ => (a, filled a.dims b)
    | a, b => (a, b)
  return (← Dense.ofValue a, ← Dense.ofValue b)

/-- The matrix product of two values. -/
def multiply (backend : Backend) (a b : Value) (transposeA transposeB : Bool) :
    Except Fault Value := do
  let (p, q) ← factors a b transposeA transposeB
  return (← p.multiply backend q).toValue

end Value

end Dataflow
