import Dataflow.Scalar.Number

/-!
# Numeric views of values

A kernel reads its counts, axes, extents and bounds out of ordinary values. The views here say which
values count as a number, a whole number or a list of them.
-/

namespace Dataflow

namespace Scalar

/-- The number that a scalar stands for; a truth value stands for 0 or 1. -/
def asFloat : Scalar → Except Fault Float
  | .float x => .ok x
  | .int i => .ok (Word.toFloat i)
  | .bool b => .ok (if b then 1.0 else 0.0)
  | .str s => .error (.typeMismatch .numericScalar (Scalar.str s).kindName)

/-- The whole number that a scalar stands for. A float has to be finite and whole; beyond the range
of a word it counts as the nearest word. -/
def asInt : Scalar → Except Fault Int64
  | .int i => .ok i
  | .float x =>
    if Decimal.isWhole x then .ok (Word.ofFloat x)
    else .error (.typeMismatch .integerScalar (Scalar.float x).text)
  | .bool b => .ok (if b then 1 else 0)
  | .str s => .error (.typeMismatch .integerScalar (Scalar.str s).text)

end Scalar

namespace Value

def asFloat : Value → Except Fault Float
  | .scalar s => s.asFloat
  | .array items => .error (.typeMismatch .numericScalar (Value.array items).kindName)

def asInt : Value → Except Fault Int64
  | .scalar s => s.asInt
  | .array items => .error (.typeMismatch .integerScalar (Value.array items).text)

/-- The whole numbers of a flat array, or of a scalar as a list of one. -/
def asInts : Value → Except Fault (List Int64)
  | .scalar s => do return [← s.asInt]
  | .array items => items.mapM asInt

/-- A whole number that counts something. -/
def extent (d : Int64) : Except Fault Nat :=
  if d < 0 then .error (.negativeExtent d.toInt) else .ok d.toInt.toNat

/-- The extents that a flat array or a scalar lists. All entries are read as whole numbers before
any sign is looked at. -/
def asExtents (v : Value) : Except Fault (List Nat) := do
  (← v.asInts).mapM extent

end Value

end Dataflow
