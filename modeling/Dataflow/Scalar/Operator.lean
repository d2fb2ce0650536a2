import Dataflow.Scalar.Number
import Dataflow.Text.Camel

/-!
# Operators on scalars

The operators that the elementwise combinators apply. Words stay words where the operator allows
it; a float operand makes the result a float. Comparisons order numbers with numbers and strings
with strings.
-/

namespace Dataflow

inductive Arithmetic where
  | add
  | sub
  | mul
  | div
  | pow
  | max
deriving DecidableEq

inductive Comparison where
  | equal
  | notEqual
  | less
  | greater
  | lessEqual
  | greaterEqual
deriving DecidableEq

inductive BinaryOp where
  | arithmetic (op : Arithmetic)
  | comparison (op : Comparison)
deriving DecidableEq

inductive UnaryOp where
  | negate
  | abs
  | tanh
  | tan
  | sin
  | cos
  | log
  | exp
  | sqrt
  | square
  | sign
deriving DecidableEq

/-! ## Arithmetic -/

namespace Arithmetic

/-- The operator on words. A power with a negative exponent, or one of 2^32 and more, is not taken
in words. -/
def onWords? (op : Arithmetic) (a b : Int64) : Except Fault (Option Int64) :=
  match op with
  | .add => .ok (some (a + b))
  | .sub => .ok (some (a - b))
  | .mul => .ok (some (a * b))
  | .div => do return some (← Word.floorDiv a b)
  | .pow => .ok (if 0 ≤ b ∧ b < 0x100000000 then some (Word.power a b.toInt.toNat) else none)
  | .max => .ok (some (if a < b then b else a))

def onDoubles (op : Arithmetic) (x y : Float) : Float :=
  match op with
  | .add => x + y
  | .sub => x - y
  | .mul => x * y
  | .div => x / y
  | .pow => x.pow y
  | .max => Double.max x y

def onNumbers (op : Arithmetic) (a b : Number) : Except Fault Number :=
  match a, b with
  | .int p, .int q => do
    match ← op.onWords? p q with
    | some r => return .int r
    | none => return .float (op.onDoubles (Word.toFloat p) (Word.toFloat q))
  | a, b => .ok (.float (op.onDoubles a.toFloat b.toFloat))

/-- The operator on two values, which have to be numbers; two strings can be added as well, which
joins them. -/
def apply (op : Arithmetic) (a b : Value) : Except Fault Scalar :=
  match op, a, b with
  | .add, .scalar (.str s), .scalar (.str t) => .ok (.str (s ++ t))
  | op, a, b => do
    let x ← Number.ofValue a
    let y ← Number.ofValue b
    return (← op.onNumbers x y).toScalar

theorem apply_of_ofValue (op : Arithmetic) {s t : Scalar} {x y : Number}
    (hx : Number.ofValue (.scalar s) = .ok x) (hy : Number.ofValue (.scalar t) = .ok y) :
    op.apply (.scalar s) (.scalar t) = do return (← op.onNumbers x y).toScalar := by
  have happly : op.apply (.scalar s) (.scalar t) = (do
      let x ← Number.ofValue (.scalar s)
      let y ← Number.ofValue (.scalar t)
      return (← op.onNumbers x y).toScalar) := by
    cases s with
    | str => cases hx
    | _ => cases op <;> rfl
  rw [happly, hx, hy]
  rfl

end Arithmetic

/-! ## Comparison -/

namespace Number

/-- The order of two numbers. Two words are compared exactly, any other pair as doubles. -/
def compare? : Number → Number → Option Ordering
  | .int a, .int b => some (compareOfLessAndEq a b)
  | a, b => Double.compare? a.toFloat b.toFloat

end Number

namespace Comparison

/-- Whether the comparison holds of operands in the given order. Operands without an order, of which
one is NaN, are only unequal. -/
def holds (op : Comparison) : Option Ordering → Bool
  | none => op == .notEqual
  | some o =>
    match op with
    | .equal => o == .eq
    | .notEqual => o != .eq
    | .less => o == .lt
    | .greater => o == .gt
    | .lessEqual => o != .gt
    | .greaterEqual => o != .lt

/-- A string against anything else is unequal and has no order. -/
def onMixed (op : Comparison) (a b : Value) : Except Fault Bool :=
  match op with
  | .equal => .ok false
  | .notEqual => .ok true
  | _ => .error (.typeMismatch .comparableScalars s!"{a.text} and {b.text}")

def apply (op : Comparison) (a b : Value) : Except Fault Bool :=
  match a, b with
  | .scalar (.str s), .scalar (.str t) => .ok (op.holds (some (compareOfLessAndEq s t)))
  | .scalar (.str _), _ => op.onMixed a b
  | _, .scalar (.str _) => op.onMixed a b
  | _, _ => do
    let x ← Number.ofValue a
    let y ← Number.ofValue b
    return op.holds (Number.compare? x y)

theorem apply_of_ofValue (op : Comparison) {s t : Scalar} {x y : Number}
    (hx : Number.ofValue (.scalar s) = .ok x) (hy : Number.ofValue (.scalar t) = .ok y) :
    op.apply (.scalar s) (.scalar t) = .ok (op.holds (Number.compare? x y)) := by
  have happly : op.apply (.scalar s) (.scalar t) = (do
      let x ← Number.ofValue (.scalar s)
      let y ← Number.ofValue (.scalar t)
      return op.holds (Number.compare? x y)) := by
    cases s with
    | str => cases hx
    | _ =>
      cases t with
      | str => cases hy
      | _ => rfl
  rw [happly, hx, hy]
  rfl

end Comparison

/-! ## Operators -/

namespace BinaryOp

def isComparison : BinaryOp → Bool
  | .arithmetic _ => false
  | .comparison _ => true

def tag : BinaryOp → String
  | .arithmetic .add => "add"
  | .arithmetic .sub => "sub"
  | .arithmetic .mul => "mul"
  | .arithmetic .div => "div"
  | .arithmetic .pow => "pow"
  | .arithmetic .max => "max"
  | .comparison .equal => "equal"
  | .comparison .notEqual => "not_equal"
  | .comparison .less => "less"
  | .comparison .greater => "greater"
  | .comparison .lessEqual => "less_equal"
  | .comparison .greaterEqual => "greater_equal"

/-- The tag in the form of a constructor name. -/
def label (op : BinaryOp) : String := Text.camel op.tag

/-- The operator as one that computes. Other operators are refused once the operands are known to be
numbers. -/
def combine (op : BinaryOp) (a b : Value) : Except Fault Scalar :=
  match op with
  | .arithmetic op => op.apply a b
  | .comparison _ => do
    discard (Number.ofValue a)
    discard (Number.ofValue b)
    throw (.notArithmetic op.label)

/-- The operator as one that compares. Other operators are refused once the operands are known to
have an order; without one, nothing holds of them. -/
def compare (op : BinaryOp) (a b : Value) : Except Fault Bool :=
  match op with
  | .comparison op => op.apply a b
  | .arithmetic _ =>
    match a, b with
    | .scalar (.str _), .scalar (.str _) => .error (.notComparison op.label)
    | .scalar (.str _), _ | _, .scalar (.str _) =>
      .error (.typeMismatch .comparableScalars s!"{a.text} and {b.text}")
    | _, _ => do
      match Number.compare? (← Number.ofValue a) (← Number.ofValue b) with
      | some _ => throw (.notComparison op.label)
      | none => return false

/-- The operator on two scalars. Arrays are refused, except that a string is merely unequal to
one. -/
def apply (op : BinaryOp) (a b : Value) : Except Fault Scalar :=
  if op.isComparison then do return .bool (← op.compare a b) else op.combine a b

@[simp] theorem apply_arithmetic (op : Arithmetic) (a b : Value) :
    (arithmetic op).apply a b = op.apply a b := rfl

@[simp] theorem apply_comparison (op : Comparison) (a b : Value) :
    (comparison op).apply a b = do return .bool (← op.apply a b) := rfl

end BinaryOp

namespace UnaryOp

/-- The operators that keep a word a word. -/
def onWord? (op : UnaryOp) (a : Int64) : Option Int64 :=
  match op with
  | .negate => some (-a)
  | .abs => some (Word.abs a)
  | .square => some (a * a)
  | .sign => some (Word.sign a)
  | _ => none

/-- The operator on a double. The logarithm of a negative number is NaN. -/
def onDouble (op : UnaryOp) (x : Float) : Float :=
  match op with
  | .negate => -x
  | .abs => x.abs
  | .tanh => x.tanh
  | .tan => x.tan
  | .sin => x.sin
  | .cos => x.cos
  | .log => x.log
  | .exp => x.exp
  | .sqrt => x.sqrt
  | .square => x * x
  | .sign => Double.sign x

def onNumber (op : UnaryOp) : Number → Number
  | .int a =>
    match op.onWord? a with
    | some r => .int r
    | none => .float (op.onDouble (Word.toFloat a))
  | .float x => .float (op.onDouble x)

def apply (op : UnaryOp) (a : Value) : Except Fault Scalar := do
  return (op.onNumber (← Number.ofValue a)).toScalar

end UnaryOp

end Dataflow
