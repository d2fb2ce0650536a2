import Dataflow.Fault

/-!
# Numbers

What arithmetic sees of a scalar: a 64-bit word or a double, with the truth values as the words 0
and 1. Word arithmetic wraps, so each operation is exact modulo 2^64.
-/

namespace Dataflow

namespace Word

/-- The double nearest to a word, a half to the even significand. -/
def toFloat (a : Int64) : Float :=
  let magnitude := Decimal.nearestDouble a.toInt.natAbs 1
  if a < 0 then -magnitude else magnitude

/-- The double without its fraction as a word, or the nearest word if it is beyond their range; 0 for
NaN. -/
def ofFloat (x : Float) : Int64 :=
  if x.isNaN then 0
  else
    let magnitude : Int := (Decimal.Binary.ofFloat x).floor
    Int64.ofIntClamp (if Decimal.isNegative x then -magnitude else magnitude)

/-- The largest whole number that is not above the double, in the same way. -/
def floor (x : Float) : Int64 :=
  if x.isNaN then 0
  else
    let b := Decimal.Binary.ofFloat x
    let magnitude : Int := b.floor
    Int64.ofIntClamp
      (if !Decimal.isNegative x then magnitude else if b.isWhole then -magnitude else -magnitude - 1)

end Word

/-- A scalar that takes part in arithmetic. -/
inductive Number where
  | int (i : Int64)
  | float (x : Float)

namespace Number

/-- The number that a value stands for. Strings and arrays are refused. -/
def ofValue : Value → Except Fault Number
  | .scalar (.int i) => .ok (.int i)
  | .scalar (.bool b) => .ok (.int (if b then 1 else 0))
  | .scalar (.float x) => .ok (.float x)
  | v => .error (.typeMismatch .numericScalar v.text)

/-- The number as a double; a large word is rounded. -/
def toFloat : Number → Float
  | .int i => Word.toFloat i
  | .float x => x

def toScalar : Number → Scalar
  | .int i => .int i
  | .float x => .float x

end Number

/-! ## Words -/

namespace Word

/-- Division rounded down. The quotient of the least word by -1 wraps. -/
def floorDiv (a b : Int64) : Except Fault Int64 :=
  if b = 0 then .error .divisionByZero
  else
    let q := a / b
    if a % b ≠ 0 ∧ (a < 0) ≠ (b < 0) then .ok (q - 1) else .ok q

/-- The `n`-th power, by repeated squaring. -/
def power (a : Int64) (n : Nat) : Int64 :=
  if n = 0 then 1
  else
    let r := power (a * a) (n / 2)
    if n % 2 = 1 then a * r else r
termination_by n

/-- The sign as -1, 0 or 1. -/
def sign (a : Int64) : Int64 :=
  if a < 0 then -1 else if a = 0 then 0 else 1

def abs (a : Int64) : Int64 :=
  if a < 0 then -a else a

end Word

/-! ## Doubles -/

namespace Double

/-- The larger of two doubles; NaN if one of them is. Of two zeros it is the second, whatever their
signs. -/
def max (x y : Float) : Float :=
  if x.isNaN || y.isNaN then 0.0 / 0.0 else if x > y then x else y

/-- The sign as -1, 0 or 1; NaN has none and counts as zero. -/
def sign (x : Float) : Float :=
  if x == 0.0 || x.isNaN then 0.0 else if x < 0.0 then -1.0 else 1.0

/-- The order of two doubles, unless one of them is NaN. -/
def compare? (x y : Float) : Option Ordering :=
  if x < y then some .lt else if x == y then some .eq else if x > y then some .gt else none

end Double

end Dataflow
