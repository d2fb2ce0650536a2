/-!
# Doubles as exact numbers

A finite double is a sign and a natural number times a power of two. Everything that writes a
double in decimal starts from this form, so that all of its comparisons are exact.
-/

namespace Dataflow.Decimal

/-- The number `significand * 2 ^ exponent`. -/
structure Binary where
  significand : Nat
  exponent : Int
  /-- Whether the next smaller double is only half as far away as the next larger one. -/
  narrowBelow : Bool

namespace Binary

/-- The weight of the significand's leading binary digit, 2 ^ 52. The digits below it are the low
part of a bit pattern, and the exponent counts in multiples of it. -/
def leadingWeight : Nat := 0x10000000000000

/-- The magnitude of a finite double. Subnormal numbers share the least exponent, and the gap
shrinks only below the powers of two that are not among them. -/
def ofFloat (x : Float) : Binary :=
  let bits := x.toBits.toNat
  let fraction := bits % leadingWeight
  let biased := bits / leadingWeight % 2048
  if biased = 0 then ⟨fraction, -1074, false⟩
  else ⟨leadingWeight + fraction, (biased : Int) - 1075, fraction == 0 && 1 < biased⟩

/-- The integer part. -/
def floor (b : Binary) : Nat :=
  b.significand <<< b.exponent.toNat >>> (-b.exponent).toNat

/-- Whether there is no fraction. -/
def isWhole (b : Binary) : Bool :=
  b.significand % 1 <<< (-b.exponent).toNat == 0

end Binary

/-! ## Rounding -/

/-- The quotient rounded to the nearest whole number, a half to the even one. -/
def roundDiv (num den : Nat) : Nat :=
  let q := num / den
  let r := num % den
  if 2 * r < den ∨ (2 * r = den ∧ q % 2 = 0) then q else q + 1

/-- The place of the leading binary digit of `num / den`: the largest `e` with
`2 ^ e ≤ num / den`. -/
def leadingBit (num den : Nat) : Int :=
  let e : Int := (num.log2 : Int) - den.log2
  if den <<< e.toNat ≤ num <<< (-e).toNat then e else e - 1

/-- The double nearest to `num / den`, a half to the even significand, and infinity from half a unit
beyond the largest double on. The significand with the exponent above it is the bit pattern, so a
significand that is rounded up to the next power of two carries into the exponent. -/
def nearestDouble (num den : Nat) : Float :=
  if num = 0 then 0.0
  else
    let exponent := max (leadingBit num den - 52) (-1074)
    let significand := roundDiv (num <<< (-exponent).toNat) (den <<< exponent.toNat)
    let bits := (exponent + 1074).toNat * Binary.leadingWeight + significand
    Float.ofBits (UInt64.ofNat (min bits (2047 * Binary.leadingWeight)))

/-- Whether the sign bit of a double is set. -/
def isNegative (x : Float) : Bool :=
  0x8000000000000000 ≤ x.toBits

end Dataflow.Decimal
