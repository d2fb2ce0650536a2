import Dataflow.Decimal.Binary

/-!
# Single precision

Rounding of a double to the nearest number that single precision can represent. It works on bit
patterns: a finite single is a double whose significand ends in zeros, at least 29 of them, and
more below the least normal single, where the gap between neighbours stays the same.
-/

namespace Dataflow.Single

open Decimal (roundDiv)
open Decimal.Binary (leadingWeight)

/-- The weight of the sign bit in the pattern of a double; the bits below it are the magnitude. -/
def signWeight : Nat := 0x8000000000000000

/-- The magnitudes from here on are infinity and NaN, which rounding leaves alone. -/
def infinity : Nat := 2047 * leadingWeight

/-- The magnitude of 2 ^ 128, the first power of two beyond all singles. -/
def beyond : Nat := 1151 * leadingWeight

/-- How many of the last digits of a significand a single has no room for, when `exponent` is the
exponent field of the double. The field of the least normal single is 897. -/
def dropped (exponent : Nat) : Nat := 29 + (897 - exponent)

/-- The nearest multiple of `unit`, a half to the even one. -/
def roundTo (unit n : Nat) : Nat := roundDiv n unit * unit

/-- The significand of a normal double without the digits that a single has no room for. It is 0
for a double that is too close to zero, and twice `leadingWeight` for one that is rounded up to the
next power of two. -/
def significand (exponent fraction : Nat) : Nat :=
  roundTo (Nat.pow 2 (dropped exponent)) (leadingWeight + fraction)

/-- The magnitude of the nearest single. The exponent field counts in multiples of `leadingWeight`,
so a significand that is rounded up to the next power of two carries into it. -/
def magnitude (m : Nat) : Nat :=
  let exponent := m / leadingWeight
  let rounded := significand exponent (m % leadingWeight)
  if infinity ≤ m then m
  else if exponent = 0 ∨ rounded = 0 then 0
  else
    let m' := (exponent - 1) * leadingWeight + rounded
    if beyond ≤ m' then infinity else m'

/-- The single nearest to `x`, as a double: a half to the even significand, and infinity from half a
unit beyond the largest single on. -/
def round (x : Float) : Float :=
  let bits := x.toBits.toNat
  Float.ofBits (UInt64.ofNat (bits / signWeight * signWeight + magnitude (bits % signWeight)))

end Dataflow.Single
