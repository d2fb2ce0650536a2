import Dataflow.Decimal.Binary

/-!
# The shortest decimal that reads back

Among the decimals that round to a given double, `shortest` takes one with the fewest digits, and
among those the one nearest to the double. For each count of digits only the two neighbours of the
double on the grid of that many digits have to be tried: if any point of the grid reads back, so
does one of them.
-/

namespace Dataflow.Decimal

/-- The number `digits * 10 ^ scale`. -/
structure Shortest where
  digits : Nat
  scale : Int

namespace Shortest

/-! ## The interval of a double -/

/-- A quantity `num / den * 10 ^ scale`, with the bounds of the numbers that read back as it, all
three over one denominator. -/
structure Bracket where
  low : Nat
  mid : Nat
  high : Nat
  den : Nat
  /-- Whether the bounds themselves read back. -/
  closed : Bool

/-- The bracket of `b`, measured in units of `10 ^ scale`. The bounds lie halfway to the
neighbouring doubles, and a half rounds to the even significand. -/
def bracket (b : Binary) (scale : Int) : Bracket :=
  let quarter := b.exponent - 2
  let up := Nat.pow 10 (-scale).toNat <<< quarter.toNat
  let down := Nat.pow 10 scale.toNat <<< (-quarter).toNat
  let mid := 4 * b.significand
  { low := (mid - if b.narrowBelow then 1 else 2) * up
    mid := mid * up
    high := (mid + 2) * up
    den := down
    closed := b.significand % 2 == 0 }

/-- Whether the whole number `t` of units reads back. -/
def Bracket.holds (r : Bracket) (t : Nat) : Bool :=
  if r.closed then r.low ≤ t * r.den && t * r.den ≤ r.high
  else r.low < t * r.den && t * r.den < r.high

/-- The nearer of the two whole neighbours of the quantity that reads back, if either does; the
larger one when both are equally near. -/
def Bracket.nearest? (r : Bracket) : Option Nat :=
  let t := r.mid / r.den
  let below := r.mid - t * r.den
  let above := (t + 1) * r.den - r.mid
  match r.holds t, r.holds (t + 1) with
  | true, true => some (if below < above then t else t + 1)
  | true, false => some t
  | false, true => some (t + 1)
  | false, false => none

/-! ## Digits -/

/-- The place of the leading decimal digit of a positive number: `10 ^ k ≤ b < 10 ^ (k + 1)`. The
least positive double is above `10 ^ (-324)`. -/
def leadingPlace (b : Binary) : Int :=
  let whole := b.floor
  if whole = 0 then
    let num := b.significand
    let den := 1 <<< (-b.exponent).toNat
    match (List.range 324).find? fun j => den ≤ num * Nat.pow 10 (j + 1) with
    | some j => -(j + 1 : Int)
    | none => -324
  else ((Nat.toDigits 10 whole).length : Int) - 1

/-- Removes the zeros at the end of `digits`; `fuel` bounds their number. -/
def trim : (fuel : Nat) → Shortest → Shortest
  | 0, d => d
  | fuel + 1, d =>
    if d.digits ≠ 0 ∧ d.digits % 10 = 0 then trim fuel ⟨d.digits / 10, d.scale + 1⟩ else d

/-- The decimal for a positive number. Seventeen digits always suffice. -/
def ofBinary (b : Binary) : Shortest :=
  let place := leadingPlace b
  let onGrid? (n : Nat) : Option Shortest :=
    let scale := place + 1 - n
    (bracket b scale).nearest?.map fun t => ⟨t, scale⟩
  match (List.range' 1 17).findSome? onGrid? with
  | some d => trim 17 d
  | none => ⟨0, 0⟩

/-- The decimal for the magnitude of a finite double. -/
def ofFloat (x : Float) : Shortest :=
  let b := Binary.ofFloat x
  if b.significand = 0 then ⟨0, 0⟩ else ofBinary b

end Shortest

end Dataflow.Decimal
