import Dataflow.Decimal.Binary

/-!
# Reading decimal text

Readers for whole numbers that fit in 64 bits and for doubles. Both take the complete text: a blank
or any other character that does not belong to the number makes them fail.
-/

namespace Dataflow.Decimal

/-! ## Parts of a number -/

/-- Splits an optional sign off; the flag tells whether it is a minus. -/
def takeSign : List Char → Bool × List Char
  | '-' :: cs => (true, cs)
  | '+' :: cs => (false, cs)
  | cs => (false, cs)

/-- The number that a list of decimal digits writes, most significant first. -/
def ofDigits (ds : List Char) : Nat :=
  ds.foldl (fun n d => 10 * n + (d.toNat - '0'.toNat)) 0

/-- Splits the leading ASCII digits off. -/
def takeDigits (cs : List Char) : List Char × List Char :=
  cs.span Char.isDigit

/-! ## Whole numbers -/

/-- A whole number with an optional sign, if it lies between -2^63 and 2^63 - 1. -/
def readInt? (cs : List Char) : Option Int64 :=
  let (negative, ds) := takeSign cs
  if ds.isEmpty || !ds.all Char.isDigit then none
  else
    let magnitude : Int := ofDigits ds
    let n := if negative then -magnitude else magnitude
    if Int64.minValue.toInt ≤ n ∧ n ≤ Int64.maxValue.toInt then some (Int64.ofInt n) else none

/-! ## Doubles -/

/-- The double nearest to `digits * 10 ^ scale`. The doubles end below `10 ^ 309` and the positive
ones begin above `10 ^ (-324)`, so a scale far outside is not worked out. -/
def nearest (digits : Nat) (scale : Int) : Float :=
  let place := (Nat.toDigits 10 digits).length + scale
  if digits = 0 ∨ place < -330 then 0.0
  else if 320 < place then 1.0 / 0.0
  else nearestDouble (digits * Nat.pow 10 scale.toNat) (Nat.pow 10 (-scale).toNat)

/-- The power of ten after the digits: nothing, or `e` and a whole number. -/
def readExponent? : List Char → Option Int
  | [] => some 0
  | c :: cs =>
    if c = 'e' ∨ c = 'E' then
      let (negative, ds) := takeSign cs
      if ds.isEmpty || !ds.all Char.isDigit then none
      else some (if negative then -(ofDigits ds : Int) else ofDigits ds)
    else none

/-- Digits with at most one point among them, at least one digit, and an optional exponent. -/
def readMagnitude? (cs : List Char) : Option Float :=
  let (whole, rest) := takeDigits cs
  let (fraction, rest) : List Char × List Char :=
    match rest with
    | '.' :: rest => takeDigits rest
    | rest => ([], rest)
  if whole.isEmpty && fraction.isEmpty then none
  else
    (readExponent? rest).map fun e => nearest (ofDigits (whole ++ fraction)) (e - fraction.length)

/-- A double: an optional sign and either a decimal number or one of the names of infinity and NaN,
in any mixture of upper and lower case. -/
def readFloat? (cs : List Char) : Option Float :=
  let (negative, rest) := takeSign cs
  let magnitude? :=
    match String.ofList (rest.map Char.toLower) with
    | "inf" | "infinity" => some (1.0 / 0.0)
    | "nan" => some (0.0 / 0.0)
    | _ => readMagnitude? rest
  magnitude?.map fun x => if negative then -x else x

end Dataflow.Decimal
