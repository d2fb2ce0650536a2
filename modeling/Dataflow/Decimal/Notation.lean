import Dataflow.Decimal.Shortest

/-!
# Decimal notation of doubles

Two ways of writing a double, both with the fewest digits that read back. `display` never uses an
exponent and writes a whole number out exactly; `literal` changes to an exponent for very large and
very small magnitudes.
-/

namespace Dataflow.Decimal

namespace Shortest

def digitText (d : Shortest) : String := toString d.digits

/-- Positional notation, with a point only where there is a fraction. -/
def positional (d : Shortest) : String :=
  let text := d.digitText
  let places := (-d.scale).toNat
  if places = 0 then text ++ "".pushn '0' d.scale.toNat
  else if places < text.length then
    let cs := text.toList
    String.ofList (cs.take (text.length - places)) ++ "." ++
      String.ofList (cs.drop (text.length - places))
  else "0." ++ "".pushn '0' (places - text.length) ++ text

/-- One digit, a point and the other digits if there are any, and the power of ten. -/
def scientific (d : Shortest) : String :=
  match d.digitText.toList with
  | [] => ""
  | [c] => s!"{c}e{d.scale}"
  | c :: cs => s!"{c}.{String.ofList cs}e{d.scale + cs.length}"

end Shortest

/-- The sign that is written before the magnitude of `x`; zero keeps its sign. -/
def signText (x : Float) : String :=
  if isNegative x then "-" else ""

/-- Whether `x` is a finite whole number. -/
def isWhole (x : Float) : Bool :=
  x.isFinite && (Binary.ofFloat x).isWhole

/-- The names of the doubles that are not finite. -/
def nonfiniteText (x : Float) : String :=
  if x.isNaN then "NaN" else signText x ++ "inf"

/-- A double as it appears in messages: a whole number with every digit and `.0`, any other with the
fewest digits that read back, always positional. -/
def display (x : Float) : String :=
  if !x.isFinite then nonfiniteText x
  else if isWhole x then signText x ++ toString (Binary.ofFloat x).floor ++ ".0"
  else signText x ++ (Shortest.ofFloat x).positional

/-- A double as a literal: the fewest digits that read back, positional with at least one place for
magnitudes from 0.0001 up to, not including, 10^16. -/
def literal (x : Float) : String :=
  if !x.isFinite then nonfiniteText x
  else
    let d := Shortest.ofFloat x
    let magnitude := x.abs
    if 1e16 ≤ magnitude || (magnitude != 0.0 && magnitude < 1e-4) then
      signText x ++ d.scientific
    else
      signText x ++ d.positional ++ if d.scale < 0 then "" else ".0"

end Dataflow.Decimal
