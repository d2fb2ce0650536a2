import Dataflow.Evaluation.State

/-!
# The standard library of distributions

A library to run evaluations with. Its generators mix the bits of a counter, and a normal number
comes from two uniform ones.
-/

namespace Dataflow

namespace Rng

/-- Mixes the bits of a word. -/
def mix (z : UInt64) : UInt64 :=
  let z := (z ^^^ (z >>> 30)) * 0xBF58476D1CE4E5B9
  let z := (z ^^^ (z >>> 27)) * 0x94D049BB133111EB
  z ^^^ (z >>> 31)

/-- A counter that starts at the seed and advances by a fixed odd step, with its bits mixed. -/
def ofSeed (seed : UInt64) : Rng where
  word i := mix (seed + .ofNat (i + 1) * 0x9E3779B97F4A7C15)
  drawn := 0

/-- A number from 0 up to, not including, 1: a multiple of 2^-53. -/
def unit (g : Rng) : Float × Rng :=
  let (word, g) := g.next
  ((word >>> 11).toFloat / 9007199254740992.0, g)

end Rng

namespace Sampler

/-- A number in the half-open range; where rounding would leave the range, its lower end. -/
def between (low high unit : Float) : Float :=
  let x := low + (high - low) * unit
  if low <= x && x < high then x else low

/-- Draws one number. A normal one comes from two uniform ones, by their polar form. -/
def draw : Sampler → Rng → Float × Rng
  | .uniform low high, g =>
    let (u, g) := g.unit
    (between low high u, g)
  | .normal mean deviation, g =>
    let (u, g) := g.unit
    let (v, g) := g.unit
    let z := (-2.0 * (1.0 - u).log).sqrt * (6.283185307179586 * v).cos
    (mean + deviation * z, g)

end Sampler

/-- The width of a range has to be finite, as well as its bounds. -/
def Library.standard : Library Rng where
  ofSeed := .ofSeed
  uniform low high :=
    if low.isFinite && high.isFinite && low < high && (high - low).isFinite then
      some (Sampler.uniform low high).draw
    else none
  normal mean deviation :=
    if deviation.isFinite then .ok (Sampler.normal mean deviation).draw
    else .error "variance is not finite in normal distribution"

/-- A state without results that draws from the standard library. -/
def State.initial (graph : Graph) (context : Context) (config : Config) (spare : UInt64) : State :=
  .start .standard graph context config spare

end Dataflow
