import Dataflow.Cast
import Dataflow.Evaluation.Arguments
import Dataflow.Evaluation.Rng
import Dataflow.Rearrange.Reshape

/-!
# Random arrays

An array of numbers drawn from a distribution. All options are checked before any number is drawn,
so a refusal leaves the generator as it was. The samplers come from a library, which checks their
parameters once more.
-/

namespace Dataflow

/-! ## Distributions -/

/-- A distribution with its parameters. -/
inductive Sampler where
  | uniform (low high : Float)
  | normal (mean deviation : Float)

namespace Sampler

/-- Reads the parameters of a distribution. -/
def read (args : Arguments) : Distribution → Except Failure Sampler
  | .normal => do
    let mean ← args.float "mean" 0.0
    let deviation ← args.float "stddev" 1.0
    if deviation.isFinite && deviation >= 0.0 then return .normal mean deviation
    else throw (args.invalid "stddev" .badDeviation)
  | .uniform => do
    let low ← args.float "minval" 0.0
    let high ← args.float "maxval" 1.0
    if low.isFinite && high.isFinite && low < high then return .uniform low high
    else throw (args.invalid "maxval" .emptyRange)

end Sampler

/-! ## Libraries -/

/-- What is used of a library of distributions over generators of type `γ`. -/
structure Library (γ : Type) where
  ofSeed : UInt64 → γ
  /-- How numbers of a range are drawn; there is none where the library stops the program. -/
  uniform (low high : Float) : Option (γ → Float × γ)
  /-- How normal numbers are drawn, or the complaint about the parameters. -/
  normal (mean deviation : Float) : Except String (γ → Float × γ)

/-- A generator and the library that draws from it. -/
structure Source (γ : Type) where
  library : Library γ
  generator : γ

/-- A source from which nothing can be drawn. -/
def Source.dry : Source Unit where
  library := ⟨fun _ => (), fun _ _ => none, fun _ _ => .error ""⟩
  generator := ()

namespace Library

/-- Builds the sampler of a distribution. Where the library stops the program, this is a failure
like any other, and `Failure.stops` tells it apart: a breakpoint may observe it, and more calls may
follow. So there are more runs here than the program has, and what holds of all of them holds of
those that it ends early. -/
def build {γ : Type} (lib : Library γ) (args : Arguments) :
    Sampler → Except Failure (γ → Float × γ)
  | .uniform low high =>
    match lib.uniform low high with
    | some draw => .ok draw
    | none => .error (args.invalid "maxval" .overwideRange)
  | .normal mean deviation =>
    match lib.normal mean deviation with
    | .ok draw => .ok draw
    | .error complaint => .error (args.invalid "stddev" (.refused complaint))

end Library

/-! ## Arrays of samples -/

namespace Sampling

/-- The number of elements, unless it takes more than 64 bits to count them from the outermost axis
inwards. -/
def elements? (dims : List Int) : Option Nat :=
  dims.foldlM (fun n d => if n * d.toNat < UInt64.size then some (n * d.toNat) else none) 1

/-- The extents that were asked for; without any, a scalar is drawn. -/
def shape (args : Arguments) : Except Failure (List Int) :=
  match args.value? "shape" with
  | some v => args.ints "shape" v
  | none => .ok []

/-- A sample as an element; the integer types take the largest whole number below it. -/
def element (dtype : DType) (x : Float) : Scalar :=
  if dtype.isInteger then .int (Word.floor x) else .float x

/-- Arranges samples in the given extents and casts them to the element type of the node. -/
def arrange (args : Arguments) (dims : List Int) (samples : List Float) : Except Failure Value := do
  let flat := samples.map fun x => Value.scalar (element args.dtype x)
  let shaped ←
    match dims, flat with
    | [], [] => throw (args.invalid "shape" .noSamples)
    | [], s :: _ => pure s
    | dims, flat => Failure.ofFault ((Value.array flat).reshape dims)
  Failure.ofFault (shaped.cast args.dtype)

/-- The number of samples, the generator and the distribution that the options ask for. A seed of
its own takes the place of the shared generator. -/
def plan (args : Arguments) (distribution : Distribution) :
    Except Failure (List Int × Nat × Option UInt64 × Sampler) := do
  let dims ← shape args
  if dims.any (· < 0) then throw (args.invalid "shape" .negativeExtents)
  match elements? dims with
  | none => throw (args.invalid "shape" .tooManyElements)
  | some n =>
    let seed ← args.int? "seed"
    let sampler ← Sampler.read args distribution
    return (dims, n, seed.map UInt64.ofInt, sampler)

/-- The plan with the sampler of its distribution built. -/
def prepare {γ : Type} (lib : Library γ) (args : Arguments) (distribution : Distribution) :
    Except Failure (List Int × Nat × Option UInt64 × (γ → Float × γ)) := do
  let (dims, n, seed, sampler) ← plan args distribution
  let draw ← lib.build args sampler
  return (dims, n, seed, draw)

/-- Draws an array. The shared generator advances only if it was used. -/
def sample {γ : Type} (lib : Library γ) (args : Arguments) (distribution : Distribution)
    (shared : γ) : Except Failure Value × γ :=
  match prepare lib args distribution with
  | .error failure => (.error failure, shared)
  | .ok (dims, n, some seed, draw) =>
    let (samples, _) := Rng.draws draw n (lib.ofSeed seed)
    (arrange args dims samples, shared)
  | .ok (dims, n, none, draw) =>
    let (samples, rest) := Rng.draws draw n shared
    (arrange args dims samples, rest)

end Sampling

end Dataflow
