/-!
# Random numbers

A generator of 64-bit words. What a sampler learns of a generator are the words that it yields, one
after another, so a generator is the stream of its words and the place that was reached in it.
-/

namespace Dataflow

structure Rng where
  word : Nat → UInt64
  /-- How many words have been drawn. -/
  drawn : Nat

namespace Rng

/-- The next word and the generator after it. -/
def next (g : Rng) : UInt64 × Rng :=
  (g.word g.drawn, { g with drawn := g.drawn + 1 })

/-- Draws `n` numbers one after another from a generator of any type. -/
def draws {α γ : Type} (draw : γ → α × γ) : (n : Nat) → γ → List α × γ
  | 0, g => ([], g)
  | n + 1, g =>
    let (x, g) := draw g
    let (xs, g) := draws draw n g
    (x :: xs, g)

end Rng

end Dataflow
