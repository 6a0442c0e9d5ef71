import FuzzyInference.Scalar

/-!
# Evenly spaced samples

Samples of an interval at equal distances. The first sample is the start of the interval, and
the last is its end as far as the arithmetic is exact.
-/

namespace FuzzyInference.Numeric

variable {α : Type} [Scalar α]

/-- The distance between neighbours among `n` samples of the interval from `start` to `stop`. A
single sample has no neighbour. -/
def step (start stop : α) (n : Nat) : α :=
  if n > 1 then (stop - start) / Scalar.ofNat (n - 1) else 0

/-- `n` samples of the interval from `start` to `stop`, both ends included. Each is computed from
the start and not from the one before it. -/
def samples (start stop : α) (n : Nat) : List α :=
  (List.range n).map fun i => start + step start stop n * Scalar.ofNat i

end FuzzyInference.Numeric
