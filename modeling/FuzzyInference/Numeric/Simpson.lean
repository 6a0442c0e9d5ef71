import FuzzyInference.Numeric.Samples

/-!
# Simpson's rule

The integral of a function over an interval that is split into equal parts. The function is
sampled at both ends of each part and at its middle.
-/

namespace FuzzyInference.Numeric

variable {α : Type} [Scalar α]

/-- How much sample `i` of the samples `0` to `n` counts: the two ends once, the middle of a part
four times, an end that two parts share twice. -/
def weight (n i : Nat) : α :=
  if i = 0 ∨ i = n then 1 else if i % 2 = 1 then 4 else 2

/-- The integral of `f` from `a` to `b`, with that interval split into `parts` parts. -/
def simpson (f : α → α) (a b : α) (parts : Nat) : α :=
  let n := 2 * parts
  let h := (b - a) / Scalar.ofNat n
  let weighted := (samples a b (n + 1)).zipIdx.map fun (x, i) => weight n i * f x
  weighted.foldl (· + ·) 0 * h / 3

end FuzzyInference.Numeric
