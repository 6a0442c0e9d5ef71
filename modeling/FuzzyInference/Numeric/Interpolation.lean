import FuzzyInference.Scalar

/-!
# Linear interpolation

The value at `x` of the line through given points, which are expected in ascending order of
their abscissas. Left of the first point and right of the last the line runs level. Where
several points share an abscissa the line steps, and the first segment that contains the
abscissa decides.
-/

namespace FuzzyInference.Numeric

variable {α : Type} [Scalar α]

/-- The value at `x` of the segment between two points. A vertical segment has the value of its
second point. -/
def onSegment (x x₁ y₁ x₂ y₂ : α) : α :=
  if x₂ == x₁ then y₂ else y₁ + (x - x₁) * (y₂ - y₁) / (x₂ - x₁)

/-- The value at `x` of the line through the points, from the first point on. -/
def fromFirst? (x : α) : List (α × α) → Option α
  | [] => none
  | [(x₁, y₁)] => if x₁ ≤ x then some y₁ else none
  | (x₁, y₁) :: (x₂, y₂) :: rest =>
    if x₁ ≤ x ∧ x ≤ x₂ then some (onSegment x x₁ y₁ x₂ y₂)
    else fromFirst? x ((x₂, y₂) :: rest)

/-- The value at `x` of the line through the points. There is none without points, and none for an
`x` that does not compare. -/
def interpolate? (x : α) : List (α × α) → Option α
  | [] => none
  | (x₁, y₁) :: rest => if x < x₁ then some y₁ else fromFirst? x ((x₁, y₁) :: rest)

/-- The value at `x` of the line through the points, or `nan` where there is none. -/
def interpolate (x : α) (points : List (α × α)) : α :=
  (interpolate? x points).getD Scalar.nan

end FuzzyInference.Numeric
