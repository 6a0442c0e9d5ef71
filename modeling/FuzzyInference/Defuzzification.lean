import FuzzyInference.Error
import FuzzyInference.Numeric.Simpson

/-!
# Defuzzification

A membership over an interval is reduced to one number of that interval.
-/

namespace FuzzyInference

variable {α : Type} [Scalar α]

/-- The number of parts into which the interval is split for the center of gravity. -/
def centroidParts : Nat := 50

/-- The center of gravity of the area under a membership function. An area of zero has none, and
the quotient then is what division by zero gives. -/
def centerOfGravity (membership : α → α) (min max : α) : α :=
  Numeric.simpson (fun x => x * membership x) min max centroidParts
    / Numeric.simpson membership min max centroidParts

/-- Reduces a membership to a number. Only the center of gravity is available. -/
def DefuzzificationMethod.apply (method : DefuzzificationMethod) (membership : α → α)
    (min max : α) : Except (Error α) α :=
  match method with
  | .centroid => .ok (centerOfGravity membership min max)
  | .bisector => .error (.unsupportedDefuzzification .bisector)
  | .meanOfMaxima => .error (.unsupportedDefuzzification .meanOfMaxima)

end FuzzyInference
