import FuzzyInference.InputSide

/-!
# Linear functions of the inputs
-/

namespace FuzzyInference.Sugeno

variable {α : Type}

/-- A coefficient for some variables and a constant. -/
structure LinearFunction (α : Type) where
  coefficients : OrderedMap VariableKey α
  constant : α

namespace LinearFunction

variable [Scalar α]

/-- The coefficient of a variable, which is zero unless it is given. -/
def coefficient (f : LinearFunction α) (key : VariableKey) : α := (f.coefficients.get? key).getD 0

/-- The sum of the products of coefficients and readings, and the constant. A variable without a
reading counts as zero. -/
def evaluate (f : LinearFunction α) (readings : Readings α) : α :=
  Scalar.sum (f.coefficients.toList.map fun (key, c) => c * (readings.get? key).getD 0) + f.constant

end LinearFunction

end FuzzyInference.Sugeno
