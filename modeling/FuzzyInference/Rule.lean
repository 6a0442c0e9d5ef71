import FuzzyInference.Condition

/-!
# Rules

If a condition holds, then an output variable is a value. What keys and values of output
variables are depends on the kind of system.
-/

namespace FuzzyInference

/-- "The output variable is the value." -/
structure Conclusion (ω ν : Type) where
  subject : ω
  value : ν
deriving DecidableEq

/-- A condition and what follows from it. -/
structure Rule (ω ν : Type) where
  condition : Condition
  conclusion : Conclusion ω ν

end FuzzyInference
