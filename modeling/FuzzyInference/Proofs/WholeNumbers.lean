import FuzzyInference.Scalar

/-!
# Whole numbers

Systems can be computed with whole numbers, on which comparisons decide by
evaluation. Sums and comparisons are exact. Roots and the exponential function
have no whole values in general and answer their argument; only degrees of
membership would need them.
-/

namespace FuzzyInference.WholeNumbers

scoped instance : Scalar Int where
  decidableLE := inferInstance
  decidableLT := inferInstance
  ofNat := Int.ofNat
  nan := 0
  lesser := min
  greater := max
  sqrt := id
  cbrt := id
  exp := id

end FuzzyInference.WholeNumbers
