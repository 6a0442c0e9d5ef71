/-!
# Numbers of a fuzzy system

Every definition of this library works over any type that carries the operations
listed here. Nothing is assumed about them: no law of arithmetic, no order law. So
the same inference can be run on machine numbers and read over exact ones.

`lesser` and `greater` are operations of their own, because what they answer for
numbers that do not compare differs between kinds of numbers.
-/

namespace FuzzyInference

/-- The operations that fuzzy inference performs on numbers. -/
class Scalar (α : Type) extends Add α, Sub α, Mul α, Div α, Neg α, LE α, LT α, BEq α where
  /-- Comparisons decide. -/
  decidableLE : DecidableLE α
  /-- Strict comparisons decide. -/
  decidableLT : DecidableLT α
  /-- The number with the value of a natural number. -/
  ofNat : Nat → α
  /-- The answer where there is no answer. -/
  nan : α
  /-- The smaller of two comparable numbers. -/
  lesser : α → α → α
  /-- The larger of two comparable numbers. -/
  greater : α → α → α
  /-- Square root. -/
  sqrt : α → α
  /-- Cube root, as the power one third. -/
  cbrt : α → α
  /-- The exponential function. -/
  exp : α → α

namespace Scalar

attribute [reducible, instance] Scalar.decidableLE Scalar.decidableLT

/-- Numerals stand for the numbers of the same value. -/
instance (priority := low) numeral {α : Type} [Scalar α] (n : Nat) : OfNat α n := ⟨Scalar.ofNat n⟩

/-- Whether a number differs from itself, as only "no answer" does. -/
def isNaN {α : Type} [Scalar α] (v : α) : Bool := !(v == v)

/-- Numbers added up from left to right. The sum of none is the zero that changes no number added
to it, which among numbers with two zeros is the negative one. -/
def sum {α : Type} [Scalar α] (vs : List α) : α := vs.foldl (· + ·) (-0)

end Scalar

/-- Double precision numbers. Of two equal numbers `lesser` and `greater` keep the second, which
tells the two zeros apart. -/
instance : Scalar Float where
  decidableLE := inferInstance
  decidableLT := inferInstance
  ofNat := Float.ofNat
  nan := 0.0 / 0.0
  lesser u v := if u < v then u else v
  greater u v := if v < u then u else v
  sqrt := Float.sqrt
  cbrt v := Float.pow v (1.0 / 3.0)
  exp := Float.exp

end FuzzyInference
