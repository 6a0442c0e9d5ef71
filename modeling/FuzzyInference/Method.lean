import FuzzyInference.Scalar

/-!
# Methods

The choices a system makes: how `and` and `or` join degrees, how a rule's truth limits its
conclusion, how the conclusions for one output are merged, and how the result becomes a
number.
-/

namespace FuzzyInference

/-- How a list of degrees is folded into one. -/
inductive CompositionMethod where
  | min
  | max
  | prod
  | sum
deriving DecidableEq

/-- How `and` joins two degrees. -/
inductive AndMethod where
  | min
  | prod
deriving DecidableEq

/-- How `or` joins two degrees: the larger, or the sum less the product. -/
inductive OrMethod where
  | max
  | probOr
deriving DecidableEq

/-- How the truth of a rule limits the term it concludes: by cutting it off or by scaling it. -/
inductive ImplicationMethod where
  | min
  | prod
deriving DecidableEq

/-- How the limited terms for one output are merged. -/
inductive AggregationMethod where
  | max
  | sum
deriving DecidableEq

/-- How a merged membership becomes a number. -/
inductive DefuzzificationMethod where
  /-- The first coordinate of the center of gravity. -/
  | centroid
  /-- The number that halves the area. -/
  | bisector
  /-- The mean of the numbers of largest membership. -/
  | meanOfMaxima
deriving DecidableEq

variable {α : Type} [Scalar α]

/-- Folds two degrees. The smaller and the larger of two degrees are no answer if one of them is
none. -/
def CompositionMethod.apply (method : CompositionMethod) (u v : α) : α :=
  match method with
  | .min => if Scalar.isNaN u || Scalar.isNaN v then Scalar.nan else Scalar.lesser u v
  | .max => if Scalar.isNaN u || Scalar.isNaN v then Scalar.nan else Scalar.greater u v
  | .prod => u * v
  | .sum => u + v

/-- Joins two degrees by `and`. -/
def AndMethod.apply (method : AndMethod) (u v : α) : α :=
  match method with
  | .min => CompositionMethod.min.apply u v
  | .prod => CompositionMethod.prod.apply u v

/-- Joins two degrees by `or`. -/
def OrMethod.apply (method : OrMethod) (u v : α) : α :=
  match method with
  | .max => CompositionMethod.max.apply u v
  | .probOr => u + v - u * v

/-- The composition of a truth with the term it limits. -/
def ImplicationMethod.composition : ImplicationMethod → CompositionMethod
  | .min => .min
  | .prod => .prod

/-- The composition of the limited terms for one output. -/
def AggregationMethod.composition : AggregationMethod → CompositionMethod
  | .max => .max
  | .sum => .sum

/-- The methods for `and` and `or`. -/
structure Connectives where
  andMethod : AndMethod := .min
  orMethod : OrMethod := .max
deriving DecidableEq

end FuzzyInference
