import FuzzyInference.Method

/-!
# Composite membership

Several membership functions folded into one, degree by degree.
-/

namespace FuzzyInference

variable {α : Type} [Scalar α]

/-- Membership functions and the way in which they are folded. -/
structure Composite (α : Type) where
  method : CompositionMethod
  functions : List (α → α) := []

namespace Composite

/-- The degrees folded from left to right, and zero if there are none. -/
def value (c : Composite α) (x : α) : α :=
  match c.functions.map fun f => f x with
  | [] => 0
  | first :: rest => rest.foldl c.method.apply first

/-- One function more, folded in last. -/
def push (c : Composite α) (f : α → α) : Composite α := { c with functions := c.functions ++ [f] }

end Composite

end FuzzyInference
