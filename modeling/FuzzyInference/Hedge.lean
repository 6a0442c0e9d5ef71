import FuzzyInference.Scalar

/-!
# Hedges

A hedge reshapes a degree of membership: two of them raise degrees between zero and one, two
of them lower them.
-/

namespace FuzzyInference

/-- A word that strengthens or weakens a term. -/
inductive Hedge where
  | slightly
  | somewhat
  | very
  | extremely
deriving DecidableEq

namespace Hedge

variable {α : Type} [Scalar α]

/-- Cube root, square root, square and cube. -/
def apply : Hedge → α → α
  | .slightly, v => Scalar.cbrt v
  | .somewhat, v => Scalar.sqrt v
  | .very, v => v * v
  | .extremely, v => v * v * v

/-- Without a hedge a degree stays as it is. -/
def applyTo (hedge : Option Hedge) (v : α) : α :=
  match hedge with
  | none => v
  | some h => h.apply v

/-- The word for a hedge in a rule. -/
def word : Hedge → String
  | .slightly => "slightly"
  | .somewhat => "somewhat"
  | .very => "very"
  | .extremely => "extremely"

/-- The hedge a word stands for. -/
def ofWord? : String → Option Hedge
  | "slightly" => some .slightly
  | "somewhat" => some .somewhat
  | "very" => some .very
  | "extremely" => some .extremely
  | _ => none

end Hedge

end FuzzyInference
