import FuzzyInference.Keyword
import FuzzyInference.Text.Alphanumeric

/-!
# Names

Variables, terms and functions have names that a rule can mention: words of letters, digits
and `_` that mean nothing else in a rule.
-/

namespace FuzzyInference.Name

/-- The words of the rule language. -/
def reserved : List String := Keyword.all.map Keyword.word

/-- Whether a text can be a name. -/
def isValid (name : String) : Bool :=
  name ≠ "" && name.toList.all (fun c => Text.isAlphanumeric c || c = '_') && name ∉ reserved

/-- Refuses a text that cannot be a name. -/
def check {α : Type} (name : String) : Except (Error α) Unit :=
  if isValid name then .ok () else .error (.invalidName name)

end FuzzyInference.Name
