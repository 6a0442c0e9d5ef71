import FuzzyInference.Mamdani.System

/-!
# Settings as documents

The methods of a system can be given by name in a document: an object with a member for each
method, or a list of methods in a fixed order. A method that is left out has its default. A
method is named by a text, or by an object whose only member has that name and no value.
-/

namespace FuzzyInference

/-- A document, as far as settings look into it. -/
inductive Document where
  | null
  | text (value : String)
  | list (items : List Document)
  | fields (members : List (String × Document))
  /-- A number or a truth value, which settings never are. -/
  | other

namespace Document

/-- The one of some things that a document names. -/
def choose? {μ : Type} (all : List μ) (name : μ → String) : Document → Option μ
  | .text value => all.find? fun m => name m = value
  | .fields [(member, .null)] => all.find? fun m => name m = member
  | _ => none

/-- The members of an object. The items of a list are members whose names are understood. -/
def members? (names : List String) : Document → Option (List (String × Document))
  | .fields members => some members
  | .list items => if items.length ≤ names.length then some (names.zip items) else none
  | _ => none

/-- What a member says, or the default if there is no such member. -/
def member? {μ : Type} (read : Document → Option μ) (members : List (String × Document))
    (name : String) (default : μ) : Option μ :=
  match members.lookup name with
  | none => some default
  | some d => read d

end Document

namespace CompositionMethod

/-- The name of a composition. -/
def name : CompositionMethod → String
  | .min => "min"
  | .max => "max"
  | .prod => "prod"
  | .sum => "sum"

/-- The composition that a document names. -/
def ofDocument? : Document → Option CompositionMethod :=
  Document.choose? [.min, .max, .prod, .sum] name

end CompositionMethod

namespace AndMethod

/-- The name of a method for `and`. -/
def name : AndMethod → String
  | .min => "min"
  | .prod => "prod"

/-- The method for `and` that a document names. -/
def ofDocument? : Document → Option AndMethod := Document.choose? [.min, .prod] name

end AndMethod

namespace OrMethod

/-- The name of a method for `or`. -/
def name : OrMethod → String
  | .max => "max"
  | .probOr => "prob_or"

/-- The method for `or` that a document names. -/
def ofDocument? : Document → Option OrMethod := Document.choose? [.max, .probOr] name

end OrMethod

namespace ImplicationMethod

/-- The name of an implication. -/
def name : ImplicationMethod → String
  | .min => "min"
  | .prod => "prod"

/-- The implication that a document names. -/
def ofDocument? : Document → Option ImplicationMethod := Document.choose? [.min, .prod] name

end ImplicationMethod

namespace AggregationMethod

/-- The name of an aggregation. -/
def name : AggregationMethod → String
  | .max => "max"
  | .sum => "sum"

/-- The aggregation that a document names. -/
def ofDocument? : Document → Option AggregationMethod := Document.choose? [.max, .sum] name

end AggregationMethod

namespace DefuzzificationMethod

/-- The name of a defuzzification. -/
def name : DefuzzificationMethod → String
  | .centroid => "cog"
  | .bisector => "boa"
  | .meanOfMaxima => "mom"

/-- The defuzzification that a document names. -/
def ofDocument? : Document → Option DefuzzificationMethod :=
  Document.choose? [.centroid, .bisector, .meanOfMaxima] name

end DefuzzificationMethod

/-! ## Objects and lists of methods -/

namespace Connectives

/-- The methods for `and` and `or` among the members of an object. -/
def ofMembers? (members : List (String × Document)) : Option Connectives := do
  let default : Connectives := {}
  let andMethod ← Document.member? AndMethod.ofDocument? members "and" default.andMethod
  let orMethod ← Document.member? OrMethod.ofDocument? members "or" default.orMethod
  some { andMethod, orMethod }

/-- The methods that a document of a system without other methods names. -/
def ofDocument? (d : Document) : Option Connectives := do
  ofMembers? (← d.members? ["and", "or"])

end Connectives

namespace Mamdani.Settings

/-- The methods that a document of a Mamdani system names. -/
def ofDocument? (d : Document) : Option Settings := do
  let members ← d.members? ["and", "or", "implication", "aggregation", "defuzzification"]
  let default : Settings := {}
  let connectives ← Connectives.ofMembers? members
  let implication ←
    Document.member? ImplicationMethod.ofDocument? members "implication" default.implication
  let aggregation ←
    Document.member? AggregationMethod.ofDocument? members "aggregation" default.aggregation
  let defuzzification ←
    Document.member? DefuzzificationMethod.ofDocument? members "defuzzification"
      default.defuzzification
  some { connectives with implication, aggregation, defuzzification }

end Mamdani.Settings

end FuzzyInference
