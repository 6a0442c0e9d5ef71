import FuzzyInference.OrderedMap
import FuzzyInference.RuleText.Lexicon
import FuzzyInference.VariableTable

/-!
# The input side of a system

Systems differ in what their rules conclude, but not in how conditions are evaluated. This part
of a system holds its variables, says which of them are inputs, and fixes the methods for
`and` and `or`.

Numbers for the inputs are turned into degrees, one for each term of each input; the degrees
make every condition about the inputs true to some degree.
-/

namespace FuzzyInference

/-- Numbers for variables. -/
abbrev Readings (α : Type) := OrderedMap VariableKey α

/-- Degrees of membership, one for each term of each input. -/
abbrev Fuzzified (α : Type) := OrderedMap (VariableKey × TermKey) α

/-- Variables, the inputs among them, and the methods for `and` and `or`. -/
structure InputSide (α : Type) where
  table : VariableTable α := {}
  inputs : List VariableKey := []
  connectives : Connectives := {}

variable {α : Type}

/-- The names of some variables and of their terms. -/
def VariableTable.vocabularies (t : VariableTable α) (keys : List VariableKey) :
    List (RuleText.Vocabulary VariableKey TermKey) :=
  keys.map fun key =>
    { name := match t.variableAt? key with
        | some v => v.name
        | none => ""
      key
      values := (t.termsOf key).map fun (k, term) => (term.name, k) }

namespace InputSide

/-! ## Inputs -/

/-- Adds an input variable. -/
def addInput [Scalar α] (s : InputSide α) (name : String) (min max : α) :
    Except (Error α) (VariableKey × InputSide α) := do
  let (key, table) ← s.table.add name min max
  .ok (key, { s with table, inputs := s.inputs ++ [key] })

/-- Adds a term to a variable. -/
def addTerm (s : InputSide α) (key : VariableKey) (name : String) (membership : α → α) :
    Except (Error α) (TermKey × InputSide α) := do
  let (term, table) ← s.table.addTerm key name membership
  .ok (term, { s with table })

/-- The input variable with a name. -/
def inputByName (s : InputSide α) (name : String) : Except (Error α) VariableKey :=
  s.table.keyAmong s.inputs name

/-- Whether a variable is an input. -/
def isInput (s : InputSide α) (key : VariableKey) : Bool := key ∈ s.inputs

/-! ## Conditions -/

/-- Refuses a proposition unless it is about an input and one of its own terms. -/
def checkProposition (s : InputSide α) (p : Proposition) : Except (Error α) Unit :=
  if !s.isInput p.subject then .error (.foreignVariable (s.table.nameOf p.subject))
  else if !s.table.owns p.subject p.term then .error (.foreignTerm (s.table.nameOf p.subject))
  else .ok ()

/-- Refuses a condition unless all its propositions are about inputs and their own terms. -/
def checkCondition (s : InputSide α) (c : Condition) : Except (Error α) Unit :=
  c.propositions.forM s.checkProposition

variable [Scalar α]

/-- Refuses a reading that is missing or outside of the domain of its variable. -/
def checkReading (s : InputSide α) (readings : Readings α) (key : VariableKey) :
    Except (Error α) Unit :=
  match s.table.variableAt? key, readings.get? key with
  | none, _ => .error .brokenReference
  | some v, none => .error (.missingInput v.name)
  | some v, some x =>
    if v.contains x then .ok () else .error (.inputOutOfRange v.name x v.min v.max)

/-- Refuses readings unless they are for exactly the inputs, each within its domain. -/
def checkReadings (s : InputSide α) (readings : Readings α) : Except (Error α) Unit :=
  if readings.size ≠ s.inputs.length then .error (.inputCount s.inputs.length readings.size)
  else s.inputs.forM (s.checkReading readings)

/-- The degrees of the terms of one input. -/
def fuzzifyInput (s : InputSide α) (readings : Readings α) (key : VariableKey) :
    Except (Error α) (List ((VariableKey × TermKey) × α)) :=
  match readings.get? key with
  | none => .error .brokenReference
  | some x => .ok ((s.table.termsOf key).map fun (k, term) => ((key, k), term.membership x))

/-- The degrees of the terms of all inputs. -/
def fuzzify (s : InputSide α) (readings : Readings α) : Except (Error α) (Fuzzified α) := do
  s.checkReadings readings
  let degrees ← s.inputs.mapM (s.fuzzifyInput readings)
  .ok (OrderedMap.ofList degrees.flatten)

/-- The degree to which a condition holds. Every term that it mentions must have a degree. -/
def evaluate (s : InputSide α) (fuzzified : Fuzzified α) (c : Condition) : Except (Error α) α :=
  match c.propositions.find? fun p => !fuzzified.contains (p.subject, p.term) with
  | some p => .error (.foreignTerm (s.table.nameOf p.subject))
  | none =>
    .ok (c.evaluate s.connectives fun p => (fuzzified.get? (p.subject, p.term)).getD Scalar.nan)

/-- The degrees to which conditions hold. -/
def truths (s : InputSide α) (fuzzified : Fuzzified α) (conditions : List Condition) :
    Except (Error α) (List α) :=
  conditions.mapM (s.evaluate fuzzified)

end InputSide

end FuzzyInference
