import FuzzyInference.Defuzzification
import FuzzyInference.InputSide
import FuzzyInference.Membership.Composite
import FuzzyInference.RuleText.Sentence

/-!
# Mamdani systems

Inputs and outputs of a Mamdani system are linguistic variables alike. A rule concludes a term
of an output.

A calculation goes through stages. The truth of each rule limits the membership of the term
that it concludes; the limited memberships for one output are merged; the merged membership is
reduced to one number within the domain of the output.
-/

namespace FuzzyInference.Mamdani

variable {α : Type}

/-- A rule of a Mamdani system. Its weight is carried along and does not enter a calculation. -/
structure Rule (α : Type) extends FuzzyInference.Rule VariableKey TermKey where
  weight : α

/-- The methods of a Mamdani system. -/
structure Settings extends Connectives where
  implication : ImplicationMethod := .min
  aggregation : AggregationMethod := .max
  defuzzification : DefuzzificationMethod := .centroid
deriving DecidableEq

/-- A system whose rules conclude terms. -/
structure System (α : Type) where
  inputSide : InputSide α := {}
  outputs : List VariableKey := []
  rules : List (Rule α) := []
  implication : ImplicationMethod := .min
  aggregation : AggregationMethod := .max
  defuzzification : DefuzzificationMethod := .centroid

namespace System

/-! ## Settings -/

/-- The methods in force. -/
def settings (s : System α) : Settings where
  toConnectives := s.inputSide.connectives
  implication := s.implication
  aggregation := s.aggregation
  defuzzification := s.defuzzification

/-- Puts methods in force. -/
def configure (s : System α) (settings : Settings) : System α :=
  { s with
    inputSide := { s.inputSide with connectives := settings.toConnectives }
    implication := settings.implication
    aggregation := settings.aggregation
    defuzzification := settings.defuzzification }

/-- A system without variables and rules. -/
def ofSettings (settings : Settings) : System α := configure {} settings

/-! ## Variables and terms -/

/-- The variables and terms of the system, inputs and outputs alike. -/
def table (s : System α) : VariableTable α := s.inputSide.table

/-- Adds an input variable. -/
def addInput [Scalar α] (s : System α) (name : String) (min max : α) :
    Except (Error α) (VariableKey × System α) := do
  let (key, inputSide) ← s.inputSide.addInput name min max
  .ok (key, { s with inputSide })

/-- Adds an output variable. No input may have the same name. -/
def addOutput [Scalar α] (s : System α) (name : String) (min max : α) :
    Except (Error α) (VariableKey × System α) := do
  let (key, table) ← s.table.add name min max
  .ok (key, { s with inputSide := { s.inputSide with table }, outputs := s.outputs ++ [key] })

/-- Adds a term to an input or an output. -/
def addTerm (s : System α) (key : VariableKey) (name : String) (membership : α → α) :
    Except (Error α) (TermKey × System α) := do
  let (term, inputSide) ← s.inputSide.addTerm key name membership
  .ok (term, { s with inputSide })

/-- The output variable with a name. -/
def outputByName (s : System α) (name : String) : Except (Error α) VariableKey :=
  s.table.keyAmong s.outputs name

/-! ## Rules -/

/-- Whether a variable is an output. -/
def isOutput (s : System α) (key : VariableKey) : Bool := s.outputs.contains key

/-- Refuses a conclusion unless it is about an output and one of its own terms. -/
def checkConclusion (s : System α) (c : Conclusion VariableKey TermKey) : Except (Error α) Unit :=
  if !s.isOutput c.subject then .error (.foreignVariable (s.table.nameOf c.subject))
  else if !s.table.owns c.subject c.value then .error (.foreignTerm (s.table.nameOf c.subject))
  else .ok ()

/-- Refuses a rule that mentions anything the system does not have. -/
def checkRule (s : System α) (rule : Rule α) : Except (Error α) Unit := do
  s.inputSide.checkCondition rule.condition
  s.checkConclusion rule.conclusion

/-- The rule "if the condition holds, then the output is the term". -/
def rule [Scalar α] (s : System α) (condition : Condition) (output : VariableKey) (term : TermKey) :
    Except (Error α) (Rule α) := do
  let rule : Rule α := { condition, conclusion := ⟨output, term⟩, weight := 1 }
  s.checkRule rule
  .ok rule

/-- The rule that a text states in the names of the system. -/
def readRule [Scalar α] (s : System α) (text : String) : Except (Error α) (Rule α) :=
  let inputs := s.table.vocabularies s.inputSide.inputs
  let outputs := s.table.vocabularies s.outputs
  match RuleText.read inputs outputs text with
  | .ok rule => .ok { rule with weight := 1 }
  | .error e => .error (.ruleText e)

/-- Adds a rule after those there are. -/
def addRule (s : System α) (rule : Rule α) : Except (Error α) (System α) := do
  s.checkRule rule
  .ok { s with rules := s.rules ++ [rule] }

/-! ## Calculation -/

variable [Scalar α]

/-- The truth of every rule. -/
def truths (s : System α) (fuzzified : Fuzzified α) : Except (Error α) (List α) :=
  s.inputSide.truths fuzzified (s.rules.map (·.condition))

/-- The term that a rule concludes, limited by the truth of the rule. -/
def limit (s : System α) (rule : Rule α) (truth : α) : Except (Error α) (Composite α) :=
  match s.table.termAt? rule.conclusion.value with
  | none => .error .brokenReference
  | some term => .ok ⟨s.implication.composition, [fun _ => truth, term.membership]⟩

/-- The limited term of every rule that has a truth. -/
def implicate (s : System α) (truths : List α) : Except (Error α) (List (Composite α)) :=
  (s.rules.zip truths).mapM fun (rule, truth) => s.limit rule truth

/-- The limited terms for each output, merged. An output that no rule concludes has none. -/
def aggregate (s : System α) (implicated : List (Composite α)) :
    OrderedMap VariableKey (Composite α) :=
  let empty : Composite α := { method := s.aggregation.composition }
  (s.rules.zip implicated).foldl
    (fun merged (rule, limited) => merged.modify rule.conclusion.subject (·.push limited.value))
    (OrderedMap.ofList (s.outputs.map fun key => (key, empty)))

/-- The number that an output gets from its merged membership. -/
def crisp (s : System α) (key : VariableKey) (merged : Composite α) : Except (Error α) α :=
  match s.table.variableAt? key with
  | none => .error .brokenReference
  | some v => s.defuzzification.apply merged.value v.min v.max

/-- A number for each output. -/
def defuzzify (s : System α) (aggregated : OrderedMap VariableKey (Composite α)) :
    Except (Error α) (OrderedMap VariableKey α) := do
  let numbers ← aggregated.toList.mapM fun (key, merged) => do .ok (key, ← s.crisp key merged)
  .ok ⟨numbers⟩

/-- Numbers for the outputs from numbers for the inputs. -/
def calculate (s : System α) (readings : Readings α) :
    Except (Error α) (OrderedMap VariableKey α) :=
  if s.rules.isEmpty then .error .noRules
  else do
    let fuzzified ← s.inputSide.fuzzify readings
    let truths ← s.truths fuzzified
    let implicated ← s.implicate truths
    s.defuzzify (s.aggregate implicated)

end System

end FuzzyInference.Mamdani
