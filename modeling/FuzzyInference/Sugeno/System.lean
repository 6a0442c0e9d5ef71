import FuzzyInference.RuleText.Sentence
import FuzzyInference.Sugeno.LinearFunction

/-!
# Sugeno systems

The outputs of a Sugeno system have functions of the inputs where linguistic variables have
terms. A rule concludes a function of an output. The number for an output is the mean of the
values of the functions concluded for it, each weighted by the truth of its rule.

Outputs and functions are in tables of their own, but the names of inputs and outputs are
distinct all the same.
-/

namespace FuzzyInference.Sugeno

variable {α : Type}

/-- An output variable. -/
structure OutputVariable where
  name : String
  functions : List FunctionKey := []

/-- A named function of an output variable. -/
structure OutputFunction (α : Type) where
  name : String
  owner : OutputKey
  function : LinearFunction α

/-- A rule of a Sugeno system. -/
abbrev Rule := FuzzyInference.Rule OutputKey FunctionKey

/-- A system whose rules conclude functions. -/
structure System (α : Type) where
  inputSide : InputSide α := {}
  outputs : Registry .outputs OutputVariable := {}
  functions : Registry .functions (OutputFunction α) := {}
  rules : List Rule := []

namespace System

/-! ## Settings -/

/-- The methods in force. -/
def settings (s : System α) : Connectives := s.inputSide.connectives

/-- Puts methods in force. -/
def configure (s : System α) (settings : Connectives) : System α :=
  { s with inputSide := { s.inputSide with connectives := settings } }

/-- A system without variables and rules. -/
def ofSettings (settings : Connectives) : System α := configure {} settings

/-! ## Looking up -/

/-- The output variable of a key. -/
def outputAt? (s : System α) (key : OutputKey) : Option OutputVariable :=
  s.outputs.get? key

/-- The function of a key. -/
def functionAt? (s : System α) (key : FunctionKey) : Option (OutputFunction α) :=
  s.functions.get? key

/-- The key of the output variable with a name. -/
def outputKey? (s : System α) (name : String) : Option OutputKey :=
  s.outputs.findKey? fun o => o.name = name

/-- The output variable with a name. -/
def outputByName (s : System α) (name : String) : Except (Error α) OutputKey :=
  match s.outputKey? name with
  | some key => .ok key
  | none => .error (.variableNotFound name)

/-- The functions of an output variable in the order in which they were added. -/
def functionsOf (s : System α) (key : OutputKey) : List (FunctionKey × OutputFunction α) :=
  match s.outputAt? key with
  | none => []
  | some o => o.functions.filterMap fun k => (s.functionAt? k).map fun f => (k, f)

/-- The function of an output variable with a name. -/
def functionByName (s : System α) (key : OutputKey) (name : String) :
    Except (Error α) FunctionKey :=
  match s.outputAt? key with
  | none => .error (.foreignVariable key.description)
  | some o =>
    match (s.functionsOf key).find? fun (_, f) => f.name = name with
    | some (k, _) => .ok k
    | none => .error (.functionNotFound o.name name)

/-- Whether a function exists and belongs to the output variable. -/
def owns (s : System α) (key : OutputKey) (function : FunctionKey) : Bool :=
  (s.functionAt? function).any fun f => f.owner = key

/-- The names of the output variables and of their functions. -/
def vocabularies (s : System α) : List (RuleText.Vocabulary OutputKey FunctionKey) :=
  s.outputs.toList.map fun (key, o) =>
    { name := o.name, key, values := (s.functionsOf key).map fun (k, f) => (f.name, k) }

/-! ## Variables, terms and functions -/

/-- Adds an input variable. No output may have the same name. -/
def addInput [Scalar α] (s : System α) (name : String) (min max : α) :
    Except (Error α) (VariableKey × System α) :=
  if (s.outputKey? name).isSome then .error (.duplicateName name)
  else do
    let (key, inputSide) ← s.inputSide.addInput name min max
    .ok (key, { s with inputSide })

/-- Adds a term to an input. -/
def addTerm (s : System α) (key : VariableKey) (name : String) (membership : α → α) :
    Except (Error α) (TermKey × System α) := do
  let (term, inputSide) ← s.inputSide.addTerm key name membership
  .ok (term, { s with inputSide })

/-- Adds an output variable without functions. No input may have the same name. -/
def addOutput (s : System α) (name : String) : Except (Error α) (OutputKey × System α) := do
  Name.check name
  if (s.inputSide.table.keyOf? name).isSome || (s.outputKey? name).isSome then
    .error (.duplicateName name)
  else .ok (s.outputs.nextKey, { s with outputs := s.outputs.push { name } })

/-- Refuses a variable that is not an input. -/
def checkInput (s : System α) (key : VariableKey) : Except (Error α) Unit :=
  if s.inputSide.isInput key then .ok ()
  else .error (.foreignVariable (s.inputSide.table.nameOf key))

/-- The linear function with the given coefficients, which must be for inputs. The last
coefficient for an input counts. -/
def linearFunction (s : System α) (coefficients : List (VariableKey × α)) (constant : α) :
    Except (Error α) (LinearFunction α) := do
  coefficients.forM fun (key, _) => s.checkInput key
  .ok ⟨OrderedMap.ofList coefficients, constant⟩

/-- The linear function with one coefficient for each input, in their order, followed by the
constant, which is zero if it is left out. -/
def linearFunctionOfList [Scalar α] (s : System α) (values : List α) :
    Except (Error α) (LinearFunction α) :=
  let inputs := s.inputSide.inputs
  let coefficients := OrderedMap.ofList (inputs.zip values)
  match values.drop inputs.length with
  | [] =>
    if values.length = inputs.length then .ok ⟨coefficients, 0⟩
    else .error (.coefficientCount inputs.length values.length)
  | [constant] => .ok ⟨coefficients, constant⟩
  | _ => .error (.coefficientCount inputs.length values.length)

/-- Adds a function to an output variable. -/
def addFunction (s : System α) (key : OutputKey) (name : String) (function : LinearFunction α) :
    Except (Error α) (FunctionKey × System α) := do
  Name.check name
  match s.outputAt? key with
  | none => .error (.foreignVariable key.description)
  | some o =>
    if (s.functionsOf key).any fun (_, f) => f.name = name then
      .error (.duplicateName s!"{o.name}.{name}")
    else
      let k := s.functions.nextKey
      .ok (k,
        { s with
          outputs := s.outputs.modify key fun o => { o with functions := o.functions ++ [k] }
          functions := s.functions.push { name, owner := key, function } })

/-! ## Rules -/

/-- Refuses a conclusion unless it is about an output and one of its own functions. -/
def checkConclusion (s : System α) (c : Conclusion OutputKey FunctionKey) : Except (Error α) Unit :=
  match s.outputAt? c.subject with
  | none => .error (.foreignVariable c.subject.description)
  | some o => if s.owns c.subject c.value then .ok () else .error (.foreignTerm o.name)

/-- Refuses a rule that mentions anything the system does not have. -/
def checkRule (s : System α) (rule : Rule) : Except (Error α) Unit := do
  s.inputSide.checkCondition rule.condition
  s.checkConclusion rule.conclusion

/-- The rule "if the condition holds, then the output is the function". -/
def rule (s : System α) (condition : Condition) (output : OutputKey) (function : FunctionKey) :
    Except (Error α) Rule := do
  let rule : Rule := { condition, conclusion := ⟨output, function⟩ }
  s.checkRule rule
  .ok rule

/-- The rule that a text states in the names of the system. -/
def readRule (s : System α) (text : String) : Except (Error α) Rule :=
  match RuleText.read (s.inputSide.table.vocabularies s.inputSide.inputs) s.vocabularies text with
  | .ok rule => .ok rule
  | .error e => .error (.ruleText e)

/-- Adds a rule after those there are. -/
def addRule (s : System α) (rule : Rule) : Except (Error α) (System α) := do
  s.checkRule rule
  .ok { s with rules := s.rules ++ [rule] }

/-! ## Calculation -/

variable [Scalar α]

/-- The truth of every rule. -/
def truths (s : System α) (fuzzified : Fuzzified α) : Except (Error α) (List α) :=
  s.inputSide.truths fuzzified (s.rules.map (·.condition))

/-- The value of every function. -/
def functionValues (s : System α) (readings : Readings α) : OrderedMap FunctionKey α :=
  ⟨s.functions.toList.map fun (key, f) => (key, f.function.evaluate readings)⟩

/-- Weighted sums for the outputs, and the sums of the weights. -/
abbrev Sums (α : Type) := OrderedMap OutputKey (α × α)

/-- Counts one rule in the sums of the output that it concludes. -/
def count (values : OrderedMap FunctionKey α) (sums : Sums α) (rule : Rule) (truth : α) :
    Except (Error α) (Sums α) :=
  match values.get? rule.conclusion.value, sums.get? rule.conclusion.subject with
  | some value, some (weighted, weight) =>
    .ok (sums.insert rule.conclusion.subject (weighted + truth * value, weight + truth))
  | _, _ => .error .brokenReference

/-- The weighted mean, and zero if there is no weight. -/
def mean (sums : α × α) : α := if sums.2 == 0 then 0 else sums.1 / sums.2

/-- The weighted mean for each output of the functions concluded for it. -/
def combine (s : System α) (truths : List α) (values : OrderedMap FunctionKey α) :
    Except (Error α) (OrderedMap OutputKey α) := do
  let start : Sums α := ⟨s.outputs.keys.map fun key => (key, (0, 0))⟩
  let sums ← (s.rules.zip truths).foldlM
    (fun sums (rule, truth) => count values sums rule truth) start
  .ok (sums.map mean)

/-- Numbers for the outputs from numbers for the inputs. -/
def calculate (s : System α) (readings : Readings α) :
    Except (Error α) (OrderedMap OutputKey α) :=
  if s.rules.isEmpty then .error .noRules
  else do
    let fuzzified ← s.inputSide.fuzzify readings
    let truths ← s.truths fuzzified
    s.combine truths (s.functionValues readings)

end System

end FuzzyInference.Sugeno
