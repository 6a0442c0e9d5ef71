import FuzzyInference.Error
import FuzzyInference.Decimal.Layout

/-!
# The wording of refusals
-/

namespace FuzzyInference

/-- A number within a sentence is written out in full, without an exponent; a whole number has no
point. -/
def amountLayout : Decimal.Layout := ⟨fun _ => true, ""⟩

/-- A number in a list shows that it need not be whole, and has an exponent if it is nearer to
zero than `0.0001` or has more than sixteen digits before the point. -/
def listedLayout : Decimal.Layout := ⟨fun power => -4 ≤ power && power < 16, ".0"⟩

/-- A number within a sentence. -/
def amount (v : Float) : String := Decimal.text amountLayout v

/-- A list of numbers in brackets. -/
def amounts (vs : List Float) : String :=
  "[" ++ ", ".intercalate (vs.map (Decimal.text listedLayout)) ++ "]"

/-- The name of a method in messages. -/
def DefuzzificationMethod.title : DefuzzificationMethod → String
  | .centroid => "Cog"
  | .bisector => "Boa"
  | .meanOfMaxima => "Mom"

namespace RuleTextError

/-- What is said about a text that is not a rule. -/
def message : RuleTextError → String
  | .emptyRule => "Rule cannot be empty"
  | .lexemeCollision word => s!"Found more than one lexeme with the same name: '{word}'"
  | .unknownIdentifier word => s!"Unknown identifier: '{word}'"
  | .missingIf => "'if' should be the first identifier"
  | .missingThen => "'then' identifier not found"
  | .emptyCondition => "Condition part of the rule not found"
  | .emptyConclusion => "Conclusion part of the rule not found"
  | .malformedCondition subject => s!"Condition started with '{subject}' is incorrect"
  | .notAnInputVariable word =>
    s!"The variable '{word}' in the condition part must be an input variable"
  | .notAnOutputVariable word =>
    s!"The variable '{word}' in the conclusion part must be an output variable"
  | .termMismatch word subject => s!"Wrong identifier '{word}' for variable '{subject}'"
  | .misplacedLexeme word =>
    s!"Lexeme '{word}' found at the wrong place in the condition part of the rule"
  | .unbalancedParenthesis => "Parenthesis error"
  | .mixedOperators => "And/or operations cannot be mixed at one nesting level"
  | .nestingTooDeep limit => s!"Parentheses cannot be nested more than {limit} levels deep"
  | .danglingOperator word => s!"Error at '{word}' in the condition part"
  | .unexpectedSequence first next => s!"'{next}' cannot go after '{first}'"
  | .malformedConclusion =>
    "Conclusion part of the rule should be in form: 'variable is term'"

end RuleTextError

namespace Error

/-- What is said about a refused request. -/
def message : Error Float → String
  | .invalidName name => s!"Invalid name: '{name}'"
  | .invalidDomain name min max =>
    s!"Invalid domain for '{name}': minimum {amount min} is greater than maximum {amount max}"
  | .duplicateName name => s!"Duplicate name: '{name}'"
  | .unorderedPoints abscissas =>
    s!"Invalid control points: {amounts abscissas} are not in ascending order"
  | .noPoints => "Invalid control points: no points given"
  | .constantOutOfRange value =>
    s!"Constant membership value {amount value} is outside of [0, 1]"
  | .coefficientCount expected found =>
    s!"Expected {expected} or {expected + 1} coefficients, found {found}"
  | .foreignVariable shown => s!"Variable is not part of this system: {shown}"
  | .foreignTerm shown => s!"Term does not belong to variable '{shown}'"
  | .emptyCombination => "A combination of conditions needs at least one child"
  | .variableNotFound name => s!"Variable not found: '{name}'"
  | .termNotFound owner name => s!"Term '{name}' not found in variable '{owner}'"
  | .functionNotFound owner name => s!"Function '{name}' not found in variable '{owner}'"
  | .inputCount expected found => s!"Expected {expected} input values, found {found}"
  | .missingInput name => s!"Value for the '{name}' variable is missing"
  | .inputOutOfRange name value min max =>
    s!"Value {amount value} for the '{name}' variable is outside of [{amount min}, {amount max}]"
  | .noRules => "There should be at least one rule"
  | .unsupportedDefuzzification method =>
    s!"Defuzzification method {method.title} is not supported"
  | .ruleText cause => s!"Parse error: {cause.message}"
  | .brokenReference => "A table lacks an entry that another table refers to"

end Error

end FuzzyInference
