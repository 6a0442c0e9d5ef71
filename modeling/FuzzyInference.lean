import FuzzyInference.Scalar
import FuzzyInference.Key
import FuzzyInference.Registry
import FuzzyInference.OrderedMap
import FuzzyInference.Text.Blank
import FuzzyInference.Text.Alphanumeric
import FuzzyInference.Decimal.Shortest
import FuzzyInference.Decimal.Layout
import FuzzyInference.Hedge
import FuzzyInference.Method
import FuzzyInference.Numeric.Samples
import FuzzyInference.Numeric.Interpolation
import FuzzyInference.Numeric.Simpson
import FuzzyInference.Error
import FuzzyInference.Error.Message
import FuzzyInference.Membership.Shape
import FuzzyInference.Membership.Composite
import FuzzyInference.Defuzzification
import FuzzyInference.Condition
import FuzzyInference.Name
import FuzzyInference.Keyword
import FuzzyInference.RuleText.Words
import FuzzyInference.RuleText.Lexicon
import FuzzyInference.RuleText.Item
import FuzzyInference.RuleText.Grouping
import FuzzyInference.RuleText.Sentence
import FuzzyInference.Rule
import FuzzyInference.VariableTable
import FuzzyInference.InputSide
import FuzzyInference.Mamdani.System
import FuzzyInference.Sugeno.LinearFunction
import FuzzyInference.Sugeno.System
import FuzzyInference.Settings
import FuzzyInference.Proofs.Outcome
import FuzzyInference.Proofs.RuleText.Words
import FuzzyInference.Proofs.RuleText.Lexicon
import FuzzyInference.Proofs.RuleText.Grammar
import FuzzyInference.Proofs.RuleText.Parentheses
import FuzzyInference.Proofs.RuleText.Partners
import FuzzyInference.Proofs.RuleText.Grouping
import FuzzyInference.Proofs.RuleText.Clauses
import FuzzyInference.Proofs.RuleText.Reading
import FuzzyInference.Proofs.Registry
import FuzzyInference.Proofs.OrderedMap
import FuzzyInference.Proofs.VariableTable
import FuzzyInference.Proofs.InPlace
import FuzzyInference.Proofs.Condition
import FuzzyInference.Proofs.InputSide
import FuzzyInference.Proofs.Fuzzification
import FuzzyInference.Proofs.Additions
import FuzzyInference.Proofs.Truths
import FuzzyInference.Proofs.Mamdani.Requests
import FuzzyInference.Proofs.Mamdani.Consistency
import FuzzyInference.Proofs.Mamdani.Calculation
import FuzzyInference.Proofs.Sugeno.Requests
import FuzzyInference.Proofs.Sugeno.Consistency
import FuzzyInference.Proofs.Sugeno.Calculation
import FuzzyInference.Proofs.RuleText.Runs
import FuzzyInference.Proofs.RuleText.Names
import FuzzyInference.Proofs.RoundTrip
import FuzzyInference.Proofs.Resolution
import FuzzyInference.Proofs.Calculation
import FuzzyInference.Proofs.Lookup
import FuzzyInference.Proofs.RuleText.Widening
import FuzzyInference.Proofs.Mamdani.Growth
import FuzzyInference.Proofs.Sugeno.Growth
import FuzzyInference.Proofs.Permanence
import FuzzyInference.Proofs.Independence
import FuzzyInference.Proofs.NoAnswer
import FuzzyInference.Proofs.ExactNumbers
import FuzzyInference.Proofs.Simpson
import FuzzyInference.Proofs.Mamdani.Range
import FuzzyInference.Proofs.Sugeno.Means
import FuzzyInference.Proofs.Mamdani.RuleLists
import FuzzyInference.Proofs.Sugeno.RuleLists
import FuzzyInference.Proofs.RuleOrder
import FuzzyInference.Proofs.IdleRules
import FuzzyInference.Proofs.Sugeno.LinearFunctions
import FuzzyInference.Proofs.Sugeno.World
import FuzzyInference.Proofs.RealNumbers
import FuzzyInference.Proofs.Polarity
import FuzzyInference.Proofs.Duality
import FuzzyInference.Proofs.Agreement
import FuzzyInference.Proofs.Regrouping
import FuzzyInference.Proofs.FirstFailure
import FuzzyInference.Proofs.Evaluation
import FuzzyInference.Proofs.Readings
import FuzzyInference.Proofs.RuleText.NormalForm
import FuzzyInference.Proofs.RuleText.Spellings
import FuzzyInference.Proofs.RuleText.Levels
import FuzzyInference.Proofs.RuleText.Defects
import FuzzyInference.Proofs.RuleText.ByPlace
import FuzzyInference.Proofs.Hedging
import FuzzyInference.Proofs.CheckedNumbers
import FuzzyInference.Proofs.Interpolation
import FuzzyInference.Proofs.Outlines
import FuzzyInference.Proofs.Plateaus
import FuzzyInference.Proofs.Lines
import FuzzyInference.Proofs.Panels
import FuzzyInference.Proofs.Centers
