import FuzzyInference.Method

/-!
# Refusals

What can be wrong with a rule that is written as text, and what can be wrong with a request to
a system. Each cause carries what its message mentions. The wording is in `Error.Message`.
-/

namespace FuzzyInference

/-- Why a text is not a rule. -/
inductive RuleTextError where
  | emptyRule
  /-- A word would stand for two things. -/
  | lexemeCollision (word : String)
  | unknownIdentifier (word : String)
  | missingIf
  | missingThen
  | emptyCondition
  | emptyConclusion
  /-- A proposition about the named variable ends early or lacks `is`. -/
  | malformedCondition (subject : String)
  | notAnInputVariable (word : String)
  | notAnOutputVariable (word : String)
  /-- The word is no term or function of the variable. -/
  | termMismatch (word subject : String)
  | misplacedLexeme (word : String)
  | unbalancedParenthesis
  | mixedOperators
  /-- Parentheses nest deeper than the limit. -/
  | nestingTooDeep (limit : Nat)
  /-- Nothing follows the operator. -/
  | danglingOperator (word : String)
  | unexpectedSequence (first next : String)
  | malformedConclusion
deriving DecidableEq

/-- Why a request to a system is refused. -/
inductive Error (α : Type) where
  | invalidName (name : String)
  | invalidDomain (name : String) (min max : α)
  | duplicateName (name : String)
  | unorderedPoints (abscissas : List α)
  | noPoints
  | constantOutOfRange (value : α)
  | coefficientCount (expected found : Nat)
  /-- A key of no variable of the right kind, shown by name or key. -/
  | foreignVariable (shown : String)
  /-- A term or function that is not the shown variable's. -/
  | foreignTerm (shown : String)
  | emptyCombination
  | variableNotFound (name : String)
  | termNotFound (owner name : String)
  | functionNotFound (owner name : String)
  | inputCount (expected found : Nat)
  | missingInput (name : String)
  | inputOutOfRange (name : String) (value min max : α)
  | noRules
  | unsupportedDefuzzification (method : DefuzzificationMethod)
  | ruleText (cause : RuleTextError)
  /-- A table lacks an entry that another table refers to. No system that was built by the
  operations of this library answers this. -/
  | brokenReference

end FuzzyInference
