import FuzzyInference.Rule
import FuzzyInference.RuleText.Grouping
import FuzzyInference.RuleText.Words

/-!
# Rules as text

A rule reads `if condition then conclusion`. The condition is grouped by parentheses, the
conclusion is `variable is value` and may stand in parentheses.
-/

namespace FuzzyInference.RuleText

variable {ω ν : Type}

/-- Whether the first token opens and the last closes a parenthesis. -/
def isBracketed (tokens : List (Token ω ν)) : Bool :=
  2 ≤ tokens.length && tokens.head?.any (·.isKeyword .opening)
    && tokens.getLast?.any (·.isKeyword .closing)

theorem length_stripped_lt {tokens : List (Token ω ν)} (h : isBracketed tokens) :
    tokens.tail.dropLast.length < tokens.length := by
  simp only [isBracketed, Bool.and_eq_true, decide_eq_true_eq] at h
  simp only [List.length_dropLast, List.length_tail]
  omega

/-- The tokens without the parentheses around them. -/
def strip (tokens : List (Token ω ν)) : List (Token ω ν) :=
  if h : isBracketed tokens then
    have := length_stripped_lt h
    strip tokens.tail.dropLast
  else tokens
termination_by tokens.length

variable [DecidableEq ω]

/-- The conclusion that tokens make up. -/
def conclusionOf (tokens : List (Token ω ν)) : Except RuleTextError (Conclusion ω ν) :=
  match strip tokens with
  | [subject, verb, value] =>
    match subject.lexeme with
    | .output key =>
      if verb.isKeyword .isWord then
        match value.outputValue? key with
        | some v => .ok ⟨key, v⟩
        | none => .error (.termMismatch value.text subject.text)
      else .error .malformedConclusion
    | .input _ => .error (.notAnOutputVariable subject.text)
    | _ => .error .malformedConclusion
  | _ => .error .malformedConclusion

/-- The two halves of a rule: the tokens between `if` and the first `then`, and those after it. -/
def halves (tokens : List (Token ω ν)) :
    Except RuleTextError (List (Token ω ν) × List (Token ω ν)) :=
  match tokens with
  | [] => .error .missingIf
  | first :: rest =>
    if first.isKeyword .ifWord then
      match rest.dropWhile fun t => !t.isKeyword .thenWord with
      | [] => .error .missingThen
      | _ :: conclusion =>
        let condition := rest.takeWhile fun t => !t.isKeyword .thenWord
        if condition.isEmpty then .error .emptyCondition
        else if conclusion.isEmpty then .error .emptyConclusion
        else .ok (condition, conclusion)
    else .error .missingIf

/-- The rule that tokens make up. -/
def ruleOf (tokens : List (Token ω ν)) : Except RuleTextError (Rule ω ν) := do
  let (condition, conclusion) ← halves tokens
  let items ← itemsOf condition
  if nestingDepth items > maxNesting then .error (.nestingTooDeep maxNesting)
  else do
    let condition ← conditionOf items
    let conclusion ← conclusionOf conclusion
    .ok ⟨condition, conclusion⟩

/-- The tokens of a text. -/
def tokensOf (inputs : List (Vocabulary VariableKey TermKey)) (outputs : List (Vocabulary ω ν))
    (text : String) : Except RuleTextError (List (Token ω ν)) := do
  let lexicon ← Lexicon.ofVocabularies inputs outputs
  Token.ofWords lexicon (wordsOf (normalize text))

/-- Reads a rule with the words of the given variables. -/
def read (inputs : List (Vocabulary VariableKey TermKey)) (outputs : List (Vocabulary ω ν))
    (text : String) : Except RuleTextError (Rule ω ν) :=
  if text.toList.all Text.isBlank then .error .emptyRule
  else tokensOf inputs outputs text >>= ruleOf

end FuzzyInference.RuleText
