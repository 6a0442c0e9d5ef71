import FuzzyInference.Rule
import FuzzyInference.RuleText.Lexicon

/-!
# The grammar of rules

What a rule looks like, said without a reader. A condition is a clause, a
condition in parentheses, or a chain of two or more operands joined by one and
the same link, an operand being a clause or a condition in parentheses. A
conclusion is `variable is value`, in any number of parentheses.

A derivation carries the tree it stands for, so the grammar is a relation
between what is written and a condition. It is stated once for any alphabet in
which links and parentheses are single symbols: the words of a text are one
such alphabet, the items that the reader makes of them are another.
-/

namespace FuzzyInference.RuleText

/-- How the parts of a condition are written. -/
structure Script (σ : Type) where
  /-- What is written for a proposition. -/
  clause : List σ → Proposition → Prop
  link : Link → σ
  opening : σ
  closing : σ

variable {σ : Type}

mutual

/-- `IsExpression s ws c`: what is written is a condition, and it is `c`. -/
inductive IsExpression (s : Script σ) : List σ → Condition → Prop where
  | clause {ws : List σ} {p : Proposition} :
      s.clause ws p → IsExpression s ws (.single p)
  | grouped {ws : List σ} {c : Condition} :
      IsExpression s ws c → IsExpression s (s.opening :: (ws ++ [s.closing])) c
  | chain {link : Link} {ws rest : List σ} {c d : Condition} {ds : List Condition} :
      IsOperand s ws c → IsTail s link rest (d :: ds) →
      IsExpression s (ws ++ rest) (.combination link false c (d :: ds))

/-- An operand of a link: a clause, or a condition in parentheses. -/
inductive IsOperand (s : Script σ) : List σ → Condition → Prop where
  | clause {ws : List σ} {p : Proposition} :
      s.clause ws p → IsOperand s ws (.single p)
  | grouped {ws : List σ} {c : Condition} :
      IsExpression s ws c → IsOperand s (s.opening :: (ws ++ [s.closing])) c

/-- One or more operands, each behind the same link. -/
inductive IsTail (s : Script σ) : Link → List σ → List Condition → Prop where
  | last {link : Link} {ws : List σ} {c : Condition} :
      IsOperand s ws c → IsTail s link (s.link link :: ws) [c]
  | more {link : Link} {ws rest : List σ} {c : Condition} {cs : List Condition} :
      IsOperand s ws c → IsTail s link rest cs →
      IsTail s link (s.link link :: (ws ++ rest)) (c :: cs)

end

/-! ## Words -/

/-- What is written for a negation. -/
def notWords (negated : Bool) : List String := if negated then ["not"] else []

/-- What is written for a hedge. -/
def hedgeWords (hedge : Option Hedge) : List String := hedge.toList.map Hedge.word

/-- `variable is [not] [hedge] term`, for an input and the first of its terms of that name. -/
inductive IsClause (inputs : List (Vocabulary VariableKey TermKey)) :
    List String → Proposition → Prop where
  | intro {v : Vocabulary VariableKey TermKey} {name : String} {term : TermKey}
      (negated : Bool) (hedge : Option Hedge) :
      v ∈ inputs → v.values.lookup name = some term →
      IsClause inputs (v.name :: "is" :: (notWords negated ++ (hedgeWords hedge ++ [name])))
        { subject := v.key, term, negated, hedge }

/-- Conditions written in words. -/
def Script.words (inputs : List (Vocabulary VariableKey TermKey)) : Script String where
  clause := IsClause inputs
  link := Link.word
  opening := "("
  closing := ")"

/-- `variable is value`, for an output and the first of its values of that name, in any number of
parentheses. -/
inductive IsConclusion {ω ν : Type} (outputs : List (Vocabulary ω ν)) :
    List String → Conclusion ω ν → Prop where
  | plain {v : Vocabulary ω ν} {name : String} {value : ν} :
      v ∈ outputs → v.values.lookup name = some value →
      IsConclusion outputs [v.name, "is", name] { subject := v.key, value }
  | grouped {ws : List String} {c : Conclusion ω ν} :
      IsConclusion outputs ws c → IsConclusion outputs ("(" :: (ws ++ [")"])) c

end FuzzyInference.RuleText
