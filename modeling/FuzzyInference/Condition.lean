import FuzzyInference.Error
import FuzzyInference.Hedge
import FuzzyInference.Key

/-!
# Conditions

The first half of a rule: propositions "variable is term", joined by `and` and `or` into a
tree. A combination joins any number of conditions by one operator. It always has a first
condition, so there is no empty one.
-/

namespace FuzzyInference

/-- "The variable is, or is not, more or less, the term." -/
structure Proposition where
  subject : VariableKey
  term : TermKey
  negated : Bool := false
  hedge : Option Hedge := none
deriving DecidableEq

/-- What joins the conditions of a combination. -/
inductive Link where
  | and
  | or
deriving DecidableEq

/-- Joins two degrees by the method for the link. -/
def Link.apply {α : Type} [Scalar α] (connectives : Connectives) (link : Link) (u v : α) : α :=
  match link with
  | .and => connectives.andMethod.apply u v
  | .or => connectives.orMethod.apply u v

/-- A proposition, or conditions joined by one operator, possibly negated as a whole. -/
inductive Condition where
  | single (proposition : Proposition)
  | combination (link : Link) (negated : Bool) (first : Condition) (rest : List Condition)

/-- The proposition that a variable is a term. -/
def VariableKey.is (subject : VariableKey) (term : TermKey) : Condition :=
  .single { subject, term }

/-- One less the degree for a negation, and the degree itself otherwise. -/
def negateIf {α : Type} [Scalar α] (negated : Bool) (v : α) : α := if negated then 1 - v else v

/-- The degree to which a proposition holds, given the membership of its term. -/
def Proposition.truth {α : Type} [Scalar α] (p : Proposition) (membership : α) : α :=
  negateIf p.negated (Hedge.applyTo p.hedge membership)

namespace Condition

/-! ## Building -/

/-- Both conditions. -/
def and (c d : Condition) : Condition := .combination .and false c [d]

/-- Either condition. -/
def or (c d : Condition) : Condition := .combination .or false c [d]

/-- Conditions joined by one link, of which there has to be one. -/
def joined {α : Type} (link : Link) : List Condition → Except (Error α) Condition
  | [] => .error .emptyCombination
  | first :: rest => .ok (.combination link false first rest)

/-- All conditions. -/
def all {α : Type} (cs : List Condition) : Except (Error α) Condition := joined .and cs

/-- Any of the conditions. -/
def any {α : Type} (cs : List Condition) : Except (Error α) Condition := joined .or cs

/-- The negation. Negating twice takes the negation back. -/
def not : Condition → Condition
  | .single p => .single { p with negated := !p.negated }
  | .combination link negated first rest => .combination link (!negated) first rest

mutual

/-- Hedges every proposition that has no hedge yet. -/
def fillHedge (hedge : Option Hedge) : Condition → Condition
  | .single p => .single { p with hedge := p.hedge.or hedge }
  | .combination link negated first rest =>
    .combination link negated (first.fillHedge hedge) (fillHedges hedge rest)

/-- Hedges every proposition of the conditions that has no hedge yet. -/
def fillHedges (hedge : Option Hedge) : List Condition → List Condition
  | [] => []
  | c :: cs => c.fillHedge hedge :: fillHedges hedge cs

end

/-- Hedges a condition. The hedge of a single proposition is replaced; within a combination only
propositions without a hedge take it. -/
def hedge (h : Option Hedge) : Condition → Condition
  | .single p => .single { p with hedge := h }
  | c => c.fillHedge h

/-! ## Reading -/

mutual

/-- The propositions of a condition from left to right. -/
def propositions : Condition → List Proposition
  | .single p => [p]
  | .combination _ _ first rest => first.propositions ++ propositionsOf rest

/-- The propositions of conditions from left to right. -/
def propositionsOf : List Condition → List Proposition
  | [] => []
  | c :: cs => c.propositions ++ propositionsOf cs

end

variable {α : Type} [Scalar α]

mutual

/-- The degree to which a condition holds, given the membership of the term of each proposition. -/
def evaluate (connectives : Connectives) (membership : Proposition → α) : Condition → α
  | .single p => p.truth (membership p)
  | .combination link negated first rest =>
    negateIf negated
      (evaluateRest connectives membership link (first.evaluate connectives membership) rest)

/-- Folds the degrees of further conditions into the degree of those before them. -/
def evaluateRest (connectives : Connectives) (membership : Proposition → α) (link : Link)
    (before : α) : List Condition → α
  | [] => before
  | c :: cs =>
    evaluateRest connectives membership link
      (link.apply connectives before (c.evaluate connectives membership)) cs

end

end Condition

end FuzzyInference
