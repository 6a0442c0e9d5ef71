import FuzzyInference.RuleText.Item

/-!
# Grouping

In a second pass the items of a condition become a tree. Conditions at one level are joined
by one and the same link; parentheses make a level of their own. Parentheses around a whole
level mean nothing.

Levels lie inside each other no deeper than parentheses are nested, so the nesting depth of
the items bounds the recursion.
-/

namespace FuzzyInference.RuleText

/-- The most parentheses that may be open at once. -/
def maxNesting : Nat := 64

/-- Whether one pair of parentheses surrounds everything. -/
def isEnclosed (items : List Item) : Bool :=
  items.head? = some .opening && closeIndex? items = some (items.length - 1)

theorem length_inside_lt {items : List Item} (h : isEnclosed items) :
    items.tail.dropLast.length < items.length := by
  cases items with
  | nil => simp [isEnclosed] at h
  | cons a rest => simp only [List.tail_cons, List.length_dropLast, List.length_cons]; omega

/-- The items within all pairs of parentheses that surround everything. -/
def unwrap (items : List Item) : List Item :=
  if h : isEnclosed items then
    have := length_inside_lt h
    unwrap items.tail.dropLast
  else items
termination_by items.length

variable (group : List Item → Except RuleTextError Condition)

/-- The condition that begins with the item `first`, and the items after it. Within parentheses
the condition is read by `group`. -/
def operand (first : Item) (rest : List Item) : Except RuleTextError (Condition × List Item) :=
  match first with
  | .opening =>
    match closeIndex? (first :: rest) with
    | none => .error .unbalancedParenthesis
    | some close => do
      let condition ← group (rest.take (close - 1))
      .ok (condition, rest.drop close)
  | .clause p _ => .ok (.single p, rest)
  | .closing => .error .unbalancedParenthesis
  | .link _ => .error (.misplacedLexeme first.text)

/-- The link that the item after an operand is. -/
def linkAfter (first next : Item) : Except RuleTextError Link :=
  match next with
  | .link link => .ok link
  | .closing => .error .unbalancedParenthesis
  | _ => .error (.unexpectedSequence first.text next.text)

theorem operand_length_le {first : Item} {rest after : List Item} {c : Condition}
    (h : operand group first rest = .ok (c, after)) : after.length ≤ rest.length := by
  unfold operand at h
  split at h
  · split at h
    · cases h
    · rename_i close _
      cases hg : group (rest.take (close - 1)) with
      | error e => rw [hg] at h; cases h
      | ok d => rw [hg] at h; cases h; simp
  · cases h; exact Nat.le_refl _
  · cases h
  · cases h

/-- The conditions of one level and the link that joins them, given the link read before. A single
condition counts as joined by `and`. -/
def chain (before : Option Link) (first : Item) (rest : List Item) :
    Except RuleTextError (Link × Condition × List Condition) :=
  match h : operand group first rest with
  | .error e => .error e
  | .ok (condition, []) => .ok (before.getD .and, condition, [])
  | .ok (condition, next :: after) =>
    match linkAfter first next with
    | .error e => .error e
    | .ok link =>
      match after with
      | [] => .error (.danglingOperator next.text)
      | second :: more =>
        if before.getD link = link then
          have : more.length < rest.length := by
            have := operand_length_le group h
            simp only [List.length_cons] at this
            omega
          match chain (some link) second more with
          | .error e => .error e
          | .ok (link, head, others) => .ok (link, condition, head :: others)
        else .error .mixedOperators
termination_by rest.length

/-- The condition of one level. -/
def level (items : List Item) : Except RuleTextError Condition :=
  match unwrap items with
  | [] => .error .emptyCondition
  | [.clause p _] => .ok (.single p)
  | first :: rest => do
    let (link, head, others) ← chain group none first rest
    .ok (.combination link false head others)

/-- The condition of items whose levels lie at most so many deep inside each other. -/
def conditionWithin : Nat → List Item → Except RuleTextError Condition
  | 0 => level fun _ => .error (.nestingTooDeep maxNesting)
  | levels + 1 => level (conditionWithin levels)

/-- The condition of any items. -/
def conditionOf (items : List Item) : Except RuleTextError Condition :=
  conditionWithin (nestingDepth items) items

end FuzzyInference.RuleText
