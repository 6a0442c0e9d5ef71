import FuzzyInference.RuleText.Lexicon

/-!
# Items of a condition

In a first pass over the condition of a rule every run of tokens `variable is [not] [hedge] term`
becomes one item. What remains around these clauses are links and parentheses.
-/

namespace FuzzyInference.RuleText

/-- A part of a condition. -/
inductive Item where
  /-- A proposition, with the name of its variable. -/
  | clause (proposition : Proposition) (subject : String)
  | link (link : Link)
  | opening
  | closing
deriving DecidableEq

/-- The first word of an item. -/
def Item.text : Item → String
  | .clause _ subject => subject
  | .link l => l.word
  | .opening => Keyword.opening.word
  | .closing => Keyword.closing.word

/-! ## Clauses -/

variable {ω ν : Type}

/-- Whether the next token is `not`, and what follows it. -/
def takeNot : List (Token ω ν) → Bool × List (Token ω ν)
  | [] => (false, [])
  | t :: rest => if t.isKeyword .notWord then (true, rest) else (false, t :: rest)

/-- The hedge that comes next, if one does, and what follows it. -/
def takeHedge : List (Token ω ν) → Option Hedge × List (Token ω ν)
  | [] => (none, [])
  | t :: rest =>
    match t.keyword? with
    | some (.hedge hedge) => (some hedge, rest)
    | _ => (none, t :: rest)

/-- The proposition about a variable whose name has just been read, and what follows it. -/
def clause (subject : String) (key : VariableKey) (tokens : List (Token ω ν)) :
    Except RuleTextError (Proposition × List (Token ω ν)) :=
  match tokens with
  | verb :: next :: rest =>
    if verb.isKeyword .isWord then
      let (negated, rest) := takeNot (next :: rest)
      let (hedge, rest) := takeHedge rest
      match rest with
      | [] => .error (.malformedCondition subject)
      | value :: rest =>
        match value.inputTerm? key with
        | some term => .ok (⟨key, term, negated, hedge⟩, rest)
        | none => .error (.termMismatch value.text subject)
    else .error (.malformedCondition subject)
  | _ => .error (.malformedCondition subject)

theorem takeNot_length_le (tokens : List (Token ω ν)) :
    (takeNot tokens).2.length ≤ tokens.length := by
  cases tokens with
  | nil => simp [takeNot]
  | cons t rest => simp only [takeNot]; split <;> simp

theorem takeHedge_length_le (tokens : List (Token ω ν)) :
    (takeHedge tokens).2.length ≤ tokens.length := by
  cases tokens with
  | nil => simp [takeHedge]
  | cons t rest => simp only [takeHedge]; split <;> simp

/-- A clause takes at least one token after the variable. -/
theorem clause_length_lt {subject : String} {key : VariableKey} {tokens rest : List (Token ω ν)}
    {p : Proposition} (h : clause subject key tokens = .ok (p, rest)) :
    rest.length < tokens.length := by
  unfold clause at h
  split at h
  · rename_i verb next more
    split at h
    · have hn := takeNot_length_le (next :: more)
      have hh := takeHedge_length_le (takeNot (next :: more)).2
      dsimp only at h
      split at h
      · cases h
      · rename_i value after hv
        split at h
        · cases h
          rw [hv] at hh
          simp only [List.length_cons] at hn hh ⊢
          omega
        · cases h
    · cases h
  · cases h

/-- The items that tokens of a condition make up. -/
def itemsOf : List (Token ω ν) → Except RuleTextError (List Item)
  | [] => .ok []
  | first :: rest =>
    match first.lexeme with
    | .input key =>
      match h : clause first.text key rest with
      | .error e => .error e
      | .ok (p, after) =>
        have : after.length < rest.length := clause_length_lt h
        (itemsOf after).map (.clause p first.text :: ·)
    | .output _ => .error (.notAnInputVariable first.text)
    | .keyword (.link link) => (itemsOf rest).map (.link link :: ·)
    | .keyword .opening => (itemsOf rest).map (.opening :: ·)
    | .keyword .closing => (itemsOf rest).map (.closing :: ·)
    | _ => .error (.misplacedLexeme first.text)
termination_by tokens => tokens.length

/-! ## Parentheses -/

/-- The most parentheses open at once in the items, after `depth` open ones. A closing one without
a partner is passed over. -/
def nestingFrom (depth : Nat) : List Item → Nat
  | [] => 0
  | .opening :: rest => Nat.max (depth + 1) (nestingFrom (depth + 1) rest)
  | .closing :: rest => nestingFrom (depth - 1) rest
  | _ :: rest => nestingFrom depth rest

/-- The most parentheses open at once. -/
def nestingDepth (items : List Item) : Nat := nestingFrom 0 items

/-- How far ahead the last of `opened` open parentheses is closed. -/
def closeIndexFrom? (opened : Nat) : List Item → Option Nat
  | [] => none
  | .opening :: rest => (closeIndexFrom? (opened + 1) rest).map (· + 1)
  | .closing :: rest =>
    match opened with
    | 0 => none
    | 1 => some 0
    | n + 2 => (closeIndexFrom? (n + 1) rest).map (· + 1)
  | _ :: rest => (closeIndexFrom? opened rest).map (· + 1)

/-- The index of the parenthesis that closes the one at the start. -/
def closeIndex? (items : List Item) : Option Nat := closeIndexFrom? 0 items

end FuzzyInference.RuleText
