import FuzzyInference.Condition

/-!
# Keywords

The words that have a fixed meaning in a rule.
-/

namespace FuzzyInference

/-- The meaning of a reserved word. -/
inductive Keyword where
  | ifWord
  | thenWord
  | isWord
  | link (link : Link)
  | notWord
  | opening
  | closing
  | hedge (hedge : Hedge)
deriving DecidableEq

/-- The word for a link in a rule. -/
def Link.word : Link → String
  | .and => "and"
  | .or => "or"

namespace Keyword

/-- How a keyword is spelled. -/
def word : Keyword → String
  | .ifWord => "if"
  | .thenWord => "then"
  | .isWord => "is"
  | .link l => l.word
  | .notWord => "not"
  | .opening => "("
  | .closing => ")"
  | .hedge h => h.word

/-- Every keyword. -/
def all : List Keyword :=
  [.ifWord, .thenWord, .isWord, .link .and, .link .or, .notWord, .opening, .closing,
   .hedge .slightly, .hedge .somewhat, .hedge .very, .hedge .extremely]

end Keyword

end FuzzyInference
