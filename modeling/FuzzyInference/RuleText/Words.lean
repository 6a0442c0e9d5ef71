import FuzzyInference.Text.Blank

/-!
# Words of a rule

A rule is read word by word. Words are separated by white space, and a parenthesis is a word
of its own wherever it stands. In normal form all words are separated by single spaces.
-/

namespace FuzzyInference.RuleText

open Text

/-- Whether a character is a word of its own. -/
def isParenthesis (c : Char) : Bool := c = '(' || c = ')'

/-- Ends the text so far, which is kept last character first, with a space. -/
def spaced (out : List Char) : List Char :=
  if out.head? = some ' ' then out else ' ' :: out

/-- Adds a character to the text so far, which is kept last character first. -/
def addChar (out : List Char) (c : Char) : List Char :=
  if isParenthesis c then ' ' :: c :: spaced out
  else if isBlank c then if out.isEmpty then out else spaced out
  else c :: out

/-- The normal form of a text, character by character. -/
def normalizeChars (text : List Char) : List Char :=
  (((text.foldl addChar []).dropWhile isBlank).reverse).dropWhile isBlank

/-- The normal form of a text: spaces around parentheses, a single space for any white space, none
at the ends. -/
def normalize (text : String) : String := String.ofList (normalizeChars text.toList)

/-- The longest runs of characters that are not white space. -/
def blankSeparated : List Char → List (List Char)
  | [] => []
  | c :: rest =>
    if isBlank c then blankSeparated rest
    else
      match rest, blankSeparated rest with
      | d :: _, word :: words => if isBlank d then [c] :: word :: words else (c :: word) :: words
      | _, words => [c] :: words

/-- The words of a text in normal form. -/
def wordsOf (text : String) : List String := (blankSeparated text.toList).map String.ofList

end FuzzyInference.RuleText
