import FuzzyInference.Keyword
import FuzzyInference.OrderedMap

/-!
# Lexicon

The lexicon of a system says what each word of a rule stands for: a keyword, an input or
output variable, or a value. A value is a term or a function. The same word may name values
of several variables; then it stands for all of them, and the variable it is compared with
decides. Any other word stands for one thing.
-/

namespace FuzzyInference.RuleText

/-- The names of one variable and of its values. -/
structure Vocabulary (κ ν : Type) where
  name : String
  key : κ
  values : List (String × ν)

/-- A value together with the variable that owns it. Output variables have keys of type `ω` and
values of type `ν`. -/
inductive Candidate (ω ν : Type) where
  | input (owner : VariableKey) (term : TermKey)
  | output (owner : ω) (value : ν)
deriving DecidableEq

/-- What a word stands for. -/
inductive Lexeme (ω ν : Type) where
  | keyword (keyword : Keyword)
  | input (key : VariableKey)
  | output (key : ω)
  /-- All values of that name, in order of declaration. -/
  | values (candidates : List (Candidate ω ν))
deriving DecidableEq

/-- What each word stands for. -/
abbrev Lexicon (ω ν : Type) := OrderedMap String (Lexeme ω ν)

namespace Lexicon

variable {κ ω ν μ : Type}

/-- The keywords, which every system has. -/
def keywords : Lexicon ω ν := ⟨Keyword.all.map fun k => (k.word, .keyword k)⟩

/-- Enters the name of a variable, which must be new. -/
def addVariable (lexicon : Lexicon ω ν) (name : String) (lexeme : Lexeme ω ν) :
    Except RuleTextError (Lexicon ω ν) :=
  match lexicon.get? name with
  | none => .ok (lexicon.insert name lexeme)
  | some _ => .error (.lexemeCollision name)

/-- Enters the name of a value, which must be new or name values only. -/
def addValue (lexicon : Lexicon ω ν) (name : String) (candidate : Candidate ω ν) :
    Except RuleTextError (Lexicon ω ν) :=
  match lexicon.get? name with
  | none => .ok (lexicon.insert name (.values [candidate]))
  | some (.values candidates) => .ok (lexicon.insert name (.values (candidates ++ [candidate])))
  | some _ => .error (.lexemeCollision name)

/-- Enters a variable and then its values. -/
def addVocabulary (lexeme : κ → Lexeme ω ν) (candidate : κ → μ → Candidate ω ν)
    (lexicon : Lexicon ω ν) (vocabulary : Vocabulary κ μ) : Except RuleTextError (Lexicon ω ν) := do
  let lexicon ← addVariable lexicon vocabulary.name (lexeme vocabulary.key)
  vocabulary.values.foldlM
    (fun lexicon (name, value) => addValue lexicon name (candidate vocabulary.key value)) lexicon

/-- The lexicon of a system: keywords, then inputs, then outputs. -/
def ofVocabularies (inputs : List (Vocabulary VariableKey TermKey))
    (outputs : List (Vocabulary ω ν)) : Except RuleTextError (Lexicon ω ν) := do
  let lexicon ← inputs.foldlM (addVocabulary .input .input) keywords
  outputs.foldlM (addVocabulary .output .output) lexicon

end Lexicon

/-! ## Tokens -/

/-- A word and what it stands for. -/
structure Token (ω ν : Type) where
  text : String
  lexeme : Lexeme ω ν

namespace Token

variable {ω ν : Type}

/-- The keyword that a token is, if it is one. -/
def keyword? (t : Token ω ν) : Option Keyword :=
  match t.lexeme with
  | .keyword k => some k
  | _ => none

/-- Whether a token is the given keyword. -/
def isKeyword (t : Token ω ν) (k : Keyword) : Bool := t.keyword? = some k

/-- The values a token may stand for. -/
def candidates (t : Token ω ν) : List (Candidate ω ν) :=
  match t.lexeme with
  | .values candidates => candidates
  | _ => []

/-- The term of an input variable that a token names. -/
def inputTerm? (t : Token ω ν) (key : VariableKey) : Option TermKey :=
  t.candidates.findSome? fun
    | .input owner term => if owner = key then some term else none
    | .output _ _ => none

/-- The value of an output variable that a token names. -/
def outputValue? [DecidableEq ω] (t : Token ω ν) (key : ω) : Option ν :=
  t.candidates.findSome? fun
    | .input _ _ => none
    | .output owner value => if owner = key then some value else none

/-- Looks every word up. -/
def ofWords (lexicon : Lexicon ω ν) (words : List String) :
    Except RuleTextError (List (Token ω ν)) :=
  words.mapM fun word =>
    match lexicon.get? word with
    | some lexeme => .ok ⟨word, lexeme⟩
    | none => .error (.unknownIdentifier word)

end Token

end FuzzyInference.RuleText
