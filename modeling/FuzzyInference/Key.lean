/-!
# Keys

A system numbers its entries: its variables, its terms, and where it has them its output
variables and their functions. A key is such a number together with the table it counts in,
so that a term's key cannot be taken for a variable's. Numbers start at one; zero is the
number of no entry.
-/

namespace FuzzyInference

/-- The tables of a system whose entries are referred to by key. -/
inductive Table where
  | variables
  | terms
  | outputs
  | functions
deriving DecidableEq

/-- What keys of a table are called in messages. -/
def Table.keyTitle : Table → String
  | .variables => "VariableKey"
  | .terms => "TermKey"
  | .outputs => "OutputKey"
  | .functions => "FunctionKey"

/-- The entry of a table with the given number. -/
structure Key (table : Table) where
  number : Nat
deriving DecidableEq

/-- Refers to a linguistic variable. -/
abbrev VariableKey := Key .variables

/-- Refers to a term of a linguistic variable. -/
abbrev TermKey := Key .terms

/-- Refers to an output variable that is computed by functions. -/
abbrev OutputKey := Key .outputs

/-- Refers to a function of such an output variable. -/
abbrev FunctionKey := Key .functions

namespace Key

variable {table : Table}

/-- The key of no entry. -/
def null : Key table := ⟨0⟩

/-- A key as it is written: the number and the generation of the entry, which is the first because
entries are never removed. -/
def text (key : Key table) : String :=
  if key.number = 0 then "null" else s!"{key.number}v1"

/-- A key as messages show it when there is no name to show. -/
def description (key : Key table) : String := s!"{table.keyTitle}({key.text})"

end Key

end FuzzyInference
