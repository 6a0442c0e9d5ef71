import FuzzyInference.Name
import FuzzyInference.Registry

/-!
# Linguistic variables

A linguistic variable has a name, a closed interval of numbers as its domain, and terms. A term
is a named membership function that belongs to one variable. Names of variables are distinct,
and so are the names of the terms of one variable; different variables may use the same names
for their terms.

The link between a variable and its terms is kept on both sides: the variable lists its terms
in order, and a term knows its owner.
-/

namespace FuzzyInference

/-- A linguistic variable. -/
structure Variable (α : Type) where
  name : String
  min : α
  max : α
  terms : List TermKey := []

/-- A named membership function of a variable. -/
structure Term (α : Type) where
  name : String
  owner : VariableKey
  membership : α → α

/-- Variables and their terms. -/
structure VariableTable (α : Type) where
  vars : Registry .variables (Variable α) := {}
  terms : Registry .terms (Term α) := {}

variable {α : Type}

/-- Whether a number lies in the domain of a variable. -/
def Variable.contains [Scalar α] (v : Variable α) (x : α) : Bool := v.min ≤ x && x ≤ v.max

namespace VariableTable

/-! ## Looking up -/

/-- The variable of a key. -/
def variableAt? (t : VariableTable α) (key : VariableKey) : Option (Variable α) :=
  t.vars.get? key

/-- The term of a key. -/
def termAt? (t : VariableTable α) (key : TermKey) : Option (Term α) :=
  t.terms.get? key

/-- The key of the variable with a name. -/
def keyOf? (t : VariableTable α) (name : String) : Option VariableKey :=
  t.vars.findKey? fun v => v.name = name

/-- The first of some variables that has a name. -/
def keyAmong (t : VariableTable α) (keys : List VariableKey) (name : String) :
    Except (Error α) VariableKey :=
  match keys.find? fun key => (t.variableAt? key).any fun v => v.name = name with
  | some key => .ok key
  | none => .error (.variableNotFound name)

/-- The terms of a variable in the order in which they were added. -/
def termsOf (t : VariableTable α) (key : VariableKey) : List (TermKey × Term α) :=
  match t.variableAt? key with
  | none => []
  | some v => v.terms.filterMap fun k => (t.termAt? k).map fun term => (k, term)

/-- Whether a term exists and belongs to the variable. -/
def owns (t : VariableTable α) (key : VariableKey) (term : TermKey) : Bool :=
  (t.termAt? term).any fun entry => entry.owner = key

/-- A variable as messages show it: by its name, or by its key if it is unknown. -/
def nameOf (t : VariableTable α) (key : VariableKey) : String :=
  match t.variableAt? key with
  | some v => v.name
  | none => key.description

/-- The key of the term of a variable with a name. -/
def termByName (t : VariableTable α) (key : VariableKey) (name : String) :
    Except (Error α) TermKey :=
  match t.variableAt? key with
  | none => .error (.foreignVariable key.description)
  | some v =>
    match (t.termsOf key).find? fun (_, term) => term.name = name with
    | some (k, _) => .ok k
    | none => .error (.termNotFound v.name name)

/-! ## Adding -/

/-- Adds a variable without terms. Its domain must not be empty. -/
def add [Scalar α] (t : VariableTable α) (name : String) (min max : α) :
    Except (Error α) (VariableKey × VariableTable α) := do
  Name.check name
  if ¬ min ≤ max then .error (.invalidDomain name min max)
  else if (t.keyOf? name).isSome then .error (.duplicateName name)
  else .ok (t.vars.nextKey, { t with vars := t.vars.push { name, min, max } })

/-- Adds a term to a variable. -/
def addTerm (t : VariableTable α) (key : VariableKey) (name : String) (membership : α → α) :
    Except (Error α) (TermKey × VariableTable α) := do
  Name.check name
  match t.variableAt? key with
  | none => .error (.foreignVariable key.description)
  | some v =>
    if (t.termsOf key).any fun (_, term) => term.name = name then
      .error (.duplicateName s!"{v.name}.{name}")
    else
      let term := t.terms.nextKey
      .ok (term,
        { vars := t.vars.modify key fun v => { v with terms := v.terms ++ [term] }
          terms := t.terms.push { name, owner := key, membership } })

end VariableTable

end FuzzyInference
