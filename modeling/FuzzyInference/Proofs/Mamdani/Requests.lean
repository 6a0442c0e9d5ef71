import FuzzyInference.Mamdani.System
import FuzzyInference.Proofs.InPlace

/-!
# Requests to a Mamdani system

Everything that can be asked of a Mamdani system that may change it or gives
something to ask with later: variables, terms, rules, and methods. `outcome` is
what the operations answer. `program` is the same in place, table by table and
in the order in which the changes are made. That the two agree is
`program_eq`; a program that forgot to check first would not.

A system is reachable if some requests lead to it, whatever they were and
whether or not they were refused.
-/

namespace FuzzyInference.Mamdani

variable {α : Type}

namespace System

/-! ## Operations in place -/

/-- Puts an input side in place. -/
def withInputSide (inputSide : InputSide α) (s : System α) : System α := { s with inputSide }

/-- Puts a table in place. -/
def withTable (table : VariableTable α) (s : System α) : System α :=
  { s with inputSide := { s.inputSide with table } }

def addInputInPlace [Scalar α] (name : String) (min max : α) :
    Program α (System α) VariableKey :=
  Program.within inputSide withInputSide (InputSide.addInputInPlace name min max)

/-- Enters an output in the table, and then in the list of outputs. -/
def addOutputInPlace [Scalar α] (name : String) (min max : α) :
    Program α (System α) VariableKey := do
  let key ← Program.within table withTable (VariableTable.addInPlace name min max)
  modify fun s => { s with outputs := s.outputs ++ [key] }
  return key

def addTermInPlace (key : VariableKey) (name : String) (membership : α → α) :
    Program α (System α) TermKey :=
  Program.within inputSide withInputSide (InputSide.addTermInPlace key name membership)

/-- Checks a rule before it is added. -/
def addRuleInPlace (rule : Rule α) : Program α (System α) Unit := do
  Program.check ((← get).checkRule rule)
  modify fun s => { s with rules := s.rules ++ [rule] }

theorem addInputInPlace_eq [Scalar α] (s : System α) (name : String) (min max : α) :
    addInputInPlace name min max s = settle (s.addInput name min max) s :=
  Program.within_eq_settle (s.inputSide.addInputInPlace_eq name min max) rfl

theorem addOutputInPlace_eq [Scalar α] (s : System α) (name : String) (min max : α) :
    addOutputInPlace name min max s = settle (s.addOutput name min max) s :=
  Program.within_bind_eq_settle (s.table.addInPlace_eq name min max) rfl
    fun key s => { s with outputs := s.outputs ++ [key] }

theorem addTermInPlace_eq (s : System α) (key : VariableKey) (name : String)
    (membership : α → α) :
    addTermInPlace key name membership s = settle (s.addTerm key name membership) s :=
  Program.within_eq_settle (s.inputSide.addTermInPlace_eq key name membership) rfl

theorem addRuleInPlace_eq (s : System α) (rule : Rule α) :
    addRuleInPlace rule s = settle ((s.addRule rule).map fun t => ((), t)) s :=
  Program.check_modify_eq_settle (fun s : System α => s.checkRule rule)
    (fun s => { s with rules := s.rules ++ [rule] }) s

end System

/-! ## Requests -/

/-- One method of a system. -/
inductive Setting where
  | andMethod (method : AndMethod)
  | orMethod (method : OrMethod)
  | implication (method : ImplicationMethod)
  | aggregation (method : AggregationMethod)
  | defuzzification (method : DefuzzificationMethod)

/-- Changes one method and keeps the others. -/
def Setting.change : Setting → Settings → Settings
  | .andMethod method, s => { s with andMethod := method }
  | .orMethod method, s => { s with orMethod := method }
  | .implication method, s => { s with implication := method }
  | .aggregation method, s => { s with aggregation := method }
  | .defuzzification method, s => { s with defuzzification := method }

/-- What can be asked of a system. Keys and rules need not be its own. -/
inductive Request (α : Type) where
  | addInput (name : String) (min max : α)
  | addOutput (name : String) (min max : α)
  | addTerm (key : VariableKey) (name : String) (membership : α → α)
  | rule (condition : Condition) (output : VariableKey) (term : TermKey)
  | readRule (text : String)
  | addRule (rule : Rule α)
  | set (setting : Setting)

/-- What a request is answered with. -/
inductive Answer (α : Type) where
  | variableKey (key : VariableKey)
  | termKey (key : TermKey)
  | rule (rule : Rule α)
  | done

namespace Request

variable [Scalar α]

/-- What the operations answer, and the system afterwards. -/
def outcome (s : System α) : Request α → Except (Error α) (Answer α × System α)
  | .addInput name min max =>
    (s.addInput name min max).map fun (key, t) => (.variableKey key, t)
  | .addOutput name min max =>
    (s.addOutput name min max).map fun (key, t) => (.variableKey key, t)
  | .addTerm key name membership =>
    (s.addTerm key name membership).map fun (term, t) => (.termKey term, t)
  | .rule condition output term => (s.rule condition output term).map fun r => (.rule r, s)
  | .readRule text => (s.readRule text).map fun r => (.rule r, s)
  | .addRule r => (s.addRule r).map fun t => (.done, t)
  | .set setting => .ok (.done, s.configure (setting.change s.settings))

/-- The request carried out in place. -/
def program : Request α → Program α (System α) (Answer α)
  | .addInput name min max => .variableKey <$> System.addInputInPlace name min max
  | .addOutput name min max => .variableKey <$> System.addOutputInPlace name min max
  | .addTerm key name membership => .termKey <$> System.addTermInPlace key name membership
  | .rule condition output term => .rule <$> Program.ask fun s => s.rule condition output term
  | .readRule text => .rule <$> Program.ask fun s => s.readRule text
  | .addRule r => (fun _ => .done) <$> System.addRuleInPlace r
  | .set setting => do
    modify fun s => s.configure (setting.change s.settings)
    return .done

/-- **A request in place comes to what the operation answers**, and to nothing if it is refused. -/
theorem program_eq (request : Request α) (s : System α) :
    request.program s = settle (request.outcome s) s := by
  cases request with
  | addInput name min max =>
    exact Program.map_eq_settle (s.addInputInPlace_eq name min max) _
  | addOutput name min max =>
    exact Program.map_eq_settle (s.addOutputInPlace_eq name min max) _
  | addTerm key name membership =>
    exact Program.map_eq_settle (s.addTermInPlace_eq key name membership) _
  | rule condition output term => exact Program.map_ask_eq_settle _ _ s
  | readRule text => exact Program.map_ask_eq_settle _ _ s
  | addRule r =>
    show ((fun _ => Answer.done) <$> System.addRuleInPlace r) s = _
    rw [Program.map_eq_settle (s.addRuleInPlace_eq r), outcome]
    cases s.addRule r <;> rfl
  | set setting => rfl

end Request

/-- Some requests lead from a new system to this one. -/
inductive Reachable [Scalar α] : System α → Prop where
  | start (settings : Settings) : Reachable (.ofSettings settings)
  | answered {s t : System α} {request : Request α} {answer : Answer α} :
      Reachable s → request.program s = .ok answer t → Reachable t
  | refused {s t : System α} {request : Request α} {e : Error α} :
      Reachable s → request.program s = .error e t → Reachable t

/-- The system after some requests in a row. -/
def run [Scalar α] (requests : List (Request α)) (s : System α) : System α :=
  requests.foldl (fun s request => request.program.after s) s

/-- Requests in a row lead from reachable systems to reachable systems. -/
theorem reachable_run [Scalar α] (requests : List (Request α)) {s : System α} (h : Reachable s) :
    Reachable (run requests s) :=
  Program.foldl_after_of_results .answered .refused requests h

end FuzzyInference.Mamdani
