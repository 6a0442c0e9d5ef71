import FuzzyInference.Sugeno.System
import FuzzyInference.Proofs.InPlace

/-!
# Requests to a Sugeno system

The counterpart for Sugeno systems of what can be asked of Mamdani systems.
Outputs and functions live in registries of their own, so more tables have to be
changed in step. A name is checked against two of them: a new input is compared
with the outputs before its table has seen it at all, a new output with both
after its name has been checked.
-/

namespace FuzzyInference.Sugeno

variable {α : Type}

namespace System

/-! ## Operations in place -/

/-- Puts an input side in place. -/
def withInputSide (inputSide : InputSide α) (s : System α) : System α := { s with inputSide }

def addInputInPlace [Scalar α] (name : String) (min max : α) :
    Program α (System α) VariableKey := do
  if ((← get).outputKey? name).isSome then throw (.duplicateName name)
  Program.within inputSide withInputSide (InputSide.addInputInPlace name min max)

def addTermInPlace (key : VariableKey) (name : String) (membership : α → α) :
    Program α (System α) TermKey :=
  Program.within inputSide withInputSide (InputSide.addTermInPlace key name membership)

def addOutputInPlace (name : String) : Program α (System α) OutputKey := do
  Program.check (Name.check name)
  let s ← get
  if (s.inputSide.table.keyOf? name).isSome || (s.outputKey? name).isSome then
    throw (.duplicateName name)
  modify fun s => { s with outputs := s.outputs.push { name } }
  return s.outputs.nextKey

/-- Enters a function among the functions first, and then in the list of its output. -/
def addFunctionInPlace (key : OutputKey) (name : String) (function : LinearFunction α) :
    Program α (System α) FunctionKey := do
  Program.check (Name.check name)
  let s ← get
  match s.outputAt? key with
  | none => throw (.foreignVariable key.description)
  | some o =>
    if (s.functionsOf key).any fun (_, f) => f.name = name then
      throw (.duplicateName s!"{o.name}.{name}")
    let k := s.functions.nextKey
    modify fun s => { s with functions := s.functions.push { name, owner := key, function } }
    modify fun s =>
      { s with outputs := s.outputs.modify key fun o => { o with functions := o.functions ++ [k] } }
    return k

/-- Checks a rule before it is added. -/
def addRuleInPlace (rule : Rule) : Program α (System α) Unit := do
  Program.check ((← get).checkRule rule)
  modify fun s => { s with rules := s.rules ++ [rule] }

theorem addInputInPlace_eq [Scalar α] (s : System α) (name : String) (min max : α) :
    addInputInPlace name min max s = settle (s.addInput name min max) s := by
  have hside := Program.within_eq_settle (s.inputSide.addInputInPlace_eq name min max)
    (rfl : withInputSide s.inputSide s = s)
  unfold addInputInPlace addInput
  show ((get : Program α _ _) >>= _) s = _
  rw [Program.get_bind]
  by_cases hnew : (s.outputKey? name).isSome
  · simp only [hnew, if_true]
    rfl
  · simp only [hnew, Bool.false_eq_true, if_false]
    exact hside

theorem addTermInPlace_eq (s : System α) (key : VariableKey) (name : String)
    (membership : α → α) :
    addTermInPlace key name membership s = settle (s.addTerm key name membership) s :=
  Program.within_eq_settle (s.inputSide.addTermInPlace_eq key name membership) rfl

theorem addOutputInPlace_eq (s : System α) (name : String) :
    addOutputInPlace name s = settle (s.addOutput name) s := by
  unfold addOutputInPlace addOutput
  rw [Program.check_bind]
  cases (Name.check name : Except (Error α) Unit) with
  | error e => rfl
  | ok _ =>
    show ((get : Program α _ _) >>= _) s = _
    rw [Program.get_bind]
    simp only [ok_bind]
    by_cases hnew : ((s.inputSide.table.keyOf? name).isSome || (s.outputKey? name).isSome) = true
    · simp only [hnew, if_true]
      rfl
    · simp only [hnew, Bool.false_eq_true, if_false]
      rfl

theorem addFunctionInPlace_eq (s : System α) (key : OutputKey) (name : String)
    (function : LinearFunction α) :
    addFunctionInPlace key name function s = settle (s.addFunction key name function) s := by
  unfold addFunctionInPlace addFunction
  rw [Program.check_bind]
  cases (Name.check name : Except (Error α) Unit) with
  | error e => rfl
  | ok _ =>
    show ((get : Program α _ _) >>= _) s = _
    rw [Program.get_bind]
    simp only [ok_bind]
    cases s.outputAt? key with
    | none => rfl
    | some o =>
      by_cases hnew : (s.functionsOf key).any fun e => e.2.name = name
      · simp only [hnew, if_true]
        rfl
      · simp only [hnew, Bool.false_eq_true, if_false]
        rfl

theorem addRuleInPlace_eq (s : System α) (rule : Rule) :
    addRuleInPlace rule s = settle ((s.addRule rule).map fun t => ((), t)) s :=
  Program.check_modify_eq_settle (fun s : System α => s.checkRule rule)
    (fun s => { s with rules := s.rules ++ [rule] }) s

end System

/-! ## Requests -/

/-- One method of a system. -/
inductive Setting where
  | andMethod (method : AndMethod)
  | orMethod (method : OrMethod)

/-- Changes one method and keeps the other. -/
def Setting.change : Setting → Connectives → Connectives
  | .andMethod method, s => { s with andMethod := method }
  | .orMethod method, s => { s with orMethod := method }

/-- What can be asked of a system. Keys, functions and rules need not be its own. -/
inductive Request (α : Type) where
  | addInput (name : String) (min max : α)
  | addTerm (key : VariableKey) (name : String) (membership : α → α)
  | addOutput (name : String)
  | linearFunction (coefficients : List (VariableKey × α)) (constant : α)
  | linearFunctionOfList (values : List α)
  | addFunction (key : OutputKey) (name : String) (function : LinearFunction α)
  | rule (condition : Condition) (output : OutputKey) (function : FunctionKey)
  | readRule (text : String)
  | addRule (rule : Rule)
  | set (setting : Setting)

/-- What a request is answered with. -/
inductive Answer (α : Type) where
  | variableKey (key : VariableKey)
  | termKey (key : TermKey)
  | outputKey (key : OutputKey)
  | functionKey (key : FunctionKey)
  | function (function : LinearFunction α)
  | rule (rule : Rule)
  | done

namespace Request

variable [Scalar α]

/-- What the operations answer, and the system afterwards. -/
def outcome (s : System α) : Request α → Except (Error α) (Answer α × System α)
  | .addInput name min max =>
    (s.addInput name min max).map fun (key, t) => (.variableKey key, t)
  | .addTerm key name membership =>
    (s.addTerm key name membership).map fun (term, t) => (.termKey term, t)
  | .addOutput name => (s.addOutput name).map fun (key, t) => (.outputKey key, t)
  | .linearFunction coefficients constant =>
    (s.linearFunction coefficients constant).map fun f => (.function f, s)
  | .linearFunctionOfList values => (s.linearFunctionOfList values).map fun f => (.function f, s)
  | .addFunction key name function =>
    (s.addFunction key name function).map fun (k, t) => (.functionKey k, t)
  | .rule condition output function =>
    (s.rule condition output function).map fun r => (.rule r, s)
  | .readRule text => (s.readRule text).map fun r => (.rule r, s)
  | .addRule r => (s.addRule r).map fun t => (.done, t)
  | .set setting => .ok (.done, s.configure (setting.change s.settings))

/-- The request carried out in place. -/
def program : Request α → Program α (System α) (Answer α)
  | .addInput name min max => .variableKey <$> System.addInputInPlace name min max
  | .addTerm key name membership => .termKey <$> System.addTermInPlace key name membership
  | .addOutput name => .outputKey <$> System.addOutputInPlace name
  | .linearFunction coefficients constant => .function <$>
    Program.ask fun s => s.linearFunction coefficients constant
  | .linearFunctionOfList values => .function <$>
    Program.ask fun s => s.linearFunctionOfList values
  | .addFunction key name function => .functionKey <$> System.addFunctionInPlace key name function
  | .rule condition output function => .rule <$>
    Program.ask fun s => s.rule condition output function
  | .readRule text => .rule <$> Program.ask fun s => s.readRule text
  | .addRule r => (fun _ => .done) <$> System.addRuleInPlace r
  | .set setting => do
    modify fun s => s.configure (setting.change s.settings)
    return .done

/-- **A request in place comes to what the operation answers**, and to nothing if it is refused. -/
theorem program_eq (request : Request α) (s : System α) :
    request.program s = settle (request.outcome s) s := by
  cases request with
  | addInput name min max =>
    exact Program.map_eq_settle (s.addInputInPlace_eq name min max) _
  | addTerm key name membership =>
    exact Program.map_eq_settle (s.addTermInPlace_eq key name membership) _
  | addOutput name =>
    exact Program.map_eq_settle (s.addOutputInPlace_eq name) _
  | linearFunction coefficients constant => exact Program.map_ask_eq_settle _ _ s
  | linearFunctionOfList values => exact Program.map_ask_eq_settle _ _ s
  | addFunction key name function =>
    exact Program.map_eq_settle (s.addFunctionInPlace_eq key name function) _
  | rule condition output function => exact Program.map_ask_eq_settle _ _ s
  | readRule text => exact Program.map_ask_eq_settle _ _ s
  | addRule r =>
    show ((fun _ => Answer.done) <$> System.addRuleInPlace r) s = _
    rw [Program.map_eq_settle (s.addRuleInPlace_eq r), outcome]
    cases s.addRule r <;> rfl
  | set setting => rfl

end Request

/-- Some requests lead from a new system to this one. -/
inductive Reachable [Scalar α] : System α → Prop where
  | start (settings : Connectives) : Reachable (.ofSettings settings)
  | answered {s t : System α} {request : Request α} {answer : Answer α} :
      Reachable s → request.program s = .ok answer t → Reachable t
  | refused {s t : System α} {request : Request α} {e : Error α} :
      Reachable s → request.program s = .error e t → Reachable t

/-- The system after some requests in a row. -/
def run [Scalar α] (requests : List (Request α)) (s : System α) : System α :=
  requests.foldl (fun s request => request.program.after s) s

/-- Requests in a row lead from reachable systems to reachable systems. -/
theorem reachable_run [Scalar α] (requests : List (Request α)) {s : System α} (h : Reachable s) :
    Reachable (run requests s) :=
  Program.foldl_after_of_results .answered .refused requests h

end FuzzyInference.Sugeno
