import FuzzyInference.Proofs.Condition
import FuzzyInference.Proofs.InputSide
import FuzzyInference.Proofs.Sugeno.Requests
import FuzzyInference.Proofs.WholeNumbers

/-!
# Sugeno systems stay consistent

In a Sugeno system the variables of the table are all inputs, and outputs with
their functions are a second pair of registries. What is particular is that
names have to be distinct across the two (`names_disjoint`): no single registry
can see to that, so `addInput` and `addOutput` each compare with the other side,
and `Effect` remembers that they did. As with Mamdani systems, whatever a request
does keeps a system consistent (`Effect.consistent`).
-/

namespace FuzzyInference.Sugeno

variable {α : Type}

namespace System

/-- Outputs list their functions, and a function knows its output. -/
def ownership : Ownership .outputs .functions OutputVariable (OutputFunction α) where
  list := OutputVariable.functions
  owner := OutputFunction.owner
  name := OutputFunction.name

/-- A rule has conditions about inputs and their terms only, and it concludes a function of an
output. -/
structure Admits (s : System α) (rule : Rule) : Prop where
  condition : s.inputSide.Admits rule.condition
  subject : ∃ o, s.outputAt? rule.conclusion.subject = some o
  value : ∃ f, s.functionAt? rule.conclusion.value = some f ∧ f.owner = rule.conclusion.subject

/-- Tables, inputs and rules fit together. -/
structure Consistent [LE α] (s : System α) : Prop where
  table : s.inputSide.table.Consistent
  /-- No input is listed twice. -/
  inputs_nodup : s.inputSide.inputs.Nodup
  /-- The inputs are all the variables there are. -/
  mem_iff : ∀ k, k ∈ s.inputSide.inputs ↔ ∃ v, s.inputSide.table.variableAt? k = some v
  /-- A rule can mention an output. -/
  outputs_valid : ∀ k o, s.outputAt? k = some o → Name.isValid o.name
  /-- Outputs have different names. -/
  outputs_distinct : s.outputs.Distinct OutputVariable.name
  /-- No input has the name of an output. -/
  names_disjoint : ∀ k l v o, s.inputSide.table.variableAt? k = some v → s.outputAt? l = some o →
    v.name ≠ o.name
  /-- Outputs and functions agree on who owns what. -/
  owned : ownership.Holds s.outputs s.functions
  /-- Rules mention nothing that the system does not have. -/
  rules : ∀ rule ∈ s.rules, s.Admits rule

theorem Consistent.inputSide [LE α] {s : System α} (hc : s.Consistent) :
    s.inputSide.Consistent where
  table := hc.table
  nodup := hc.inputs_nodup
  known := fun k hk => (hc.mem_iff k).mp hk

theorem Consistent.conditions [LE α] {s : System α} (hc : s.Consistent) :
    ∀ rule ∈ s.rules, s.inputSide.Admits rule.condition :=
  fun rule hrule => (hc.rules rule hrule).condition

theorem functionsOf_eq (s : System α) (key : OutputKey) :
    s.functionsOf key = ownership.listed s.outputs s.functions key := by
  unfold functionsOf Ownership.listed outputAt?
  cases s.outputs.get? key <;> rfl

theorem outputKey?_eq_none_iff {s : System α} {name : String} :
    s.outputKey? name = none ↔ ∀ k o, s.outputAt? k = some o → o.name ≠ name := by
  unfold outputKey? outputAt?
  rw [Registry.findKey?_eq_none_iff]
  simp only [decide_eq_false_iff_not]

theorem checkConclusion_eq_ok_iff {s : System α} {c : Conclusion OutputKey FunctionKey} :
    s.checkConclusion c = .ok ()
      ↔ (∃ o, s.outputAt? c.subject = some o)
        ∧ ∃ f, s.functionAt? c.value = some f ∧ f.owner = c.subject := by
  have howns : s.owns c.subject c.value
      ↔ ∃ f, s.functionAt? c.value = some f ∧ f.owner = c.subject := by
    unfold owns
    rw [Option.any_eq_true]
    simp only [decide_eq_true_eq]
  rw [← howns]
  unfold checkConclusion
  cases s.outputAt? c.subject with
  | none => simp
  | some o => cases s.owns c.subject c.value <;> simp

/-- **A rule passes the check exactly if it is admitted.** -/
theorem checkRule_eq_ok_iff {s : System α} {rule : Rule} :
    s.checkRule rule = .ok () ↔ s.Admits rule := by
  unfold checkRule
  rw [InputSide.checkCondition_bind_eq_ok_iff, checkConclusion_eq_ok_iff]
  exact ⟨fun ⟨hcondition, hsubject, hvalue⟩ => ⟨hcondition, hsubject, hvalue⟩,
    fun h => ⟨h.condition, h.subject, h.value⟩⟩

/-- More of everything admits no less. -/
theorem Admits.mono {s t : System α} {rule : Rule} (h : s.Admits rule)
    (hinputs : s.inputSide.inputs ⊆ t.inputSide.inputs)
    (htable : s.inputSide.table.Extends t.inputSide.table)
    (houtputs : ∀ k o, s.outputAt? k = some o → ∃ o', t.outputAt? k = some o')
    (hfunctions : ∀ k f, s.functionAt? k = some f → t.functionAt? k = some f) :
    t.Admits rule := by
  obtain ⟨o, ho⟩ := h.subject
  obtain ⟨f, hf, howner⟩ := h.value
  exact ⟨h.condition.mono hinputs htable, houtputs _ o ho, f, hfunctions _ f hf, howner⟩

/-! ## When outputs and functions are taken -/

/-- **An output is taken exactly if its name is fit and new on both sides.** -/
theorem addOutput_eq_ok_iff {s t : System α} {name : String} {key : OutputKey} :
    s.addOutput name = .ok (key, t)
      ↔ Name.isValid name
        ∧ (∀ k v, s.inputSide.table.variableAt? k = some v → v.name ≠ name)
        ∧ (∀ k o, s.outputAt? k = some o → o.name ≠ name)
        ∧ key = s.outputs.nextKey ∧ t = { s with outputs := s.outputs.push { name } } := by
  unfold addOutput
  rw [bind_eq_ok_iff, ← VariableTable.keyOf?_eq_none_iff, ← outputKey?_eq_none_iff]
  refine ⟨fun h => ?_, fun h => ?_⟩
  · obtain ⟨_, hname, h⟩ := h
    split at h
    · exact absurd h (by simp)
    · rename_i hnew
      cases h
      simp only [Bool.or_eq_true, not_or, Bool.not_eq_true, Option.isSome_eq_false_iff,
        Option.isNone_iff_eq_none] at hnew
      exact ⟨VariableTable.check_eq_ok_iff.mp hname, hnew.1, hnew.2, rfl, rfl⟩
  · obtain ⟨hname, hinputs, houtputs, rfl, rfl⟩ := h
    refine ⟨(), VariableTable.check_eq_ok_iff.mpr hname, ?_⟩
    rw [hinputs, houtputs]
    rfl

/-- **A function is taken exactly if its name is fit and new for the output.** -/
theorem addFunction_eq_ok_iff {s t : System α} {key : OutputKey} {name : String}
    {function : LinearFunction α} {k : FunctionKey} :
    s.addFunction key name function = .ok (k, t)
      ↔ Name.isValid name ∧ (∃ o, s.outputAt? key = some o)
        ∧ (¬ (s.functionsOf key).any fun e => e.2.name = name)
        ∧ k = s.functions.nextKey
        ∧ t = { s with
                outputs := s.outputs.modify key fun o =>
                  { o with functions := o.functions ++ [s.functions.nextKey] }
                functions := s.functions.push { name, owner := key, function } } := by
  unfold addFunction
  rw [bind_eq_ok_iff]
  refine ⟨fun h => ?_, fun h => ?_⟩
  · obtain ⟨_, hname, h⟩ := h
    split at h
    · exact absurd h (by simp)
    · rename_i o ho
      split at h
      · exact absurd h (by simp)
      · rename_i hnew
        cases h
        exact ⟨VariableTable.check_eq_ok_iff.mp hname, ⟨o, ho⟩, hnew, rfl, rfl⟩
  · obtain ⟨hname, ⟨o, ho⟩, hnew, rfl, rfl⟩ := h
    refine ⟨(), VariableTable.check_eq_ok_iff.mpr hname, ?_⟩
    rw [ho]
    exact if_neg hnew

end System

/-! ## What requests do -/

/-- What a system is after a request that is not refused. Names have been compared across inputs
and outputs, and that is what the first two say beyond the table and the registry. -/
inductive Effect [Scalar α] (s : System α) : Request α → System α → Prop where
  | addInput {name : String} {min max : α} {key : VariableKey} {table : VariableTable α} :
      (∀ k o, s.outputAt? k = some o → o.name ≠ name) →
      s.inputSide.table.add name min max = .ok (key, table) →
      Effect s (.addInput name min max)
        { s with inputSide :=
            { s.inputSide with table, inputs := s.inputSide.inputs ++ [key] } }
  | addOutput {name : String} :
      Name.isValid name →
      (∀ k v, s.inputSide.table.variableAt? k = some v → v.name ≠ name) →
      (∀ k o, s.outputAt? k = some o → o.name ≠ name) →
      Effect s (.addOutput name) { s with outputs := s.outputs.push { name } }
  | addTerm {key : VariableKey} {name : String} {membership : α → α} {term : TermKey}
      {table : VariableTable α} :
      s.inputSide.table.addTerm key name membership = .ok (term, table) →
      Effect s (.addTerm key name membership)
        { s with inputSide := { s.inputSide with table } }
  | addFunction {key : OutputKey} {name : String} {function : LinearFunction α} :
      Name.isValid name →
      (∃ o, s.outputAt? key = some o) →
      (¬ (s.functionsOf key).any fun e => e.2.name = name) →
      Effect s (.addFunction key name function)
        { s with
          outputs := s.outputs.modify key fun o =>
            { o with functions := o.functions ++ [s.functions.nextKey] }
          functions := s.functions.push { name, owner := key, function } }
  | addRule {rule : Rule} :
      s.Admits rule → Effect s (.addRule rule) { s with rules := s.rules ++ [rule] }
  | set (setting : Setting) : Effect s (.set setting) (s.configure (setting.change s.settings))
  | linearFunction (coefficients : List (VariableKey × α)) (constant : α) :
      Effect s (.linearFunction coefficients constant) s
  | linearFunctionOfList (values : List α) : Effect s (.linearFunctionOfList values) s
  | rule (condition : Condition) (output : OutputKey) (function : FunctionKey) :
      Effect s (.rule condition output function) s
  | readRule (text : String) : Effect s (.readRule text) s

variable [Scalar α]

/-- **A request that is answered has its effect.** -/
theorem effect_of_outcome {s t : System α} {request : Request α} {answer : Answer α}
    (h : request.outcome s = .ok (answer, t)) : Effect s request t := by
  cases request with
  | addInput name min max =>
    obtain ⟨⟨key, t'⟩, hadd, h⟩ := map_eq_ok_iff.mp h
    cases h
    unfold System.addInput at hadd
    split at hadd
    · exact absurd hadd (by simp)
    · rename_i hnew
      rw [Bool.not_eq_true, Option.isSome_eq_false_iff, Option.isNone_iff_eq_none,
        System.outputKey?_eq_none_iff] at hnew
      obtain ⟨⟨key', side⟩, hside, h⟩ := bind_eq_ok_iff.mp hadd
      obtain ⟨table, htable, rfl⟩ := InputSide.addInput_eq_ok_iff.mp hside
      cases h
      exact .addInput hnew htable
  | addTerm key name membership =>
    obtain ⟨⟨term, t'⟩, hadd, h⟩ := map_eq_ok_iff.mp h
    cases h
    obtain ⟨⟨term', side⟩, hside, h⟩ := bind_eq_ok_iff.mp hadd
    obtain ⟨table, htable, rfl⟩ := InputSide.addTerm_eq_ok_iff.mp hside
    cases h
    exact .addTerm htable
  | addOutput name =>
    obtain ⟨⟨key, t'⟩, hadd, h⟩ := map_eq_ok_iff.mp h
    cases h
    obtain ⟨hname, hinputs, houtputs, -, rfl⟩ := System.addOutput_eq_ok_iff.mp hadd
    exact .addOutput hname hinputs houtputs
  | addFunction key name function =>
    obtain ⟨⟨k, t'⟩, hadd, h⟩ := map_eq_ok_iff.mp h
    cases h
    obtain ⟨hname, houtput, hnew, -, rfl⟩ := System.addFunction_eq_ok_iff.mp hadd
    exact .addFunction hname houtput hnew
  | addRule rule =>
    obtain ⟨t', hadd, h⟩ := map_eq_ok_iff.mp h
    cases h
    obtain ⟨_, hcheck, h⟩ := bind_eq_ok_iff.mp hadd
    cases h
    exact .addRule (System.checkRule_eq_ok_iff.mp hcheck)
  | set setting =>
    cases h
    exact .set setting
  | linearFunction coefficients constant =>
    obtain ⟨_, -, h⟩ := map_eq_ok_iff.mp h
    cases h
    exact .linearFunction coefficients constant
  | linearFunctionOfList values =>
    obtain ⟨_, -, h⟩ := map_eq_ok_iff.mp h
    cases h
    exact .linearFunctionOfList values
  | rule condition output function =>
    obtain ⟨_, -, h⟩ := map_eq_ok_iff.mp h
    cases h
    exact .rule condition output function
  | readRule text =>
    obtain ⟨_, -, h⟩ := map_eq_ok_iff.mp h
    cases h
    exact .readRule text

/-- After a request there is its effect, or nothing has changed. -/
theorem effect_or_eq (request : Request α) (s : System α) :
    Effect s request (request.program.after s) ∨ request.program.after s = s :=
  Program.effect_or_eq Request.program_eq effect_of_outcome request s

/-! ## Each request -/

namespace System

variable {s t : System α}

omit [Scalar α] in
theorem consistent_ofSettings [LE α] (settings : Connectives) :
    (ofSettings settings : System α).Consistent where
  table := VariableTable.consistent_empty
  inputs_nodup := List.nodup_nil
  mem_iff := by
    intro k
    refine ⟨fun hk => absurd hk List.not_mem_nil, fun hk => ?_⟩
    obtain ⟨v, hv⟩ := hk
    exact absurd hv (Registry.get?_empty_ne k v)
  outputs_valid := fun k o ho => absurd ho (Registry.get?_empty_ne k o)
  outputs_distinct := Registry.distinct_empty _
  names_disjoint := fun k _ v _ hv => absurd hv (Registry.get?_empty_ne k v)
  owned := Ownership.holds_empty _
  rules := fun rule hrule => absurd hrule List.not_mem_nil

/-- **A new input keeps clear of the outputs.** -/
theorem Consistent.addInput (hc : s.Consistent) {name : String} {min max : α} {key : VariableKey}
    {table : VariableTable α} (hnew : ∀ k o, s.outputAt? k = some o → o.name ≠ name)
    (hadd : s.inputSide.table.add name min max = .ok (key, table)) :
    ({ s with inputSide := { s.inputSide with table, inputs := s.inputSide.inputs ++ [key] } } :
      System α).Consistent := by
  have hextends := VariableTable.extends_add hadd
  have hkey : key ∉ s.inputSide.inputs :=
    VariableTable.not_mem_of_add hadd fun k => (hc.mem_iff k).mp
  refine ⟨hc.table.add hadd, nodup_snoc hc.inputs_nodup hkey, fun k => ?_, hc.outputs_valid,
    hc.outputs_distinct, fun k l w o hw ho => ?_, hc.owned, fun rule hrule => ?_⟩
  · rw [List.mem_append, List.mem_singleton, hc.mem_iff]
    exact (VariableTable.exists_variableAt?_add_iff hadd).symm
  · rcases VariableTable.variableAt?_add hadd hw with ⟨-, hname⟩ | ⟨-, hw⟩
    · rw [hname]
      exact (hnew l o ho).symm
    · exact hc.names_disjoint k l w o hw ho
  · exact (hc.rules rule hrule).mono (List.subset_append_left _ _) hextends
      (fun k o ho => ⟨o, ho⟩) fun k f hf => hf

section Rest

omit [Scalar α]

variable [LE α]

theorem Consistent.addTerm (hc : s.Consistent) {key : VariableKey} {name : String}
    {membership : α → α} {term : TermKey} {table : VariableTable α}
    (hadd : s.inputSide.table.addTerm key name membership = .ok (term, table)) :
    ({ s with inputSide := { s.inputSide with table } } : System α).Consistent := by
  have hextends := VariableTable.extends_addTerm hadd
  refine ⟨hc.table.addTerm hadd, hc.inputs_nodup, fun k => ?_, hc.outputs_valid,
    hc.outputs_distinct, fun k l v o hv ho => ?_, hc.owned, fun rule hrule => ?_⟩
  · exact (hc.mem_iff k).trans (VariableTable.exists_variableAt?_addTerm_iff hadd).symm
  · obtain ⟨w, hw, hname, -⟩ := VariableTable.variableAt?_addTerm hadd hv
    rw [← hname]
    exact hc.names_disjoint k l w o hw ho
  · exact (hc.rules rule hrule).mono (List.Subset.refl _) hextends (fun k o ho => ⟨o, ho⟩)
      fun k f hf => hf

/-- **A new output keeps clear of the inputs.** -/
theorem Consistent.addOutput (hc : s.Consistent) {name : String} (hname : Name.isValid name)
    (hinputs : ∀ k v, s.inputSide.table.variableAt? k = some v → v.name ≠ name)
    (houtputs : ∀ k o, s.outputAt? k = some o → o.name ≠ name) :
    ({ s with outputs := s.outputs.push { name } } : System α).Consistent := by
  refine ⟨hc.table, hc.inputs_nodup, hc.mem_iff, fun k o ho => ?_,
    hc.outputs_distinct.push houtputs, fun k l v o hv ho => ?_, hc.owned.pushOwner rfl,
    fun rule hrule => ?_⟩
  · rcases Registry.get?_push_cases ho with ⟨-, rfl⟩ | ⟨-, ho⟩
    · exact hname
    · exact hc.outputs_valid k o ho
  · rcases Registry.get?_push_cases ho with ⟨-, rfl⟩ | ⟨-, ho⟩
    · exact hinputs k v hv
    · exact hc.names_disjoint k l v o hv ho
  · exact (hc.rules rule hrule).mono (List.Subset.refl _) (.refl _)
      (fun k o ho => ⟨o, Registry.get?_push_of_eq_some _ ho⟩) fun k f hf => hf

/-- **A new function is entered on both sides.** -/
theorem Consistent.addFunction (hc : s.Consistent) {key : OutputKey} {name : String}
    {function : LinearFunction α} (hname : Name.isValid name) {o : OutputVariable}
    (ho : s.outputAt? key = some o) (hnew : ¬ (s.functionsOf key).any fun e => e.2.name = name) :
    ({ s with
        outputs := s.outputs.modify key fun o =>
          { o with functions := o.functions ++ [s.functions.nextKey] }
        functions := s.functions.push { name, owner := key, function } } :
      System α).Consistent := by
  rw [functionsOf_eq] at hnew
  -- outputs keep their names when one of them lists one function more
  have hold : ∀ l o', (s.outputs.modify key fun o =>
      { o with functions := o.functions ++ [s.functions.nextKey] }).get? l = some o' →
      ∃ o, s.outputAt? l = some o ∧ o.name = o'.name := by
    intro l o' ho'
    obtain ⟨o, hget, ⟨-, rfl⟩ | ⟨-, rfl⟩⟩ := Registry.get?_modify_cases ho'
    · exact ⟨o, hget, rfl⟩
    · exact ⟨_, hget, rfl⟩
  refine ⟨hc.table, hc.inputs_nodup, hc.mem_iff, fun l o' ho' => ?_,
    hc.outputs_distinct.modify fun _ => rfl, fun l m v o' hv ho' => ?_, ?_, fun rule hrule => ?_⟩
  · obtain ⟨o, hget, hsame⟩ := hold l o' ho'
    rw [← hsame]
    exact hc.outputs_valid l o hget
  · obtain ⟨o, hget, hsame⟩ := hold m o' ho'
    rw [← hsame]
    exact hc.names_disjoint l m v o hv hget
  · exact Ownership.Holds.pushItem (c := { name, owner := key, function }) hc.owned ho rfl hname
      (hc.owned.name_ne_of_any hnew) fun _ => rfl
  · refine (hc.rules rule hrule).mono (List.Subset.refl _) (.refl _) (fun l o hget => ?_)
      fun l f hf => Registry.get?_push_of_eq_some _ hf
    obtain ⟨o', hget', -⟩ := Registry.exists_get?_modify hget
    exact ⟨o', hget'⟩

theorem Consistent.addRule (hc : s.Consistent) {rule : Rule} (hrule : s.Admits rule) :
    ({ s with rules := s.rules ++ [rule] } : System α).Consistent := by
  have hkept : ∀ r, s.Admits r → ({ s with rules := s.rules ++ [rule] } : System α).Admits r :=
    fun r hr => ⟨hr.condition, hr.subject, hr.value⟩
  refine ⟨hc.table, hc.inputs_nodup, hc.mem_iff, hc.outputs_valid, hc.outputs_distinct,
    hc.names_disjoint, hc.owned, fun r hr => ?_⟩
  rcases List.mem_append.mp hr with hr | hr
  · exact hkept r (hc.rules r hr)
  · rw [List.mem_singleton.mp hr]
    exact hkept rule hrule

theorem Consistent.configure (hc : s.Consistent) (settings : Connectives) :
    (s.configure settings).Consistent where
  table := hc.table
  inputs_nodup := hc.inputs_nodup
  mem_iff := hc.mem_iff
  outputs_valid := hc.outputs_valid
  outputs_distinct := hc.outputs_distinct
  names_disjoint := hc.names_disjoint
  owned := hc.owned
  rules := fun rule hrule =>
    ⟨(hc.rules rule hrule).condition, (hc.rules rule hrule).subject, (hc.rules rule hrule).value⟩

end Rest

end System

/-- **Every request keeps a system consistent.** -/
theorem Effect.consistent {s t : System α} {request : Request α} (h : Effect s request t)
    (hc : s.Consistent) : t.Consistent := by
  cases h with
  | addInput hnew hadd => exact hc.addInput hnew hadd
  | addTerm hadd => exact hc.addTerm hadd
  | addOutput hname hinputs houtputs => exact hc.addOutput hname hinputs houtputs
  | addFunction hname houtput hnew =>
    obtain ⟨o, ho⟩ := houtput
    exact hc.addFunction hname ho hnew
  | addRule hrule => exact hc.addRule hrule
  | set setting => exact hc.configure _
  -- what remains asks for a function or a rule and changes nothing
  | _ => exact hc

/-! ## Reachable systems -/

/-- **Every reachable system is consistent.** -/
theorem Reachable.consistent {s : System α} (h : Reachable s) : s.Consistent := by
  induction h with
  | start settings => exact System.consistent_ofSettings settings
  | answered _ h ih =>
    rw [← Program.after_eq_of_ok h]
    exact Program.holds_after effect_or_eq Effect.consistent _ ih
  | refused _ h ih =>
    rw [← Program.after_eq_of_error h]
    exact Program.holds_after effect_or_eq Effect.consistent _ ih

/-- **Whatever is asked of a system, its inputs, outputs, terms, functions and rules stay
consistent.** Every term and every function is listed once, by its owner and by nobody else; no
rule has an empty combination; and a refused request leaves everything as it was, the next keys
included. -/
theorem reachable_functions_and_rules {s : System α} (h : Reachable s) :
    s.Consistent
      ∧ (∀ term e k v, s.inputSide.table.termAt? term = some e →
          s.inputSide.table.variableAt? k = some v →
          v.terms.count term = if e.owner = k then 1 else 0)
      ∧ (∀ function f k o, s.functionAt? function = some f → s.outputAt? k = some o →
          o.functions.count function = if f.owner = k then 1 else 0)
      ∧ (∀ rule ∈ s.rules,
          rule.condition.ForCombinations fun _ _ children => children ≠ [])
      ∧ ∀ (request : Request α) (e : Error α) (t : System α),
          request.program s = .error e t → t = s := by
  refine ⟨h.consistent, fun term e k v he hv => ?_, fun function f k o hf ho => ?_,
    fun rule _ => ?_, fun request e t ht => ?_⟩
  · exact h.consistent.table.owned.count_eq he hv
  · exact h.consistent.owned.count_eq hf ho
  · exact rule.condition.forCombinations_ne_nil
  · rw [request.program_eq] at ht
    exact eq_of_settle_eq_error ht

open WholeNumbers in
/-- A small system in the making, which refuses an output and a rule on the way. -/
def cruising : List (Request Int) :=
  [.addInput "speed" 0 200, .addTerm ⟨1⟩ "high" id, .addOutput "speed", .addOutput "throttle",
   .addFunction ⟨1⟩ "ease" ⟨{}, 0⟩,
   .addRule ⟨.single ⟨⟨1⟩, ⟨1⟩, false, none⟩, ⟨⟨1⟩, ⟨1⟩⟩⟩,
   .addRule ⟨.single ⟨⟨1⟩, ⟨1⟩, false, none⟩, ⟨⟨1⟩, ⟨2⟩⟩⟩]

open WholeNumbers in
theorem reachable_functions_and_rules_cruising :
    (run cruising (.ofSettings {})).Consistent ∧ (run cruising (.ofSettings {})).rules.length = 1 :=
  ⟨(reachable_functions_and_rules (reachable_run cruising (.start {}))).1, by decide⟩

end FuzzyInference.Sugeno
