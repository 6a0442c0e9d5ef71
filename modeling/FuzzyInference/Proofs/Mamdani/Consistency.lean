import FuzzyInference.Proofs.Condition
import FuzzyInference.Proofs.InputSide
import FuzzyInference.Proofs.Mamdani.Requests
import FuzzyInference.Proofs.WholeNumbers

/-!
# Mamdani systems stay consistent

A Mamdani system keeps its variables in one table and says in two lists which
are inputs and which are outputs, and its rules refer to all of them by key.
`Consistent` says that table, lists and rules fit together. What a request does
is said once (`Effect`), and whatever it does keeps a system consistent
(`Effect.consistent`), so every reachable system is.

Rules stay in order although the tables change under them, because tables only
grow: an admitted rule is admitted for good (`Admits.mono`).
-/

namespace FuzzyInference.Mamdani

variable {α : Type}

namespace System

/-- A rule has conditions about inputs and their terms only, and it concludes a term of an
output. -/
structure Admits (s : System α) (rule : FuzzyInference.Rule VariableKey TermKey) : Prop where
  condition : s.inputSide.Admits rule.condition
  subject : rule.conclusion.subject ∈ s.outputs
  value : ∃ e, s.table.termAt? rule.conclusion.value = some e ∧ e.owner = rule.conclusion.subject

/-- Table, lists and rules fit together. -/
structure Consistent [LE α] (s : System α) : Prop where
  table : s.table.Consistent
  /-- No input is listed twice. -/
  inputs_nodup : s.inputSide.inputs.Nodup
  /-- No output is listed twice. -/
  outputs_nodup : s.outputs.Nodup
  /-- An input is no output. -/
  disjoint : ∀ k ∈ s.inputSide.inputs, k ∉ s.outputs
  /-- Inputs and outputs are all the variables there are. -/
  mem_iff : ∀ k, k ∈ s.inputSide.inputs ∨ k ∈ s.outputs ↔ ∃ v, s.table.variableAt? k = some v
  /-- Rules mention nothing that the system does not have. -/
  rules : ∀ rule ∈ s.rules, s.Admits rule.toRule

theorem Consistent.inputSide [LE α] {s : System α} (hc : s.Consistent) :
    s.inputSide.Consistent where
  table := hc.table
  nodup := hc.inputs_nodup
  known := fun k hk => (hc.mem_iff k).mp (Or.inl hk)

theorem Consistent.conditions [LE α] {s : System α} (hc : s.Consistent) :
    ∀ rule ∈ s.rules, s.inputSide.Admits rule.condition :=
  fun rule hrule => (hc.rules rule hrule).condition

theorem Consistent.exists_output [LE α] {s : System α} (hc : s.Consistent) {o : VariableKey}
    (ho : o ∈ s.outputs) : ∃ v, s.table.variableAt? o = some v :=
  (hc.mem_iff o).mp (Or.inr ho)

theorem checkConclusion_eq_ok_iff {s : System α} {c : Conclusion VariableKey TermKey} :
    s.checkConclusion c = .ok ()
      ↔ c.subject ∈ s.outputs ∧ ∃ e, s.table.termAt? c.value = some e ∧ e.owner = c.subject := by
  rw [← InputSide.owns_iff]
  unfold checkConclusion isOutput
  by_cases houtput : c.subject ∈ s.outputs
  · cases howns : s.table.owns c.subject c.value <;> simp [houtput]
  · simp [houtput]

/-- **A rule passes the check exactly if it is admitted.** -/
theorem checkRule_eq_ok_iff {s : System α} {rule : Rule α} :
    s.checkRule rule = .ok () ↔ s.Admits rule.toRule := by
  unfold checkRule
  rw [InputSide.checkCondition_bind_eq_ok_iff, checkConclusion_eq_ok_iff]
  exact ⟨fun ⟨hcondition, hsubject, hvalue⟩ => ⟨hcondition, hsubject, hvalue⟩,
    fun h => ⟨h.condition, h.subject, h.value⟩⟩

/-- More variables and terms admit no less. -/
theorem Admits.mono {s t : System α} {rule : FuzzyInference.Rule VariableKey TermKey}
    (h : s.Admits rule) (hinputs : s.inputSide.inputs ⊆ t.inputSide.inputs)
    (houtputs : s.outputs ⊆ t.outputs) (htable : s.table.Extends t.table) : t.Admits rule := by
  obtain ⟨e, he, howner⟩ := h.value
  exact ⟨h.condition.mono hinputs htable, houtputs h.subject, e, htable.termAt _ e he, howner⟩

end System

/-! ## What requests do -/

/-- What a system is after a request that is not refused. -/
inductive Effect [Scalar α] (s : System α) : Request α → System α → Prop where
  | addInput {name : String} {min max : α} {key : VariableKey} {table : VariableTable α} :
      s.table.add name min max = .ok (key, table) →
      Effect s (.addInput name min max)
        { s with inputSide :=
            { s.inputSide with table, inputs := s.inputSide.inputs ++ [key] } }
  | addOutput {name : String} {min max : α} {key : VariableKey} {table : VariableTable α} :
      s.table.add name min max = .ok (key, table) →
      Effect s (.addOutput name min max)
        { s with inputSide := { s.inputSide with table }, outputs := s.outputs ++ [key] }
  | addTerm {key : VariableKey} {name : String} {membership : α → α} {term : TermKey}
      {table : VariableTable α} :
      s.table.addTerm key name membership = .ok (term, table) →
      Effect s (.addTerm key name membership)
        { s with inputSide := { s.inputSide with table } }
  | addRule {rule : Rule α} :
      s.Admits rule.toRule → Effect s (.addRule rule) { s with rules := s.rules ++ [rule] }
  | set (setting : Setting) : Effect s (.set setting) (s.configure (setting.change s.settings))
  | rule (condition : Condition) (output : VariableKey) (term : TermKey) :
      Effect s (.rule condition output term) s
  | readRule (text : String) : Effect s (.readRule text) s

variable [Scalar α]

/-- **A request that is answered has its effect.** -/
theorem effect_of_outcome {s t : System α} {request : Request α} {answer : Answer α}
    (h : request.outcome s = .ok (answer, t)) : Effect s request t := by
  cases request with
  | addInput name min max =>
    obtain ⟨⟨key, t'⟩, hadd, h⟩ := map_eq_ok_iff.mp h
    cases h
    obtain ⟨⟨key', side⟩, hside, h⟩ := bind_eq_ok_iff.mp hadd
    obtain ⟨table, htable, rfl⟩ := InputSide.addInput_eq_ok_iff.mp hside
    cases h
    exact .addInput htable
  | addOutput name min max =>
    obtain ⟨⟨key, t'⟩, hadd, h⟩ := map_eq_ok_iff.mp h
    cases h
    obtain ⟨⟨key', table⟩, htable, h⟩ := bind_eq_ok_iff.mp hadd
    cases h
    exact .addOutput htable
  | addTerm key name membership =>
    obtain ⟨⟨term, t'⟩, hadd, h⟩ := map_eq_ok_iff.mp h
    cases h
    obtain ⟨⟨term', side⟩, hside, h⟩ := bind_eq_ok_iff.mp hadd
    obtain ⟨table, htable, rfl⟩ := InputSide.addTerm_eq_ok_iff.mp hside
    cases h
    exact .addTerm htable
  | rule condition output term =>
    obtain ⟨rule, -, h⟩ := map_eq_ok_iff.mp h
    cases h
    exact .rule condition output term
  | readRule text =>
    obtain ⟨rule, -, h⟩ := map_eq_ok_iff.mp h
    cases h
    exact .readRule text
  | addRule rule =>
    obtain ⟨t', hadd, h⟩ := map_eq_ok_iff.mp h
    cases h
    obtain ⟨_, hcheck, h⟩ := bind_eq_ok_iff.mp hadd
    cases h
    exact .addRule (System.checkRule_eq_ok_iff.mp hcheck)
  | set setting =>
    cases h
    exact .set setting

/-- After a request there is its effect, or nothing has changed. -/
theorem effect_or_eq (request : Request α) (s : System α) :
    Effect s request (request.program.after s) ∨ request.program.after s = s :=
  Program.effect_or_eq Request.program_eq effect_of_outcome request s

/-! ## Each request -/

namespace System

omit [Scalar α] in
theorem consistent_ofSettings [LE α] (settings : Settings) :
    (ofSettings settings : System α).Consistent where
  table := VariableTable.consistent_empty
  inputs_nodup := List.nodup_nil
  outputs_nodup := List.nodup_nil
  disjoint := by
    intro k hk
    exact absurd hk List.not_mem_nil
  mem_iff := by
    intro k
    refine ⟨fun h => ?_, fun h => ?_⟩
    · rcases h with h | h <;> exact absurd h List.not_mem_nil
    · obtain ⟨v, hv⟩ := h
      exact absurd hv (Registry.get?_empty_ne k v)
  rules := by
    intro rule hrule
    exact absurd hrule List.not_mem_nil

variable {s t : System α}

/-- A variable that is new to the table is new to both lists. -/
theorem Consistent.not_mem_of_add (hc : s.Consistent) {name : String} {min max : α}
    {key : VariableKey} {table : VariableTable α}
    (h : s.table.add name min max = .ok (key, table)) :
    key ∉ s.inputSide.inputs ∧ key ∉ s.outputs :=
  ⟨VariableTable.not_mem_of_add h fun k hk => (hc.mem_iff k).mp (Or.inl hk),
    VariableTable.not_mem_of_add h fun k hk => (hc.mem_iff k).mp (Or.inr hk)⟩

/-- **A new variable in the table has to be in one of the lists**, and either will do. -/
theorem Consistent.addVariable (hc : s.Consistent) {name : String} {min max : α}
    {key : VariableKey} (h : s.table.add name min max = .ok (key, t.table))
    (hrules : t.rules = s.rules)
    (hlists : t.inputSide.inputs = s.inputSide.inputs ++ [key] ∧ t.outputs = s.outputs
      ∨ t.inputSide.inputs = s.inputSide.inputs ∧ t.outputs = s.outputs ++ [key]) :
    t.Consistent := by
  obtain ⟨hinput, houtput⟩ := hc.not_mem_of_add h
  -- of the two lists together it does not matter which one has grown
  have hboth : ∀ k, k ∈ t.inputSide.inputs ∨ k ∈ t.outputs
      ↔ (k ∈ s.inputSide.inputs ∨ k ∈ s.outputs) ∨ k = key := by
    intro k
    rcases hlists with ⟨hi, ho⟩ | ⟨hi, ho⟩
    · rw [hi, ho, List.mem_append, List.mem_singleton, or_right_comm]
    · rw [hi, ho, List.mem_append, List.mem_singleton, or_assoc]
  have hsub : s.inputSide.inputs ⊆ t.inputSide.inputs ∧ s.outputs ⊆ t.outputs := by
    rcases hlists with ⟨hi, ho⟩ | ⟨hi, ho⟩
    · rw [hi, ho]
      exact ⟨List.subset_append_left _ _, List.Subset.refl _⟩
    · rw [hi, ho]
      exact ⟨List.Subset.refl _, List.subset_append_left _ _⟩
  refine ⟨hc.table.add h, ?_, ?_, ?_, ?_, ?_⟩
  · rcases hlists with ⟨hi, -⟩ | ⟨hi, -⟩
    · rw [hi]
      exact nodup_snoc hc.inputs_nodup hinput
    · rw [hi]
      exact hc.inputs_nodup
  · rcases hlists with ⟨-, ho⟩ | ⟨-, ho⟩
    · rw [ho]
      exact hc.outputs_nodup
    · rw [ho]
      exact nodup_snoc hc.outputs_nodup houtput
  · intro k hk
    rcases hlists with ⟨hi, ho⟩ | ⟨hi, ho⟩
    · rw [hi, List.mem_append, List.mem_singleton] at hk
      rw [ho]
      rcases hk with hk | rfl
      · exact hc.disjoint k hk
      · exact houtput
    · rw [hi] at hk
      rw [ho, List.mem_append, List.mem_singleton]
      intro hout
      rcases hout with hout | rfl
      · exact hc.disjoint k hk hout
      · exact hinput hk
  · intro k
    rw [hboth, hc.mem_iff, VariableTable.exists_variableAt?_add_iff h]
  · intro rule hrule
    rw [hrules] at hrule
    exact (hc.rules rule hrule).mono hsub.1 hsub.2 (VariableTable.extends_add h)

omit [Scalar α] in
theorem Consistent.addTerm [LE α] (hc : s.Consistent) {key : VariableKey} {name : String}
    {membership : α → α} {term : TermKey} {table : VariableTable α}
    (hadd : s.table.addTerm key name membership = .ok (term, table)) :
    ({ s with inputSide := { s.inputSide with table } } : System α).Consistent := by
  have hextends := VariableTable.extends_addTerm hadd
  refine ⟨hc.table.addTerm hadd, hc.inputs_nodup, hc.outputs_nodup, hc.disjoint, fun k => ?_,
    fun rule hrule => ?_⟩
  · exact (hc.mem_iff k).trans (VariableTable.exists_variableAt?_addTerm_iff hadd).symm
  · exact (hc.rules rule hrule).mono (List.Subset.refl _) (List.Subset.refl _) hextends

omit [Scalar α] in
theorem Consistent.addRule [LE α] (hc : s.Consistent) {rule : Rule α}
    (hrule : s.Admits rule.toRule) :
    ({ s with rules := s.rules ++ [rule] } : System α).Consistent := by
  refine ⟨hc.table, hc.inputs_nodup, hc.outputs_nodup, hc.disjoint, hc.mem_iff, ?_⟩
  intro r hr
  rcases List.mem_append.mp hr with hr | hr
  · exact (hc.rules r hr).mono (List.Subset.refl _) (List.Subset.refl _) (.refl _)
  · rw [List.mem_singleton.mp hr]
    exact hrule.mono (List.Subset.refl _) (List.Subset.refl _) (.refl _)

omit [Scalar α] in
theorem Consistent.configure [LE α] (hc : s.Consistent) (settings : Settings) :
    (s.configure settings).Consistent where
  table := hc.table
  inputs_nodup := hc.inputs_nodup
  outputs_nodup := hc.outputs_nodup
  disjoint := hc.disjoint
  mem_iff := hc.mem_iff
  rules := fun rule hrule =>
    (hc.rules rule hrule).mono (List.Subset.refl _) (List.Subset.refl _) (.refl _)

end System

/-- **Every request keeps a system consistent.** -/
theorem Effect.consistent {s t : System α} {request : Request α} (h : Effect s request t)
    (hc : s.Consistent) : t.Consistent := by
  cases h with
  | addInput hadd => exact hc.addVariable hadd rfl (Or.inl ⟨rfl, rfl⟩)
  | addOutput hadd => exact hc.addVariable hadd rfl (Or.inr ⟨rfl, rfl⟩)
  | addTerm hadd => exact hc.addTerm hadd
  | addRule hrule => exact hc.addRule hrule
  | set setting => exact hc.configure _
  | rule condition output term => exact hc
  | readRule text => exact hc

/-! ## Reachable systems -/

/-- **Every reachable system is consistent.** -/
theorem Reachable.consistent {s : System α} (h : Reachable s) : s.Consistent := by
  induction h with
  | start settings => exact System.consistent_ofSettings settings
  | answered _ h ih =>
    rw [← Program.after_eq_of_ok h]
    exact Program.holds_after effect_or_eq Effect.consistent _ ih
  | refused _ h ih =>
    rw [← Program.after_eq_of_error h]
    exact Program.holds_after effect_or_eq Effect.consistent _ ih

/-- **Whatever is asked of a system, its variables, terms, lists and rules stay consistent.** Every
term is listed once, by its owner and by no other variable; no rule has an empty combination; and a
refused request leaves everything as it was, the next keys included. -/
theorem reachable_terms_and_rules {s : System α} (h : Reachable s) :
    s.Consistent
      ∧ (∀ term e k v, s.table.termAt? term = some e → s.table.variableAt? k = some v →
          v.terms.count term = if e.owner = k then 1 else 0)
      ∧ (∀ rule ∈ s.rules,
          rule.condition.ForCombinations fun _ _ children => children ≠ [])
      ∧ ∀ (request : Request α) (e : Error α) (t : System α),
          request.program s = .error e t → t = s := by
  refine ⟨h.consistent, fun term e k v he hv => ?_, fun rule _ => ?_, fun request e t ht => ?_⟩
  · exact h.consistent.table.owned.count_eq he hv
  · exact rule.condition.forCombinations_ne_nil
  · rw [request.program_eq] at ht
    exact eq_of_settle_eq_error ht

open WholeNumbers in
/-- A small system in the making, which refuses a term and a rule on the way. -/
def tipping : List (Request Int) :=
  [.addInput "service" 0 10, .addTerm ⟨1⟩ "poor" id, .addOutput "tips" 0 30,
   .addTerm ⟨2⟩ "cheap" id, .addTerm ⟨3⟩ "generous" id,
   .addRule ⟨⟨.single ⟨⟨1⟩, ⟨1⟩, false, none⟩, ⟨⟨2⟩, ⟨2⟩⟩⟩, 1⟩,
   .addRule ⟨⟨.single ⟨⟨2⟩, ⟨2⟩, false, none⟩, ⟨⟨2⟩, ⟨2⟩⟩⟩, 1⟩]

open WholeNumbers in
theorem reachable_terms_and_rules_tipping :
    (run tipping (.ofSettings {})).Consistent ∧ (run tipping (.ofSettings {})).rules.length = 1 :=
  ⟨(reachable_terms_and_rules (reachable_run tipping (.start {}))).1, by decide⟩

end FuzzyInference.Mamdani
