import FuzzyInference.Proofs.Mamdani.Consistency
import FuzzyInference.Proofs.Sugeno.Consistency
import FuzzyInference.Proofs.Vocabularies

/-!
# Rules and their texts

A rule that a system accepts can be written in the names of the system and read
back, provided its condition has a shape that the grammar has words for; and
whatever the system reads has that shape (`read_back`). Consistency of reachable
systems is what makes names and keys correspond. What has to be assumed besides
is that terms and functions are not called like variables, since systems do not
see to that.
-/

namespace FuzzyInference

open RuleText

/-! ## Tables -/

namespace VariableTable

variable {α : Type}

theorem map_key_vocabularies (t : VariableTable α) (keys : List VariableKey) :
    (t.vocabularies keys).map (·.key) = keys := by
  unfold vocabularies
  rw [List.map_map]
  exact List.map_id keys

/-- The vocabularies of a consistent table say what its variables and terms are called. -/
theorem Consistent.named [LE α] {t : VariableTable α} (h : t.Consistent) {keys : List VariableKey}
    (hnodup : keys.Nodup) (hkeys : ∀ k ∈ keys, ∃ v, t.variableAt? k = some v) :
    ownership.Named Variable.name t.vars t.terms (t.vocabularies keys) where
  holds := h.owned
  valid := fun k v hv => (h.valid k v hv).1
  distinct := h.distinct
  nodup := by
    rw [map_key_vocabularies]
    exact hnodup
  entry := by
    intro v hv
    obtain ⟨k, hk, rfl⟩ := List.mem_map.mp hv
    obtain ⟨w, hw⟩ := hkeys k hk
    refine ⟨w, hw, ?_, ?_⟩
    · rw [hw]
    · rw [termsOf_eq]
      rfl

end VariableTable

/-- Propositions are admitted if they are about inputs in the vocabularies and their terms. -/
theorem InputSide.admits_iff {α : Type} {s : InputSide α} {c : Condition} :
    s.Admits c ↔ ∀ p ∈ c.propositions,
      p.subject ∈ (s.table.vocabularies s.inputs).map (·.key)
        ∧ VariableTable.ownership.Owns s.table.terms p.subject p.term := by
  rw [VariableTable.map_key_vocabularies]
  rfl

/-! ## Mamdani systems -/

namespace Mamdani.System

variable {α : Type}

/-- What variables and terms are called in the text of a rule. -/
def naming (s : System α) : Naming VariableKey TermKey where
  input := s.table.vars.nameOf Variable.name
  term := s.table.terms.nameOf Term.name
  output := s.table.vars.nameOf Variable.name
  value := s.table.terms.nameOf Term.name

/-- No term is called like a variable. -/
def NamesApart (s : System α) : Prop := s.table.terms.Apart Term.name Variable.name s.table.vars

instance (s : System α) : Decidable s.NamesApart :=
  inferInstanceAs (Decidable (s.table.terms.Apart Term.name Variable.name s.table.vars))

variable [Scalar α] {s : System α}

theorem Consistent.named_inputs (h : s.Consistent) :
    VariableTable.ownership.Named Variable.name s.table.vars s.table.terms
      (s.table.vocabularies s.inputSide.inputs) :=
  h.table.named h.inputs_nodup fun k hk => (h.mem_iff k).mp (Or.inl hk)

theorem Consistent.named_outputs (h : s.Consistent) :
    VariableTable.ownership.Named Variable.name s.table.vars s.table.terms
      (s.table.vocabularies s.outputs) :=
  h.table.named h.outputs_nodup fun k hk => (h.mem_iff k).mp (Or.inr hk)

theorem Consistent.wellNamed (h : s.Consistent) (hnames : s.NamesApart) :
    WellNamed (s.table.vocabularies s.inputSide.inputs) (s.table.vocabularies s.outputs) := by
  refine FuzzyInference.wellNamed h.named_inputs h.named_outputs (fun v hv w hw heq => ?_)
    ⟨hnames, hnames⟩ ⟨hnames, hnames⟩
  -- variables of one name are one, and it would be an input and an output
  obtain ⟨b, hb, hvname, -⟩ := h.named_inputs.entry v hv
  obtain ⟨c, hc, hwname, -⟩ := h.named_outputs.entry w hw
  have hkey := h.table.distinct v.key w.key b c hb hc (hvname.symm.trans (heq.trans hwname))
  have hinput : v.key ∈ s.inputSide.inputs := by
    rw [← s.table.map_key_vocabularies s.inputSide.inputs]
    exact List.mem_map_of_mem hv
  have houtput : w.key ∈ s.outputs := by
    rw [← s.table.map_key_vocabularies s.outputs]
    exact List.mem_map_of_mem hw
  exact h.disjoint v.key hinput (hkey ▸ houtput)

theorem readRule_eq_ok_iff {text : String} {rule : Rule α} :
    s.readRule text = .ok rule
      ↔ ∃ r, RuleText.read (s.table.vocabularies s.inputSide.inputs)
          (s.table.vocabularies s.outputs) text = .ok r ∧ rule = { r with weight := 1 } := by
  unfold readRule
  dsimp only
  split
  · rename_i r hread
    rw [hread]
    exact ⟨fun h => ⟨r, rfl, (Except.ok.inj h).symm⟩, fun ⟨r', hr', h⟩ => by cases hr'; rw [h]⟩
  · rename_i e hread
    rw [hread]
    exact ⟨fun h => absurd h (by simp), fun ⟨_, h, _⟩ => absurd h (by simp)⟩

/-- **An admitted rule is read back from its text.** -/
theorem Consistent.readRule_rule (h : s.Consistent) (hnames : s.NamesApart)
    {rule : FuzzyInference.Rule VariableKey TermKey} (hrule : s.Admits rule)
    (hw : Writable rule.condition) :
    s.readRule (s.naming.rule rule) = .ok { rule with weight := 1 } := by
  have hsubject : rule.conclusion.subject ∈ (s.table.vocabularies s.outputs).map (·.key) := by
    rw [VariableTable.map_key_vocabularies]
    exact hrule.subject
  have hread := read_rule h.named_inputs h.named_outputs (n := s.naming) rfl rfl rfl rfl
    (h.wellNamed hnames) (InputSide.admits_iff.mp hrule.condition) ⟨hsubject, hrule.value⟩ hw
  exact readRule_eq_ok_iff.mpr ⟨rule, hread, rfl⟩

/-- **What is read is admitted**, whatever things are called. -/
theorem Consistent.admits_of_read (h : s.Consistent) {text : String} {rule : Rule α}
    (hr : s.readRule text = .ok rule) : s.Admits rule.toRule := by
  obtain ⟨r, hread, rfl⟩ := readRule_eq_ok_iff.mp hr
  obtain ⟨hcondition, hsubject, hvalue⟩ := owns_of_read h.named_inputs h.named_outputs hread
  rw [VariableTable.map_key_vocabularies] at hsubject
  exact ⟨InputSide.admits_iff.mpr hcondition, hsubject, hvalue⟩

/-- What is read is admitted and can be written. -/
theorem Consistent.admits_of_readRule (h : s.Consistent) (hnames : s.NamesApart) {text : String}
    {rule : Rule α} (hr : s.readRule text = .ok rule) :
    s.Admits rule.toRule ∧ Writable rule.condition := by
  refine ⟨h.admits_of_read hr, ?_⟩
  obtain ⟨r, hread, rfl⟩ := readRule_eq_ok_iff.mp hr
  obtain ⟨lexicon, hl⟩ := exists_lexicon (h.wellNamed hnames)
  exact writable_of_isSentence hl
    (isSentence_of_read hl h.named_inputs.nodup h.named_outputs.nodup hread)

end Mamdani.System

/-! ## Sugeno systems -/

namespace Sugeno.System

variable {α : Type}

/-- What variables, terms and functions are called in the text of a rule. -/
def naming (s : System α) : Naming OutputKey FunctionKey where
  input := s.inputSide.table.vars.nameOf Variable.name
  term := s.inputSide.table.terms.nameOf Term.name
  output := s.outputs.nameOf OutputVariable.name
  value := s.functions.nameOf OutputFunction.name

/-- Neither terms nor functions are called like an input or an output. -/
def NamesApart (s : System α) : Prop :=
  (s.inputSide.table.terms.Apart Term.name Variable.name s.inputSide.table.vars
      ∧ s.inputSide.table.terms.Apart Term.name OutputVariable.name s.outputs)
    ∧ s.functions.Apart OutputFunction.name Variable.name s.inputSide.table.vars
      ∧ s.functions.Apart OutputFunction.name OutputVariable.name s.outputs

instance (s : System α) : Decidable s.NamesApart := by
  unfold NamesApart
  infer_instance

theorem map_key_vocabularies (s : System α) : s.vocabularies.map (·.key) = s.outputs.keys := by
  unfold vocabularies Registry.keys
  rw [List.map_map]
  rfl

theorem mem_keys_iff {s : System α} {k : OutputKey} :
    k ∈ s.vocabularies.map (·.key) ↔ ∃ o, s.outputAt? k = some o := by
  rw [map_key_vocabularies]
  exact Registry.mem_keys_iff

theorem readRule_eq_ok_iff {s : System α} {text : String} {rule : Rule} :
    s.readRule text = .ok rule
      ↔ RuleText.read (s.inputSide.table.vocabularies s.inputSide.inputs) s.vocabularies text
        = .ok rule := by
  unfold readRule
  split
  · rename_i r hread
    rw [hread]
    exact ⟨fun h => congrArg _ (Except.ok.inj h), fun h => congrArg _ (Except.ok.inj h)⟩
  · rename_i e hread
    rw [hread]
    exact ⟨fun h => absurd h (by simp), fun h => absurd h (by simp)⟩

variable [Scalar α] {s : System α}

theorem Consistent.named_inputs (h : s.Consistent) :
    VariableTable.ownership.Named Variable.name s.inputSide.table.vars
      s.inputSide.table.terms (s.inputSide.table.vocabularies s.inputSide.inputs) :=
  h.table.named h.inputs_nodup fun k hk => (h.mem_iff k).mp hk

theorem Consistent.named_outputs (h : s.Consistent) :
    ownership.Named OutputVariable.name s.outputs s.functions s.vocabularies where
  holds := h.owned
  valid := h.outputs_valid
  distinct := h.outputs_distinct
  nodup := by
    rw [map_key_vocabularies]
    exact Registry.nodup_keys _
  entry := by
    intro v hv
    obtain ⟨⟨k, o⟩, hmem, rfl⟩ := List.mem_map.mp hv
    refine ⟨o, Registry.mem_toList_iff.mp hmem, rfl, ?_⟩
    rw [← functionsOf_eq]
    rfl

theorem Consistent.wellNamed (h : s.Consistent) (hnames : s.NamesApart) :
    WellNamed (s.inputSide.table.vocabularies s.inputSide.inputs) s.vocabularies := by
  refine FuzzyInference.wellNamed h.named_inputs h.named_outputs (fun v hv w hw heq => ?_)
    hnames.1 hnames.2
  obtain ⟨b, hb, hvname, -⟩ := h.named_inputs.entry v hv
  obtain ⟨c, hc, hwname, -⟩ := h.named_outputs.entry w hw
  exact h.names_disjoint v.key w.key b c hb hc (hvname.symm.trans (heq.trans hwname))

/-- **An admitted rule is read back from its text.** -/
theorem Consistent.readRule_rule (h : s.Consistent) (hnames : s.NamesApart) {rule : Rule}
    (hrule : s.Admits rule) (hw : Writable rule.condition) :
    s.readRule (s.naming.rule rule) = .ok rule := by
  have hread := read_rule h.named_inputs h.named_outputs (n := s.naming) rfl rfl rfl rfl
    (h.wellNamed hnames) (InputSide.admits_iff.mp hrule.condition)
    ⟨mem_keys_iff.mpr hrule.subject, hrule.value⟩ hw
  exact readRule_eq_ok_iff.mpr hread

/-- **What is read is admitted**, whatever things are called. -/
theorem Consistent.admits_of_read (h : s.Consistent) {text : String} {rule : Rule}
    (hr : s.readRule text = .ok rule) : s.Admits rule := by
  obtain ⟨hcondition, hsubject, hvalue⟩ :=
    owns_of_read h.named_inputs h.named_outputs (readRule_eq_ok_iff.mp hr)
  exact ⟨InputSide.admits_iff.mpr hcondition, mem_keys_iff.mp hsubject, hvalue⟩

/-- What is read is admitted and can be written. -/
theorem Consistent.admits_of_readRule (h : s.Consistent) (hnames : s.NamesApart) {text : String}
    {rule : Rule} (hr : s.readRule text = .ok rule) : s.Admits rule ∧ Writable rule.condition := by
  obtain ⟨lexicon, hl⟩ := exists_lexicon (h.wellNamed hnames)
  have hs := isSentence_of_read hl h.named_inputs.nodup h.named_outputs.nodup
    (readRule_eq_ok_iff.mp hr)
  exact ⟨h.admits_of_read hr, writable_of_isSentence hl hs⟩

end Sugeno.System

/-! ## Both kinds -/

/-- **A system reads back every rule that it accepts and that can be written, and reads no other.**
This is so for every reachable system, of either kind, in which no term and no function is called
like a variable. -/
theorem read_back {α : Type} [Scalar α] :
    (∀ s : Mamdani.System α, Mamdani.Reachable s → s.NamesApart →
      (∀ condition conclusion, s.inputSide.checkCondition condition = .ok () →
          s.checkConclusion conclusion = .ok () → Writable condition →
          s.readRule (s.naming.rule ⟨condition, conclusion⟩)
            = .ok { condition, conclusion, weight := 1 })
        ∧ ∀ text rule, s.readRule text = .ok rule →
          s.inputSide.checkCondition rule.condition = .ok ()
            ∧ s.checkConclusion rule.conclusion = .ok () ∧ Writable rule.condition)
    ∧ ∀ s : Sugeno.System α, Sugeno.Reachable s → s.NamesApart →
      (∀ condition conclusion, s.inputSide.checkCondition condition = .ok () →
          s.checkConclusion conclusion = .ok () → Writable condition →
          s.readRule (s.naming.rule ⟨condition, conclusion⟩) = .ok { condition, conclusion })
        ∧ ∀ text rule, s.readRule text = .ok rule →
          s.inputSide.checkCondition rule.condition = .ok ()
            ∧ s.checkConclusion rule.conclusion = .ok () ∧ Writable rule.condition := by
  refine ⟨fun s hs hnames => ⟨fun c d hc hd hw => ?_, fun text rule hr => ?_⟩,
    fun s hs hnames => ⟨fun c d hc hd hw => ?_, fun text rule hr => ?_⟩⟩
  · obtain ⟨hsubject, hvalue⟩ := Mamdani.System.checkConclusion_eq_ok_iff.mp hd
    have hrule : s.Admits ⟨c, d⟩ :=
      ⟨InputSide.checkCondition_eq_ok_iff.mp hc, hsubject, hvalue⟩
    exact hs.consistent.readRule_rule hnames hrule hw
  · obtain ⟨hrule, hw⟩ := hs.consistent.admits_of_readRule hnames hr
    exact ⟨InputSide.checkCondition_eq_ok_iff.mpr hrule.condition,
      Mamdani.System.checkConclusion_eq_ok_iff.mpr ⟨hrule.subject, hrule.value⟩, hw⟩
  · obtain ⟨hsubject, hvalue⟩ := Sugeno.System.checkConclusion_eq_ok_iff.mp hd
    have hrule : s.Admits ⟨c, d⟩ :=
      ⟨InputSide.checkCondition_eq_ok_iff.mp hc, hsubject, hvalue⟩
    exact hs.consistent.readRule_rule hnames hrule hw
  · obtain ⟨hrule, hw⟩ := hs.consistent.admits_of_readRule hnames hr
    exact ⟨InputSide.checkCondition_eq_ok_iff.mpr hrule.condition,
      Sugeno.System.checkConclusion_eq_ok_iff.mpr ⟨hrule.subject, hrule.value⟩, hw⟩

/-- A combination within a combination, with a hedge and a negation. -/
def mixed : Condition :=
  .combination .and false
    (.combination .or false (.single ⟨⟨1⟩, ⟨1⟩, false, none⟩)
      [.single ⟨⟨1⟩, ⟨1⟩, false, some .very⟩])
    [.single ⟨⟨1⟩, ⟨1⟩, true, none⟩]

open WholeNumbers in
/-- A rule of either kind, read from its text. -/
theorem read_back_tipping_and_cruising :
    ((Mamdani.run Mamdani.tipping (.ofSettings {})).readRule
        "if (service is poor or service is very poor) and service is not poor then tips is cheap"
        = .ok ⟨⟨mixed, ⟨⟨2⟩, ⟨2⟩⟩⟩, 1⟩ ∧ Writable mixed)
      ∧ (Sugeno.run Sugeno.cruising (.ofSettings {})).readRule
        "if (speed is high or speed is very high) and speed is not high then throttle is ease"
        = .ok ⟨mixed, ⟨⟨1⟩, ⟨1⟩⟩⟩ ∧ Writable mixed := by
  have hw : Writable mixed :=
    ⟨by simp [mixed, Condition.ForCombinations, Condition.ForCombinationsOf], by decide⟩
  refine ⟨?_, ?_⟩
  · obtain ⟨hread, hback⟩ :=
      read_back.1 _ (Mamdani.reachable_run Mamdani.tipping (.start {})) (by decide)
    have h := hread mixed ⟨⟨2⟩, ⟨2⟩⟩ rfl rfl hw
    exact ⟨(congrArg _ (by decide)).trans h, (hback _ _ h).2.2⟩
  · obtain ⟨hread, hback⟩ :=
      read_back.2 _ (Sugeno.reachable_run Sugeno.cruising (.start {})) (by decide)
    have h := hread mixed ⟨⟨1⟩, ⟨1⟩⟩ rfl rfl hw
    exact ⟨(congrArg _ (by decide)).trans h, (hback _ _ h).2.2⟩

end FuzzyInference
