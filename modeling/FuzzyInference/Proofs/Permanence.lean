import FuzzyInference.Proofs.Mamdani.Growth
import FuzzyInference.Proofs.RoundTrip
import FuzzyInference.Proofs.Sugeno.Growth

/-!
# Rules that are read are there to stay

The reader hands over what it makes of a text without a check. The check would
find nothing: a rule that is read is admitted (`Consistent.admits_of_read`), and
as a system never gives anything up, it is admitted for good.

The text itself has a weaker claim to last. A system that has grown says more by
its names, and a name can come to say two things; then nothing can be read any
longer. Short of such a collision every text that was read is read as it was
(`Consistent.readRule_of_extends`).
-/

namespace FuzzyInference

open RuleText

variable {α : Type}

/-! ## Mamdani systems -/

namespace Mamdani.System

theorem addRule_of_admits {s : System α} {rule : Rule α} (h : s.Admits rule.toRule) :
    s.addRule rule = .ok { s with rules := s.rules ++ [rule] } :=
  bind_eq_ok_iff.mpr ⟨(), checkRule_eq_ok_iff.mpr h, rfl⟩

variable [Scalar α] {s t : System α}

/-- **Names of a system say what they said**, and more. -/
theorem Consistent.widens (h : s.Consistent) (h' : t.Consistent) (hextends : s.Extends t) :
    Widens (s.table.vocabularies s.inputSide.inputs) (t.table.vocabularies t.inputSide.inputs)
      ∧ Widens (s.table.vocabularies s.outputs) (t.table.vocabularies t.outputs) := by
  constructor
  · refine h.named_inputs.widens h'.named_inputs ?_ hextends.table.variableAt hextends.table.termAt
    rw [VariableTable.map_key_vocabularies, VariableTable.map_key_vocabularies]
    exact hextends.inputs
  · refine h.named_outputs.widens h'.named_outputs ?_ hextends.table.variableAt
      hextends.table.termAt
    rw [VariableTable.map_key_vocabularies, VariableTable.map_key_vocabularies]
    exact hextends.outputs

/-- **A text that was read is read as it was, or it is refused for a collision.** -/
theorem Consistent.readRule_of_extends (h : s.Consistent) (h' : t.Consistent)
    (hextends : s.Extends t) {text : String} {rule : Rule α} (hr : s.readRule text = .ok rule) :
    t.readRule text = .ok rule
      ∨ ∃ word, t.readRule text = .error (.ruleText (.lexemeCollision word)) := by
  obtain ⟨r, hread, rfl⟩ := readRule_eq_ok_iff.mp hr
  obtain ⟨hinputs, houtputs⟩ := h.widens h' hextends
  rcases read_of_widens hinputs houtputs h.named_inputs.nodup h.named_outputs.nodup
    h'.named_inputs.nodup h'.named_outputs.nodup hread with hread' | ⟨word, hread'⟩
  · exact Or.inl (readRule_eq_ok_iff.mpr ⟨r, hread', rfl⟩)
  · refine Or.inr ⟨word, ?_⟩
    unfold readRule
    simp only [hread']

/-- A rule that is read is the one that is made of its parts. -/
theorem Consistent.rule_of_read (h : s.Consistent) {text : String} {rule : Rule α}
    (hr : s.readRule text = .ok rule) :
    s.rule rule.condition rule.conclusion.subject rule.conclusion.value = .ok rule := by
  have hcheck := checkRule_eq_ok_iff.mpr (h.admits_of_read hr)
  -- a rule that is read has the weight of a rule that is made
  obtain ⟨r, -, rfl⟩ := readRule_eq_ok_iff.mp hr
  exact bind_eq_ok_iff.mpr ⟨(), hcheck, rfl⟩

end Mamdani.System

/-! ## Sugeno systems -/

namespace Sugeno.System

theorem addRule_of_admits {s : System α} {rule : Rule} (h : s.Admits rule) :
    s.addRule rule = .ok { s with rules := s.rules ++ [rule] } :=
  bind_eq_ok_iff.mpr ⟨(), checkRule_eq_ok_iff.mpr h, rfl⟩

variable [Scalar α] {s t : System α}

/-- **Names of a system say what they said**, and more. -/
theorem Consistent.widens (h : s.Consistent) (h' : t.Consistent) (hextends : s.Extends t) :
    Widens (s.inputSide.table.vocabularies s.inputSide.inputs)
        (t.inputSide.table.vocabularies t.inputSide.inputs)
      ∧ Widens s.vocabularies t.vocabularies := by
  constructor
  · refine h.named_inputs.widens h'.named_inputs ?_ hextends.table.variableAt hextends.table.termAt
    rw [VariableTable.map_key_vocabularies, VariableTable.map_key_vocabularies]
    exact hextends.inputs
  · refine h.named_outputs.widens h'.named_outputs ?_ hextends.outputAt hextends.functionAt
    intro k hk
    obtain ⟨o, ho⟩ := mem_keys_iff.mp hk
    obtain ⟨o', ho', -⟩ := hextends.outputAt k o ho
    exact mem_keys_iff.mpr ⟨o', ho'⟩

/-- **A text that was read is read as it was, or it is refused for a collision.** -/
theorem Consistent.readRule_of_extends (h : s.Consistent) (h' : t.Consistent)
    (hextends : s.Extends t) {text : String} {rule : Rule} (hr : s.readRule text = .ok rule) :
    t.readRule text = .ok rule
      ∨ ∃ word, t.readRule text = .error (.ruleText (.lexemeCollision word)) := by
  obtain ⟨hinputs, houtputs⟩ := h.widens h' hextends
  rcases read_of_widens hinputs houtputs h.named_inputs.nodup h.named_outputs.nodup
    h'.named_inputs.nodup h'.named_outputs.nodup (readRule_eq_ok_iff.mp hr)
    with hread | ⟨word, hread⟩
  · exact Or.inl (readRule_eq_ok_iff.mpr hread)
  · refine Or.inr ⟨word, ?_⟩
    unfold readRule
    rw [hread]

/-- A rule that is read is the one that is made of its parts. -/
theorem Consistent.rule_of_read (h : s.Consistent) {text : String} {rule : Rule}
    (hr : s.readRule text = .ok rule) :
    s.rule rule.condition rule.conclusion.subject rule.conclusion.value = .ok rule := by
  have hcheck := checkRule_eq_ok_iff.mpr (h.admits_of_read hr)
  exact bind_eq_ok_iff.mpr ⟨(), hcheck, rfl⟩

end Sugeno.System

/-! ## Both kinds -/

/-- **A rule that is read is valid, and stays so.** In every reachable system, of either kind, it is
the rule that is made of its condition and its conclusion. It can be added then and after whatever
is asked of the system later; and the text is read alike later, or it is refused because of a name
that has come to say two things. -/
theorem readRule_lasts [Scalar α] :
    (∀ s : Mamdani.System α, Mamdani.Reachable s → ∀ text rule, s.readRule text = .ok rule →
        s.rule rule.condition rule.conclusion.subject rule.conclusion.value = .ok rule
          ∧ ∀ requests,
            (Mamdani.run requests s).addRule rule
                = .ok { Mamdani.run requests s with
                  rules := (Mamdani.run requests s).rules ++ [rule] }
              ∧ ((Mamdani.run requests s).readRule text = .ok rule
                ∨ ∃ word, (Mamdani.run requests s).readRule text
                    = .error (.ruleText (.lexemeCollision word))))
      ∧ ∀ s : Sugeno.System α, Sugeno.Reachable s → ∀ text rule, s.readRule text = .ok rule →
        s.rule rule.condition rule.conclusion.subject rule.conclusion.value = .ok rule
          ∧ ∀ requests,
            (Sugeno.run requests s).addRule rule
                = .ok { Sugeno.run requests s with
                  rules := (Sugeno.run requests s).rules ++ [rule] }
              ∧ ((Sugeno.run requests s).readRule text = .ok rule
                ∨ ∃ word, (Sugeno.run requests s).readRule text
                    = .error (.ruleText (.lexemeCollision word))) := by
  constructor
  · intro s h text rule hr
    refine ⟨h.consistent.rule_of_read hr, fun requests => ?_⟩
    have hextends := Mamdani.extends_run requests s
    have hlater := (Mamdani.reachable_run requests h).consistent
    have hadmits := hextends.admits (h.consistent.admits_of_read hr)
    exact ⟨Mamdani.System.addRule_of_admits hadmits,
      h.consistent.readRule_of_extends hlater hextends hr⟩
  · intro s h text rule hr
    refine ⟨h.consistent.rule_of_read hr, fun requests => ?_⟩
    have hextends := Sugeno.extends_run requests s
    have hlater := (Sugeno.reachable_run requests h).consistent
    have hadmits := hextends.admits (h.consistent.admits_of_read hr)
    exact ⟨Sugeno.System.addRule_of_admits hadmits,
      h.consistent.readRule_of_extends hlater hextends hr⟩

/-- What "service is poor" and "speed is high" say. -/
def firstTerm : Condition := .single ⟨⟨1⟩, ⟨1⟩, false, none⟩

open WholeNumbers in
/-- What is concluded comes to be called like a variable. The rules can be added all the same, but
their texts cannot be read any longer. -/
theorem readRule_lasts_tipping_and_cruising :
    ((∃ t, (Mamdani.run [.addInput "cheap" 0 1]
            (Mamdani.run Mamdani.tipping (.ofSettings {}))).addRule ⟨⟨firstTerm, ⟨⟨2⟩, ⟨2⟩⟩⟩, 1⟩
              = .ok t ∧ t.rules.length = 2)
        ∧ (Mamdani.run [.addInput "cheap" 0 1]
            (Mamdani.run Mamdani.tipping (.ofSettings {}))).readRule
              "if service is poor then tips is cheap"
            = .error (.ruleText (.lexemeCollision "cheap")))
      ∧ (∃ t, (Sugeno.run [.addOutput "ease"]
            (Sugeno.run Sugeno.cruising (.ofSettings {}))).addRule ⟨firstTerm, ⟨⟨1⟩, ⟨1⟩⟩⟩
              = .ok t ∧ t.rules.length = 2)
        ∧ (Sugeno.run [.addOutput "ease"]
            (Sugeno.run Sugeno.cruising (.ofSettings {}))).readRule
              "if speed is high then throttle is ease"
            = .error (.ruleText (.lexemeCollision "ease")) := by
  obtain ⟨hmamdani, hsugeno⟩ := readRule_lasts (α := Int)
  have hw : Writable firstTerm := ⟨trivial, by decide⟩
  constructor
  · have h := Mamdani.reachable_run Mamdani.tipping (.start {})
    have hrule := Mamdani.System.checkRule_eq_ok_iff.mp
      (rfl : (Mamdani.run Mamdani.tipping (.ofSettings {})).checkRule
        ⟨⟨firstTerm, ⟨⟨2⟩, ⟨2⟩⟩⟩, 1⟩ = .ok ())
    have hr : (Mamdani.run Mamdani.tipping (.ofSettings {})).readRule
        "if service is poor then tips is cheap" = .ok ⟨⟨firstTerm, ⟨⟨2⟩, ⟨2⟩⟩⟩, 1⟩ :=
      (congrArg _ (by decide)).trans (h.consistent.readRule_rule (by decide) hrule hw)
    obtain ⟨hadd, -⟩ := (hmamdani _ h _ _ hr).2 [.addInput "cheap" 0 1]
    exact ⟨⟨_, hadd, by decide⟩, rfl⟩
  · have h := Sugeno.reachable_run Sugeno.cruising (.start {})
    have hrule := Sugeno.System.checkRule_eq_ok_iff.mp
      (rfl : (Sugeno.run Sugeno.cruising (.ofSettings {})).checkRule
        ⟨firstTerm, ⟨⟨1⟩, ⟨1⟩⟩⟩ = .ok ())
    have hr : (Sugeno.run Sugeno.cruising (.ofSettings {})).readRule
        "if speed is high then throttle is ease" = .ok ⟨firstTerm, ⟨⟨1⟩, ⟨1⟩⟩⟩ :=
      (congrArg _ (by decide)).trans (h.consistent.readRule_rule (by decide) hrule hw)
    obtain ⟨hadd, -⟩ := (hsugeno _ h _ _ hr).2 [.addOutput "ease"]
    exact ⟨⟨_, hadd, by decide⟩, rfl⟩

end FuzzyInference
