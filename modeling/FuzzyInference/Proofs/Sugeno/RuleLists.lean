import FuzzyInference.Proofs.Sugeno.Means
import FuzzyInference.Proofs.Calculation

/-!
# Sugeno systems with other rules

The counterpart for Sugeno systems of what other rules come to. All that rules
contribute to a calculation are the two sums for each output
(`Consistent.alike_withRules`). With exact numbers sums do not depend on the order
of rules (`sumsAt_of_perm`), and a rule that is not true to any extent adds zero to
both (`sumsAt_withoutRule`), whatever the others are.
-/

namespace FuzzyInference.Sugeno

variable {α : Type}

namespace System

/-- The system with these rules in place of its own. -/
def withRules (s : System α) (rules : List Rule) : System α := { s with rules }

/-- The system without the rule at a position. -/
def withoutRule (s : System α) (i : Nat) : System α := s.withRules (s.rules.eraseIdx i)

theorem Consistent.withRules [LE α] {s : System α} (hc : s.Consistent) {rules : List Rule}
    (h : rules ⊆ s.rules) : (s.withRules rules).Consistent where
  table := hc.table
  inputs_nodup := hc.inputs_nodup
  mem_iff := hc.mem_iff
  outputs_valid := hc.outputs_valid
  outputs_distinct := hc.outputs_distinct
  names_disjoint := hc.names_disjoint
  owned := hc.owned
  rules := by
    intro rule hrule
    have hadmits := hc.rules rule (h hrule)
    exact hadmits.mono (List.Subset.refl _) (.refl _) (fun _ o ho => ⟨o, ho⟩) fun _ _ hf => hf

section Scalar

variable [Scalar α] {s : System α} {rules : List Rule} {readings : Readings α}

/-- Two systems answer alike, since their rules come to the same sums. -/
structure Alike (s t : System α) (readings : Readings α) : Prop where
  calculate : t.calculate readings = s.calculate readings
  sumsAt : ∀ o, t.sumsAt readings (t.truthsAt readings) o
    = s.sumsAt readings (s.truthsAt readings) o

/-- **Rules enter a calculation only by their sums.** -/
theorem Consistent.alike_withRules (hc : s.Consistent) (hc' : (s.withRules rules).Consistent)
    (hempty : rules = [] ↔ s.rules = [])
    (hsums : ∀ o, (s.withRules rules).sumsAt readings ((s.withRules rules).truthsAt readings) o
      = s.sumsAt readings (s.truthsAt readings) o) :
    s.Alike (s.withRules rules) readings := by
  refine ⟨(hc.answers readings).congr (hc'.answers readings) hempty s.outputs.nodup_keys ?_, hsums⟩
  intro numbers numbers' hnumbers hnumbers' o ho
  rw [hc.get?_of_calculate hnumbers ho, hc'.get?_of_calculate hnumbers' ho, hsums]

end Scalar

/-! ## Exact numbers -/

variable [Exact α] {s : System α} {rules : List Rule} {readings : Readings α}

theorem sumsAt_withRules (s : System α) (rules : List Rule) (readings : Readings α)
    (o : OutputKey) :
    (s.withRules rules).sumsAt readings ((s.withRules rules).truthsAt readings) o
      = (((rules.filter (·.conclusion.subject = o)).map fun rule =>
            s.weightAt readings rule * s.concludedAt readings rule).sum,
          ((rules.filter (·.conclusion.subject = o)).map (s.weightAt readings)).sum) :=
  sumsAt_truthsAt (s.withRules rules) readings o

/-- **The sums do not depend on the order of rules.** -/
theorem sumsAt_of_perm (h : rules.Perm s.rules) (o : OutputKey) :
    (s.withRules rules).sumsAt readings ((s.withRules rules).truthsAt readings) o
      = s.sumsAt readings (s.truthsAt readings) o := by
  have hperm : (rules.filter (·.conclusion.subject = o)).Perm (s.rulesFor o) := h.filter _
  rw [sumsAt_withRules, sumsAt_truthsAt, (hperm.map _).sum_eq, (hperm.map _).sum_eq]

/-- **Systems with the same rules in another order answer alike.** -/
theorem Consistent.alike_of_perm (hc : s.Consistent) (h : rules.Perm s.rules) :
    s.Alike (s.withRules rules) readings := by
  have hempty : rules = [] ↔ s.rules = [] := by
    rw [← List.length_eq_zero_iff, ← List.length_eq_zero_iff, h.length_eq]
  exact hc.alike_withRules (hc.withRules h.subset) hempty (sumsAt_of_perm h)

/-- **A rule that is not true to any extent adds nothing**, wherever it stands. -/
theorem sumsAt_withoutRule {i : Nat} (hi : (s.truthsAt readings)[i]? = some 0) (o : OutputKey) :
    (s.withoutRule i).sumsAt readings ((s.withoutRule i).truthsAt readings) o
      = s.sumsAt readings (s.truthsAt readings) o := by
  obtain ⟨rule, htruth, hperm⟩ := exists_cons_eraseIdx_perm hi
  have hweight : s.weightAt readings rule = 0 := htruth
  -- the rule may as well come first
  rw [← sumsAt_of_perm hperm, withoutRule, sumsAt_withRules, sumsAt_withRules]
  by_cases hsubject : rule.conclusion.subject = o
  · rw [List.filter_cons_of_pos (by simpa using hsubject), List.map_cons, List.map_cons,
      List.sum_cons, List.sum_cons, hweight, zero_mul, zero_add, zero_add]
  · rw [List.filter_cons_of_neg (by simpa using hsubject)]

/-- **A system answers alike without a rule that is not true to any extent.** -/
theorem Consistent.alike_withoutRule (hc : s.Consistent) (hrules : 2 ≤ s.rules.length) {i : Nat}
    (hi : (s.truthsAt readings)[i]? = some 0) : s.Alike (s.withoutRule i) readings :=
  hc.alike_withRules (hc.withRules List.eraseIdx_subset) (eraseIdx_eq_nil_iff_eq_nil hrules i)
    (sumsAt_withoutRule hi)

end System

end FuzzyInference.Sugeno
