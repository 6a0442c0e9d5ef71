import FuzzyInference.Proofs.Mamdani.RuleLists
import FuzzyInference.Proofs.Sugeno.RuleLists

/-!
# The order of rules

Rules are kept in a list, and every stage of a calculation goes through it in
order: truths, limited terms and sums are all in step with it. With exact numbers
none of this shows in the result. A system with its rules in another order answers
as it did before, and where the greatest of the limited terms counts, so does a
system with rules listed more than once.
-/

namespace FuzzyInference

variable {α : Type} [Exact α]

/-- **The order of rules does not matter.** With exact numbers a reachable system, of either kind
and whatever its methods, answers all readings with the same numbers or the same refusal if its
rules are in another order; what they come to for an output is the same at every number, and so are
its sums. A Mamdani system that keeps the greatest of its limited terms answers alike with any rules
that say the same, however often. -/
theorem rule_order_irrelevant :
    (∀ (s : Mamdani.System α) (rules : List (Mamdani.Rule α)), Mamdani.Reachable s →
        rules.Perm s.rules → ∀ readings, s.Alike (s.withRules rules) readings)
      ∧ (∀ (s : Mamdani.System α) (rules : List (Mamdani.Rule α)), Mamdani.Reachable s →
        s.aggregation = .max →
        (∀ r, r ∈ rules.map (·.toRule) ↔ r ∈ s.rules.map (·.toRule)) →
        ∀ readings, s.Alike (s.withRules rules) readings)
      ∧ ∀ (s : Sugeno.System α) (rules : List Sugeno.Rule), Sugeno.Reachable s →
        rules.Perm s.rules → ∀ readings, s.Alike (s.withRules rules) readings := by
  refine ⟨fun s rules h hperm readings => ?_, fun s rules h hmax hsame readings => ?_,
    fun s rules h hperm readings => h.consistent.alike_of_perm hperm⟩
  · have hsame : ∀ r, r ∈ rules.map (·.toRule) ↔ r ∈ s.rules.map (·.toRule) :=
      fun r => (hperm.map _).mem_iff
    exact h.consistent.alike_of_mem_iff hsame (Mamdani.System.mergedAt_of_perm hperm)
  · exact h.consistent.alike_of_mem_iff hsame (Mamdani.System.mergedAt_of_mem_iff hmax hsame)

/-- Where it is not very warm the heater is strong. -/
def whereCold : Mamdani.Rule ℚ := ⟨⟨.single ⟨⟨1⟩, ⟨1⟩, true, some .very⟩, ⟨⟨2⟩, ⟨2⟩⟩⟩, 1⟩

/-- Where it is warm the heater is weak. -/
def whereWarm : Mamdani.Rule ℚ := ⟨⟨.single ⟨⟨1⟩, ⟨1⟩, false, none⟩, ⟨⟨2⟩, ⟨3⟩⟩⟩, 1⟩

open RationalNumbers in
/-- A heater that is turned up where it is cold and down where it is warm. -/
def regulating : List (Mamdani.Request ℚ) :=
  [.addInput "temperature" 0 40, .addTerm ⟨1⟩ "warm" fun x => if x < 20 then 1 / 4 else 1,
   .addOutput "heater" 0 10, .addTerm ⟨2⟩ "strong" fun y => y * y,
   .addTerm ⟨2⟩ "weak" fun _ => 1, .addRule whereCold, .addRule whereWarm]

open RationalNumbers Mamdani Sugeno in
theorem rule_order_irrelevant_regulating_and_easing :
    (∃ numbers, (Mamdani.run regulating (.ofSettings {})).calculate ⟨[(⟨1⟩, 15)]⟩ = .ok numbers
      ∧ ((Mamdani.run regulating (.ofSettings {})).withRules [whereWarm, whereCold]).calculate
          ⟨[(⟨1⟩, 15)]⟩ = .ok numbers
      ∧ ((Mamdani.run regulating (.ofSettings {})).withRules
          [whereWarm, whereCold, whereWarm]).calculate ⟨[(⟨1⟩, 15)]⟩ = .ok numbers)
    ∧ ∃ numbers, (Sugeno.run easing (.ofSettings {})).calculate ⟨[(⟨1⟩, 10)]⟩ = .ok numbers
      ∧ ((Sugeno.run easing (.ofSettings {})).withRules
          (Sugeno.run easing (.ofSettings {})).rules.reverse).calculate ⟨[(⟨1⟩, 10)]⟩
            = .ok numbers := by
  obtain ⟨hperm, hsame, hsugeno⟩ := rule_order_irrelevant (α := ℚ)
  constructor
  · have h := Mamdani.reachable_run regulating (.start {})
    have hrules : (Mamdani.run regulating (.ofSettings {})).rules = [whereCold, whereWarm] := rfl
    have hcheck : (Mamdani.run regulating (.ofSettings {})).inputSide.checkReadings
        ⟨[(⟨1⟩, 15)]⟩ = .ok () := rfl
    have hmethods : (Mamdani.run regulating (.ofSettings {})).settings = {} := rfl
    generalize Mamdani.run regulating (.ofSettings {}) = s at h hrules hcheck hmethods
    obtain ⟨numbers, hnumbers, -⟩ := h.consistent.calculate_centroid
      (by rw [hrules]; exact List.cons_ne_nil _ _) hcheck (congrArg (·.defuzzification) hmethods)
    have hswapped := hperm s [whereWarm, whereCold] h (by rw [hrules]; exact .swap _ _ _)
      ⟨[(⟨1⟩, 15)]⟩
    have hrepeats : ∀ r, r ∈ [whereWarm, whereCold, whereWarm].map (·.toRule)
        ↔ r ∈ s.rules.map (·.toRule) := by
      intro r
      rw [hrules]
      simp only [List.map_cons, List.map_nil, List.mem_cons, List.not_mem_nil, or_false]
      tauto
    have hrepeated := hsame s _ h (congrArg (·.aggregation) hmethods) hrepeats ⟨[(⟨1⟩, 15)]⟩
    exact ⟨numbers, hnumbers, hswapped.calculate.trans hnumbers,
      hrepeated.calculate.trans hnumbers⟩
  · have h := Sugeno.reachable_run easing (.start {})
    have hcheck : (Sugeno.run easing (.ofSettings {})).inputSide.checkReadings ⟨[(⟨1⟩, 10)]⟩
        = .ok () := rfl
    obtain ⟨numbers, hnumbers, -⟩ := h.consistent.calculate_means (by decide) hcheck
    have hreversed := hsugeno _ _ h (List.reverse_perm _) ⟨[(⟨1⟩, 10)]⟩
    exact ⟨numbers, hnumbers, hreversed.calculate.trans hnumbers⟩

end FuzzyInference
