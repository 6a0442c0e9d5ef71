import FuzzyInference.Proofs.Mamdani.RuleLists
import FuzzyInference.Proofs.Sugeno.RuleLists

/-!
# Rules that are not true at all

A rule can be about a situation that the readings are far from, and then it should
be as if it were not there. It is counted all the same: as the first of the limited
terms for its output, or the only one, or as a zero among the truths. That no
number is changed by this rests on what else is counted, which is not negative as
long as terms have degrees and areas.
-/

namespace FuzzyInference

open Numeric Set

variable {α : Type} [Exact α]

/-- **A rule that is not true to any extent has no effect.** With exact numbers every reachable
system, of either kind and whatever its methods, answers accepted readings without such a rule as it
does with it, if it has another one: wherever the rule stands, and also if it is the only one for
its output. For a center of gravity there is the same numerator and the same denominator, and for a
weighted mean there are the same sums. -/
theorem idle_rule_irrelevant (hroots : RootsOfDegrees α) :
    (∀ (s : Mamdani.System α) (readings : Readings α), Mamdani.Reachable s →
        s.inputSide.HasDegrees → s.HasAreas → s.inputSide.checkReadings readings = .ok () →
        2 ≤ s.rules.length →
        ∃ fuzzified, s.inputSide.fuzzify readings = .ok fuzzified
          ∧ s.truths fuzzified = .ok (s.truthsAt readings)
          ∧ ∀ i, (s.truthsAt readings)[i]? = some 0 →
            (s.withoutRule i).calculate readings = s.calculate readings
            ∧ (s.defuzzification = .centroid → ∃ numbers,
              s.calculate readings = .ok numbers ∧ numbers.keys = s.outputs
              ∧ ∀ o ∈ s.outputs, ∃ v moment area, s.table.variableAt? o = some v
                ∧ numbers.get? o = some (moment / area)
                ∧ moment
                  = simpson (fun y => y * s.mergedAt (s.truthsAt readings) o y) v.min v.max 50
                ∧ moment
                  = simpson (fun y => y * (s.withoutRule i).mergedAt
                      ((s.withoutRule i).truthsAt readings) o y) v.min v.max 50
                ∧ area = simpson (s.mergedAt (s.truthsAt readings) o) v.min v.max 50
                ∧ area = simpson ((s.withoutRule i).mergedAt
                    ((s.withoutRule i).truthsAt readings) o) v.min v.max 50))
      ∧ ∀ (s : Sugeno.System α) (readings : Readings α), Sugeno.Reachable s →
        s.inputSide.checkReadings readings = .ok () → 2 ≤ s.rules.length →
        ∃ fuzzified numbers, s.inputSide.fuzzify readings = .ok fuzzified
          ∧ s.truths fuzzified = .ok (s.truthsAt readings)
          ∧ s.calculate readings = .ok numbers ∧ numbers.keys = s.outputs.keys
          ∧ ∀ i, (s.truthsAt readings)[i]? = some 0 →
            (s.withoutRule i).calculate readings = .ok numbers
            ∧ ∀ o ∈ s.outputs.keys,
              (s.withoutRule i).sumsAt readings ((s.withoutRule i).truthsAt readings) o
                  = s.sumsAt readings (s.truthsAt readings) o
                ∧ numbers.get? o
                  = some (Sugeno.System.mean (s.sumsAt readings (s.truthsAt readings) o)) := by
  refine ⟨fun s readings h hdegrees hareas hcheck hlength => ?_,
    fun s readings h hcheck hlength => ?_⟩
  · have hc := h.consistent
    have hrules : s.rules ≠ [] := List.ne_nil_of_length_pos (by omega)
    refine ⟨_, InputSide.fuzzify_of_checkReadings hcheck,
      hc.inputSide.truths_eq_ok hc.conditions, fun i hi => ?_⟩
    have halike := hc.alike_withoutRule hroots hdegrees hareas hlength hi
    refine ⟨halike.calculate, fun hmethod => ?_⟩
    have hwithout : ∀ o, (s.withoutRule i).mergedAt ((s.withoutRule i).truthsAt readings) o
        = s.mergedAt (s.truthsAt readings) o := fun o => funext (halike.mergedAt o)
    obtain ⟨numbers, hnumbers, hkeys, hget⟩ := hc.calculate_centers hrules hcheck hmethod
    refine ⟨numbers, hnumbers, hkeys, fun o ho => ?_⟩
    obtain ⟨v, hv, hnumber⟩ := hget o ho
    rw [hwithout]
    exact ⟨v, _, _, hv, hnumber, rfl, rfl, rfl, rfl⟩
  · have hc := h.consistent
    have hrules : s.rules ≠ [] := List.ne_nil_of_length_pos (by omega)
    obtain ⟨numbers, hnumbers, hkeys, hget⟩ := hc.calculate_means hrules hcheck
    refine ⟨_, numbers, InputSide.fuzzify_of_checkReadings hcheck,
      hc.inputSide.truths_eq_ok hc.conditions, hnumbers, hkeys, fun i hi => ?_⟩
    have halike := hc.alike_withoutRule hlength hi
    exact ⟨halike.calculate.trans hnumbers, fun o ho => ⟨halike.sumsAt o, hget o ho⟩⟩

open RationalNumbers in
/-- A cooler that is for hot days only, and a heater for all others. -/
def acclimatizing : List (Mamdani.Request ℚ) :=
  [.addInput "temperature" 0 40, .addTerm ⟨1⟩ "hot" fun x => if x < 30 then 0 else 1,
   .addOutput "cooler" 0 10, .addTerm ⟨2⟩ "strong" fun y => y * y,
   .addOutput "heater" 0 10, .addTerm ⟨3⟩ "steady" fun _ => 1,
   .addRule ⟨⟨.single ⟨⟨1⟩, ⟨1⟩, false, none⟩, ⟨⟨2⟩, ⟨2⟩⟩⟩, 1⟩,
   .addRule ⟨⟨.single ⟨⟨1⟩, ⟨1⟩, true, none⟩, ⟨⟨3⟩, ⟨3⟩⟩⟩, 1⟩]

open RationalNumbers in
/-- A brake that is for high speed only, and a throttle for all others. -/
def coasting : List (Sugeno.Request ℚ) :=
  [.addInput "speed" 0 200, .addTerm ⟨1⟩ "high" fun x => if x < 100 then 0 else 1,
   .addOutput "brake", .addOutput "throttle",
   .addFunction ⟨1⟩ "full" ⟨{}, 100⟩, .addFunction ⟨2⟩ "hold" ⟨{}, 7⟩,
   .addRule ⟨.single ⟨⟨1⟩, ⟨1⟩, false, none⟩, ⟨⟨1⟩, ⟨1⟩⟩⟩,
   .addRule ⟨.single ⟨⟨1⟩, ⟨1⟩, true, none⟩, ⟨⟨2⟩, ⟨2⟩⟩⟩]

open RationalNumbers Mamdani Sugeno in
theorem idle_rule_irrelevant_acclimatizing_and_coasting :
    (∃ numbers,
      (Mamdani.run acclimatizing (.ofSettings {})).calculate ⟨[(⟨1⟩, 15)]⟩ = .ok numbers
      ∧ ((Mamdani.run acclimatizing (.ofSettings {})).withoutRule 0).calculate ⟨[(⟨1⟩, 15)]⟩
          = .ok numbers)
    ∧ ∃ numbers,
      (Sugeno.run coasting (.ofSettings {})).calculate ⟨[(⟨1⟩, 10)]⟩ = .ok numbers
      ∧ ((Sugeno.run coasting (.ofSettings {})).withoutRule 0).calculate ⟨[(⟨1⟩, 10)]⟩
          = .ok numbers
      ∧ numbers.get? ⟨1⟩ = some 0 := by
  obtain ⟨hmamdani, hsugeno⟩ := idle_rule_irrelevant rootsOfDegrees
  constructor
  · have hterms : ∀ term e,
        (Mamdani.run acclimatizing (.ofSettings {})).table.termAt? term = some e →
        e = ⟨"hot", ⟨1⟩, fun x => if x < 30 then 0 else 1⟩
          ∨ e = ⟨"strong", ⟨2⟩, fun y => y * y⟩ ∨ e = ⟨"steady", ⟨3⟩, fun _ => 1⟩ :=
      fun _ _ he => (List.mem_cons.mp (Registry.mem_entries_of_get? he)).imp_right List.mem_pair.mp
    have hdegrees : (Mamdani.run acclimatizing (.ofSettings {})).inputSide.HasDegrees := by
      intro term e he hinput x
      rcases hterms term e he with rfl | rfl | rfl
      · show (if x < 30 then 0 else 1) ∈ Icc (0 : ℚ) 1
        split
        · exact ⟨le_rfl, zero_le_one⟩
        · exact ⟨zero_le_one, le_rfl⟩
      · exact absurd hinput (by decide)
      · exact absurd hinput (by decide)
    have hareas : (Mamdani.run acclimatizing (.ofSettings {})).HasAreas := by
      intro term e he houtput x
      rcases hterms term e he with rfl | rfl | rfl
      · exact absurd houtput (by decide)
      · exact mul_self_nonneg x
      · exact zero_le_one
    obtain ⟨-, -, -, hwithout⟩ := hmamdani _ ⟨[(⟨1⟩, 15)]⟩
      (Mamdani.reachable_run acclimatizing (.start {})) hdegrees hareas rfl (by decide)
    obtain ⟨hcalculate, hnumbers⟩ := hwithout 0 (by decide +kernel)
    obtain ⟨numbers, hnumbers, -⟩ := hnumbers rfl
    exact ⟨numbers, hnumbers, hcalculate.trans hnumbers⟩
  · obtain ⟨-, numbers, -, -, hnumbers, -, hwithout⟩ := hsugeno _ ⟨[(⟨1⟩, 10)]⟩
      (Sugeno.reachable_run coasting (.start {})) rfl (by decide)
    obtain ⟨hcalculate, hget⟩ := hwithout 0 (by decide +kernel)
    exact ⟨numbers, hnumbers, hcalculate, (hget ⟨1⟩ (by decide)).2.trans (by decide +kernel)⟩

end FuzzyInference
