import FuzzyInference.Proofs.Simpson
import FuzzyInference.Proofs.Mamdani.Calculation

/-!
# Numbers for outputs are in their domains

With exact numbers, an output gets a number of its own domain, as long as there
is any area to find the center of. The truths of rules are degrees, so what is
made of terms that are nowhere negative is nowhere negative (`mergedAt_nonneg`);
and the center of gravity of such a function does not leave the interval.
-/

namespace FuzzyInference

open Set (Icc)

variable {α : Type} [Exact α]

/-- A term that is limited by a degree stays on its side of zero. -/
theorem ImplicationMethod.apply_nonneg (method : ImplicationMethod) {u v : α} (hu : 0 ≤ u)
    (hv : 0 ≤ v) : 0 ≤ method.composition.apply u v := by
  cases method with
  | min =>
    show 0 ≤ CompositionMethod.min.apply u v
    rw [Exact.apply_min]
    exact le_min hu hv
  | prod => exact mul_nonneg hu hv

theorem AggregationMethod.apply_nonneg (method : AggregationMethod) {u v : α} (hu : 0 ≤ u)
    (hv : 0 ≤ v) : 0 ≤ method.composition.apply u v := by
  cases method with
  | max =>
    show 0 ≤ CompositionMethod.max.apply u v
    rw [Exact.apply_max]
    exact hu.trans (le_max_left u v)
  | sum => exact add_nonneg hu hv

theorem AggregationMethod.foldl_nonneg (method : AggregationMethod) {l : List α} {first : α}
    (hfirst : 0 ≤ first) (hl : ∀ v ∈ l, 0 ≤ v) : 0 ≤ l.foldl method.composition.apply first := by
  induction l generalizing first with
  | nil => exact hfirst
  | cons v l ih =>
    obtain ⟨hv, hl⟩ := List.forall_mem_cons.mp hl
    exact ih (method.apply_nonneg hfirst hv) hl

namespace Mamdani

namespace System

variable {s : System α}

/-- No term of an output is negative anywhere. -/
def HasAreas (s : System α) : Prop :=
  ∀ term e, s.table.termAt? term = some e → e.owner ∈ s.outputs → ∀ x, 0 ≤ e.membership x

/-- The terms that rules conclude are terms of outputs. -/
theorem Consistent.membershipOf_nonneg (hc : s.Consistent) (hareas : s.HasAreas) {rule : Rule α}
    (hrule : rule ∈ s.rules) (y : α) : 0 ≤ s.table.membershipOf rule.conclusion.value y := by
  have hadmits := hc.rules rule hrule
  obtain ⟨e, he, howner⟩ := hadmits.value
  unfold VariableTable.membershipOf
  rw [he]
  exact hareas _ e he (howner ▸ hadmits.subject) y

/-- What a rule concludes is not negative, if its truth is not. -/
theorem Consistent.limitedAt_nonneg (hc : s.Consistent) (hareas : s.HasAreas) {rule : Rule α}
    (hrule : rule ∈ s.rules) {truth : α} (htruth : 0 ≤ truth) (y : α) :
    0 ≤ s.limitedAt rule truth y :=
  s.implication.apply_nonneg htruth (hc.membershipOf_nonneg hareas hrule y)

/-- **What the rules for an output come to is nowhere negative.** -/
theorem Consistent.mergedAt_nonneg (hc : s.Consistent) (hareas : s.HasAreas) {truths : List α}
    (htruths : ∀ truth ∈ truths, 0 ≤ truth) (o : VariableKey) (y : α) :
    0 ≤ s.mergedAt truths o y := by
  have hlimited : ∀ v ∈ (s.concluding truths o).map fun e => s.limitedAt e.1 e.2 y, 0 ≤ v := by
    intro v hv
    obtain ⟨e, he, rfl⟩ := List.mem_map.mp hv
    obtain ⟨hrule, htruth⟩ := List.of_mem_zip (List.mem_of_mem_filter he)
    exact hc.limitedAt_nonneg hareas hrule (htruths _ htruth) y
  unfold mergedAt
  split
  · rw [Exact.numeral_eq]
    exact Nat.cast_nonneg 0
  · rename_i first rest hcons
    rw [hcons] at hlimited
    obtain ⟨hfirst, hrest⟩ := List.forall_mem_cons.mp hlimited
    exact s.aggregation.foldl_nonneg hfirst hrest

/-- **The truths of rules are degrees.** -/
theorem Consistent.truthsAt_mem (hc : s.Consistent) (hroots : RootsOfDegrees α)
    (hdegrees : s.inputSide.HasDegrees) (readings : Readings α) :
    ∀ truth ∈ s.truthsAt readings, truth ∈ Icc (0 : α) 1 := by
  intro truth htruth
  obtain ⟨rule, hrule, rfl⟩ := List.mem_map.mp htruth
  exact InputSide.truthAt_mem hroots hdegrees (hc.conditions rule hrule) readings

end System

open Numeric in
/-- **The number for an output is in its domain, unless there is no area to find the center of.**
With exact numbers this is so in every reachable system, whatever its rules and methods for degrees,
if terms of inputs have degrees between zero and one and those of outputs have no negative ones. -/
theorem reachable_in_domain {s : System α} (h : Reachable s) (hroots : RootsOfDegrees α)
    (hdegrees : s.inputSide.HasDegrees) (hareas : s.HasAreas)
    (hmethod : s.defuzzification = .centroid) (hrules : s.rules ≠ []) {readings : Readings α}
    (hcheck : s.inputSide.checkReadings readings = .ok ()) :
    ∃ numbers, s.calculate readings = .ok numbers ∧ numbers.keys = s.outputs
      ∧ ∀ o ∈ s.outputs, ∃ v x, s.table.variableAt? o = some v ∧ numbers.get? o = some x
          ∧ x = simpson (fun y => y * s.mergedAt (s.truthsAt readings) o y) v.min v.max 50
              / simpson (s.mergedAt (s.truthsAt readings) o) v.min v.max 50
          ∧ (simpson (s.mergedAt (s.truthsAt readings) o) v.min v.max 50 = 0
            ∨ x ∈ Icc v.min v.max) := by
  have hc := h.consistent
  obtain ⟨numbers, hnumbers, hkeys, hget⟩ := hc.calculate_centers hrules hcheck hmethod
  refine ⟨numbers, hnumbers, hkeys, fun o ho => ?_⟩
  obtain ⟨v, hv, hcenter⟩ := hget o ho
  refine ⟨v, _, hv, hcenter, rfl, or_iff_not_imp_left.mpr fun harea => ?_⟩
  have hdomain : v.min ≤ v.max := (hc.table.valid o v hv).2
  have htruths : ∀ truth ∈ s.truthsAt readings, 0 ≤ truth :=
    fun truth htruth => (hc.truthsAt_mem hroots hdegrees readings truth htruth).1
  exact simpson_div_simpson_mem hdomain
    (fun y _ => hc.mergedAt_nonneg hareas htruths o y) harea

open RationalNumbers in
/-- A heater that is turned up where it is not warm. -/
def heating : List (Request ℚ) :=
  [.addInput "temperature" 0 40, .addTerm ⟨1⟩ "warm" fun x => if x < 20 then 1 / 4 else 1,
   .addOutput "heater" 0 10, .addTerm ⟨2⟩ "strong" fun y => y * y,
   .addRule ⟨⟨.single ⟨⟨1⟩, ⟨1⟩, true, some .very⟩, ⟨⟨2⟩, ⟨2⟩⟩⟩, 1⟩]

open RationalNumbers in
theorem reachable_in_domain_heating :
    ∃ numbers, (run heating (.ofSettings {})).calculate ⟨[(⟨1⟩, 15)]⟩ = .ok numbers
      ∧ ∃ x, numbers.get? ⟨2⟩ = some x ∧ x ∈ Icc 0 10 := by
  have hterms : ∀ term e, (run heating (.ofSettings {})).table.termAt? term = some e →
      e = ⟨"warm", ⟨1⟩, fun x => if x < 20 then 1 / 4 else 1⟩
        ∨ e = ⟨"strong", ⟨2⟩, fun y => y * y⟩ :=
    fun _ _ he => List.mem_pair.mp (Registry.mem_entries_of_get? he)
  have hdegrees : (run heating (.ofSettings {})).inputSide.HasDegrees := by
    intro term e he hinput x
    rcases hterms term e he with rfl | rfl
    · show (if x < 20 then 1 / 4 else 1) ∈ Icc (0 : ℚ) 1
      split
      · exact ⟨by decide +kernel, by decide +kernel⟩
      · exact ⟨zero_le_one, le_rfl⟩
    · exact absurd hinput (by decide)
  have hareas : (run heating (.ofSettings {})).HasAreas := by
    intro term e he houtput x
    rcases hterms term e he with rfl | rfl
    · exact absurd houtput (by decide)
    · exact mul_self_nonneg x
  have hcheck : (run heating (.ofSettings {})).inputSide.checkReadings ⟨[(⟨1⟩, 15)]⟩ = .ok () := rfl
  obtain ⟨numbers, h, -, hget⟩ := reachable_in_domain (reachable_run heating (.start {}))
    rootsOfDegrees hdegrees hareas rfl (by decide) hcheck
  obtain ⟨v, x, hv, hx, -, harea⟩ := hget ⟨2⟩ (by decide)
  cases hv
  exact ⟨numbers, h, x, hx, harea.resolve_left (by decide +kernel)⟩

end Mamdani

end FuzzyInference
