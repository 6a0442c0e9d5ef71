import Mathlib.Algebra.BigOperators.Ring.List
import Mathlib.Algebra.Order.BigOperators.Group.List
import Mathlib.Data.Set.Finite.Lemmas
import Mathlib.Data.Set.Finite.List
import FuzzyInference.Proofs.ExactNumbers
import FuzzyInference.Proofs.Sugeno.Calculation

/-!
# Numbers for outputs are means

With exact numbers the two sums that are kept for an output are sums over the
rules that conclude it (`sumsAt_truthsAt`). None of the truths is negative, and
that is what the test for zero relies on: truths cannot cancel each other out, so
there is no weight only if no rule fires (`Consistent.weight_eq_zero_iff`).
Otherwise the number is a mean of what the rules that fire conclude, and it lies
between the least and the greatest of these values (`Consistent.quotient_mem`).
-/

namespace FuzzyInference.Sugeno

open Set (Icc)

variable {α : Type} [Exact α]

/-- **A weighted mean is between all bounds for what has weight.** The rest may have any values. -/
theorem sum_div_sum_mem {ρ : Type} {l : List ρ} {weight value : ρ → α} {low high : α}
    (hweight : ∀ r ∈ l, 0 ≤ weight r)
    (hvalue : ∀ r ∈ l, 0 < weight r → value r ∈ Icc low high)
    (htotal : 0 < (l.map weight).sum) :
    (l.map fun r => weight r * value r).sum / (l.map weight).sum ∈ Icc low high := by
  have hbounds : ∀ r ∈ l, low * weight r ≤ weight r * value r
      ∧ weight r * value r ≤ high * weight r := by
    intro r hr
    rcases (hweight r hr).eq_or_lt with hzero | hpos
    · rw [← hzero, mul_zero, mul_zero, zero_mul]
      exact ⟨le_rfl, le_rfl⟩
    · obtain ⟨hlow, hhigh⟩ := hvalue r hr hpos
      rw [mul_comm low, mul_comm high]
      exact ⟨mul_le_mul_of_nonneg_left hlow hpos.le, mul_le_mul_of_nonneg_left hhigh hpos.le⟩
  constructor
  · rw [le_div_iff₀ htotal]
    calc low * (l.map weight).sum
        = (l.map fun r => low * weight r).sum := (List.sum_map_mul_left ..).symm
      _ ≤ (l.map fun r => weight r * value r).sum :=
        List.sum_le_sum fun r hr => (hbounds r hr).1
  · rw [div_le_iff₀ htotal]
    calc (l.map fun r => weight r * value r).sum
        ≤ (l.map fun r => high * weight r).sum :=
        List.sum_le_sum fun r hr => (hbounds r hr).2
      _ = high * (l.map weight).sum := List.sum_map_mul_left ..

namespace System

variable {s : System α} {readings : Readings α} {o : OutputKey}

/-- The rules that conclude an output. -/
def rulesFor (s : System α) (o : OutputKey) : List Rule :=
  s.rules.filter (·.conclusion.subject = o)

omit [Exact α] in
theorem mem_rulesFor_iff {rule : Rule} :
    rule ∈ s.rulesFor o ↔ rule ∈ s.rules ∧ rule.conclusion.subject = o := by
  unfold rulesFor
  rw [List.mem_filter, decide_eq_true_iff]

/-- The truth of a rule at some readings. -/
def weightAt (s : System α) (readings : Readings α) (rule : Rule) : α :=
  s.inputSide.truthAt readings rule.condition

/-- The value that a rule concludes at some readings. -/
def concludedAt (s : System α) (readings : Readings α) (rule : Rule) : α :=
  s.valueAt readings rule.conclusion.value

/-- **The two sums are sums over the rules that conclude the output.** -/
theorem sumsAt_truthsAt (s : System α) (readings : Readings α) (o : OutputKey) :
    s.sumsAt readings (s.truthsAt readings) o
      = (((s.rulesFor o).map fun rule =>
            s.weightAt readings rule * s.concludedAt readings rule).sum,
          ((s.rulesFor o).map (s.weightAt readings)).sum) := by
  unfold sumsAt concluding truthsAt
  rw [InputSide.concludingOf_truthsOf, foldl_countIn, List.map_map, List.map_map,
    Exact.numeral_eq, Nat.cast_zero, List.sum_eq_foldl, List.sum_eq_foldl]
  rfl

/-- A rule counts for an output: it concludes it and is true to some extent. -/
structure Fires (s : System α) (readings : Readings α) (o : OutputKey) (rule : Rule) : Prop where
  mem : rule ∈ s.rules
  subject : rule.conclusion.subject = o
  pos : 0 < s.inputSide.truthAt readings rule.condition

theorem Consistent.weightAt_nonneg (hc : s.Consistent) (hroots : RootsOfDegrees α)
    (hdegrees : s.inputSide.HasDegrees) {rule : Rule} (hrule : rule ∈ s.rules) :
    0 ≤ s.weightAt readings rule :=
  (InputSide.truthAt_mem hroots hdegrees (hc.conditions rule hrule) readings).1

theorem Consistent.weights_nonneg (hc : s.Consistent) (hroots : RootsOfDegrees α)
    (hdegrees : s.inputSide.HasDegrees) :
    ∀ v ∈ (s.rulesFor o).map (s.weightAt readings), 0 ≤ v := by
  intro v hv
  obtain ⟨rule, hrule, rfl⟩ := List.mem_map.mp hv
  exact hc.weightAt_nonneg hroots hdegrees (mem_rulesFor_iff.mp hrule).1

/-- **There is no weight exactly if no rule that concludes the output is true to any extent.** -/
theorem Consistent.weight_eq_zero_iff (hc : s.Consistent) (hroots : RootsOfDegrees α)
    (hdegrees : s.inputSide.HasDegrees) :
    (s.sumsAt readings (s.truthsAt readings) o).2 = 0
      ↔ ∀ rule ∈ s.rules, rule.conclusion.subject = o →
          s.inputSide.truthAt readings rule.condition = 0 := by
  rw [sumsAt_truthsAt]
  refine ⟨fun hzero rule hrule hsubject => ?_, fun hzero => ?_⟩
  · exact List.all_zero_of_le_zero_le_of_sum_eq_zero (hc.weights_nonneg hroots hdegrees) hzero
      (List.mem_map_of_mem (mem_rulesFor_iff.mpr ⟨hrule, hsubject⟩))
  · refine List.sum_eq_zero fun v hv => ?_
    obtain ⟨rule, hrule, rfl⟩ := List.mem_map.mp hv
    obtain ⟨hmem, hsubject⟩ := mem_rulesFor_iff.mp hrule
    exact hzero rule hmem hsubject

/-- **Where there is weight, rules fire**, and among the values that they conclude are a least and a
greatest one. -/
theorem Consistent.exists_bounds (hc : s.Consistent) (hroots : RootsOfDegrees α)
    (hdegrees : s.inputSide.HasDegrees)
    (hweight : (s.sumsAt readings (s.truthsAt readings) o).2 ≠ 0) :
    ∃ lowest highest, s.Fires readings o lowest ∧ s.Fires readings o highest
      ∧ ∀ rule, s.Fires readings o rule →
          s.concludedAt readings rule
            ∈ Icc (s.concludedAt readings lowest) (s.concludedAt readings highest) := by
  have hfinite : {rule | s.Fires readings o rule}.Finite :=
    s.rules.finite_toSet.subset fun rule hrule => hrule.mem
  have hfires : {rule | s.Fires readings o rule}.Nonempty := by
    rw [Ne, hc.weight_eq_zero_iff hroots hdegrees] at hweight
    push Not at hweight
    obtain ⟨rule, hrule, hsubject, hne⟩ := hweight
    exact ⟨rule, hrule, hsubject, (hc.weightAt_nonneg hroots hdegrees hrule).lt_of_ne' hne⟩
  obtain ⟨lowest, hlowest, hleast⟩ :=
    Set.exists_min_image _ (s.concludedAt readings) hfinite hfires
  obtain ⟨highest, hhighest, hgreatest⟩ :=
    Set.exists_max_image _ (s.concludedAt readings) hfinite hfires
  exact ⟨lowest, highest, hlowest, hhighest,
    fun rule hrule => ⟨hleast rule hrule, hgreatest rule hrule⟩⟩

/-- **The number is between all bounds for what the rules that fire conclude.** -/
theorem Consistent.quotient_mem (hc : s.Consistent) (hroots : RootsOfDegrees α)
    (hdegrees : s.inputSide.HasDegrees) {low high : α}
    (hweight : (s.sumsAt readings (s.truthsAt readings) o).2 ≠ 0)
    (hbounds : ∀ rule, s.Fires readings o rule →
      s.concludedAt readings rule ∈ Icc low high) :
    (s.sumsAt readings (s.truthsAt readings) o).1
      / (s.sumsAt readings (s.truthsAt readings) o).2 ∈ Icc low high := by
  have hnonneg : ∀ rule ∈ s.rulesFor o, 0 ≤ s.weightAt readings rule :=
    fun rule hrule => hc.weightAt_nonneg hroots hdegrees (mem_rulesFor_iff.mp hrule).1
  rw [sumsAt_truthsAt] at hweight ⊢
  have htotal : 0 < ((s.rulesFor o).map (s.weightAt readings)).sum :=
    (List.sum_nonneg (hc.weights_nonneg hroots hdegrees)).lt_of_ne' hweight
  refine sum_div_sum_mem hnonneg (fun rule hrule hpos => ?_) htotal
  obtain ⟨hmem, hsubject⟩ := mem_rulesFor_iff.mp hrule
  exact hbounds rule ⟨hmem, hsubject, hpos⟩

/-- With exact numbers zero is zero. -/
theorem mean_eq (sums : α × α) : mean sums = if sums.2 = 0 then 0 else sums.1 / sums.2 := by
  unfold mean
  rw [Exact.numeral_eq, Nat.cast_zero]
  by_cases hzero : sums.2 = 0
  · rw [if_pos ((Exact.beq_iff _ _).mpr hzero), if_pos hzero]
  · rw [if_neg (fun h => hzero ((Exact.beq_iff _ _).mp h)), if_neg hzero]

end System

/-! ## Reachable systems -/

/-- **The number for an output is a mean of what the rules that fire conclude.** With exact numbers
and whatever methods, in every reachable system whose terms have degrees: the sum of truths is zero
if no rule that concludes the output is true to any extent, and only then; the number is zero then,
and otherwise it lies between the least and the greatest of the values that the rules which fire
conclude for the output. -/
theorem reachable_convex_means {s : System α} (h : Reachable s) (hroots : RootsOfDegrees α)
    (hdegrees : s.inputSide.HasDegrees) (hrules : s.rules ≠ []) {readings : Readings α}
    (hcheck : s.inputSide.checkReadings readings = .ok ()) :
    ∃ fuzzified numbers, s.inputSide.fuzzify readings = .ok fuzzified
      ∧ s.truths fuzzified = .ok (s.truthsAt readings)
      ∧ s.calculate readings = .ok numbers ∧ numbers.keys = s.outputs.keys
      ∧ ∀ o ∈ s.outputs.keys, ∃ weighted weight,
          s.sumsAt readings (s.truthsAt readings) o = (weighted, weight)
          ∧ (weight = 0 ↔ ∀ rule ∈ s.rules, rule.conclusion.subject = o →
              s.inputSide.truthAt readings rule.condition = 0)
          ∧ (weight = 0 → numbers.get? o = some 0)
          ∧ (weight ≠ 0 → numbers.get? o = some (weighted / weight)
            ∧ ∃ lowest highest, s.Fires readings o lowest ∧ s.Fires readings o highest
              ∧ (∀ rule, s.Fires readings o rule →
                  s.valueAt readings lowest.conclusion.value
                      ≤ s.valueAt readings rule.conclusion.value
                    ∧ s.valueAt readings rule.conclusion.value
                      ≤ s.valueAt readings highest.conclusion.value)
              ∧ s.valueAt readings lowest.conclusion.value ≤ weighted / weight
              ∧ weighted / weight ≤ s.valueAt readings highest.conclusion.value) := by
  have hc := h.consistent
  obtain ⟨numbers, hnumbers, hkeys, hget⟩ := hc.calculate_means hrules hcheck
  refine ⟨_, numbers, InputSide.fuzzify_of_checkReadings hcheck,
    hc.inputSide.truths_eq_ok hc.conditions, hnumbers, hkeys, fun o ho => ?_⟩
  refine ⟨(s.sumsAt readings (s.truthsAt readings) o).1,
    (s.sumsAt readings (s.truthsAt readings) o).2, rfl, hc.weight_eq_zero_iff hroots hdegrees,
    fun hzero => ?_, fun hweight => ?_⟩
  · rw [hget o ho, System.mean_eq, if_pos hzero]
  · obtain ⟨lowest, highest, hlowest, hhighest, hbounds⟩ :=
      hc.exists_bounds hroots hdegrees hweight
    have hmem := hc.quotient_mem hroots hdegrees hweight hbounds
    refine ⟨?_, lowest, highest, hlowest, hhighest, hbounds, hmem.1, hmem.2⟩
    rw [hget o ho, System.mean_eq, if_neg hweight]

open RationalNumbers in
/-- A throttle for which both rules fire, and a brake that no rule is about. -/
def easing : List (Request ℚ) :=
  [.addInput "speed" 0 200, .addTerm ⟨1⟩ "high" fun x => if x < 100 then 1 / 4 else 1,
   .addOutput "throttle", .addOutput "brake",
   .addFunction ⟨1⟩ "ease" ⟨⟨[(⟨1⟩, 2)]⟩, 1⟩, .addFunction ⟨1⟩ "hold" ⟨{}, 7⟩,
   .addRule ⟨.single ⟨⟨1⟩, ⟨1⟩, false, none⟩, ⟨⟨1⟩, ⟨1⟩⟩⟩,
   .addRule ⟨.single ⟨⟨1⟩, ⟨1⟩, true, none⟩, ⟨⟨1⟩, ⟨2⟩⟩⟩]

open RationalNumbers in
theorem hasDegrees_easing : (run easing (.ofSettings {})).inputSide.HasDegrees := by
  intro term e he _ x
  have he' : e = ⟨"high", ⟨1⟩, fun x => if x < 100 then 1 / 4 else 1⟩ :=
    List.mem_singleton.mp (Registry.mem_entries_of_get? he)
  rw [he']
  show (if x < 100 then 1 / 4 else 1) ∈ Icc (0 : ℚ) 1
  split
  · exact ⟨by decide +kernel, by decide +kernel⟩
  · exact ⟨zero_le_one, le_rfl⟩

open RationalNumbers in
theorem reachable_convex_means_easing :
    ∃ numbers, (run easing (.ofSettings {})).calculate ⟨[(⟨1⟩, 10)]⟩ = .ok numbers
      ∧ numbers.get? ⟨1⟩ = some (21 / 2) ∧ numbers.get? ⟨2⟩ = some 0 := by
  have hcheck : (run easing (.ofSettings {})).inputSide.checkReadings ⟨[(⟨1⟩, 10)]⟩ = .ok () := rfl
  obtain ⟨-, numbers, -, -, hnumbers, -, hget⟩ := reachable_convex_means
    (reachable_run easing (.start {})) rootsOfDegrees hasDegrees_easing (by decide) hcheck
  obtain ⟨_, _, hthrottle, -, -, hmean⟩ := hget ⟨1⟩ (by decide)
  obtain ⟨_, _, hbrake, -, hzero, -⟩ := hget ⟨2⟩ (by decide)
  cases hthrottle
  cases hbrake
  refine ⟨numbers, hnumbers, ?_, hzero (by decide +kernel)⟩
  exact (hmean (by decide +kernel)).1.trans (by decide +kernel)

end FuzzyInference.Sugeno
