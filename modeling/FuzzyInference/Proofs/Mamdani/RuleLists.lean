import FuzzyInference.Proofs.Mamdani.Range
import FuzzyInference.Proofs.Calculation

/-!
# Mamdani systems with other rules

What becomes of a calculation if a system has other rules and is the same
otherwise? Rules enter in one way only, by what they come to for an output at
each number (`Consistent.alike_withRules`). That is a fold of what those rules
contribute that conclude the output (`mergedAt_truthsAt`).

With exact numbers the fold is the greatest contribution, or the sum of them, and
zero if there are none. So the order of rules does not matter
(`mergedAt_of_perm`), for the greatest not even how often a rule is listed
(`mergedAt_of_mem_iff`), and zero contributions can be left out
(`Consistent.mergedAt_withoutRule`).
-/

namespace FuzzyInference

variable {α : Type}

/-! ## Merging -/

namespace AggregationMethod

/-- Degrees merged from left to right, and zero if there are none. -/
def merge [Scalar α] (method : AggregationMethod) : List α → α
  | [] => 0
  | first :: rest => rest.foldl method.composition.apply first

variable [Exact α] {l l' : List α}

theorem merge_sum (l : List α) : AggregationMethod.sum.merge l = l.sum := by
  cases l with
  | nil =>
    rw [merge, Exact.numeral_eq, Nat.cast_zero, List.sum_nil]
  | cons first rest =>
    rw [List.sum_eq_foldl, List.foldl_cons, zero_add]
    rfl

theorem merge_max (first : α) (rest : List α) :
    some (AggregationMethod.max.merge (first :: rest)) = (first :: rest).max? := by
  have happly : (CompositionMethod.max.apply : α → α → α) = Max.max :=
    funext fun u => funext fun v => Exact.apply_max u v
  rw [List.max?_cons', ← happly]
  rfl

/-- **For the greatest degree it only matters which degrees there are.** -/
theorem merge_max_of_mem_iff (h : ∀ v, v ∈ l' ↔ v ∈ l) :
    AggregationMethod.max.merge l' = AggregationMethod.max.merge l := by
  cases l with
  | nil =>
    have hnil : l' = [] := List.eq_nil_iff_forall_not_mem.mpr fun v hv =>
      absurd ((h v).mp hv) List.not_mem_nil
    rw [hnil]
  | cons first rest =>
    cases l' with
    | nil => exact absurd ((h first).mpr List.mem_cons_self) List.not_mem_nil
    | cons first' rest' =>
      obtain ⟨hmem, hle⟩ := List.max?_eq_some_iff.mp (merge_max first rest).symm
      have hmax : (first' :: rest').max? = some (AggregationMethod.max.merge (first :: rest)) :=
        List.max?_eq_some_iff.mpr ⟨(h _).mpr hmem, fun v hv => hle v ((h v).mp hv)⟩
      exact Option.some.inj ((merge_max first' rest').trans hmax)

/-- **Degrees can be merged in any order.** -/
theorem merge_of_perm (method : AggregationMethod) (h : l'.Perm l) :
    method.merge l' = method.merge l := by
  cases method with
  | max => exact merge_max_of_mem_iff fun v => h.mem_iff
  | sum => rw [merge_sum, merge_sum, h.sum_eq]

/-- **To degrees that are not negative, zero adds nothing**, even if there are no others. -/
theorem merge_zero_cons (method : AggregationMethod) (h : ∀ v ∈ l, 0 ≤ v) :
    method.merge (0 :: l) = method.merge l := by
  cases method with
  | max =>
    cases l with
    | nil =>
      show (0 : α) = Scalar.ofNat 0
      rw [Exact.ofNat_eq, Nat.cast_zero]
    | cons first rest =>
      show rest.foldl _ (CompositionMethod.max.apply 0 first) = rest.foldl _ first
      rw [Exact.apply_max, max_eq_right (h first List.mem_cons_self)]
  | sum => rw [merge_sum, merge_sum, List.sum_cons, zero_add]

end AggregationMethod

/-- A term that is limited by zero is nowhere. -/
theorem ImplicationMethod.apply_zero [Exact α] (method : ImplicationMethod) {v : α} (hv : 0 ≤ v) :
    method.composition.apply 0 v = 0 := by
  cases method with
  | min => exact (Exact.apply_min 0 v).trans (min_eq_left hv)
  | prod => exact zero_mul v

namespace Mamdani

namespace System

/-! ## Other rules -/

/-- The system with these rules in place of its own. -/
def withRules (s : System α) (rules : List (Rule α)) : System α := { s with rules }

/-- The system without the rule at a position. -/
def withoutRule (s : System α) (i : Nat) : System α := s.withRules (s.rules.eraseIdx i)

/-- Rules that say nothing which the system's own do not say keep it consistent. -/
theorem Consistent.withRules [LE α] {s : System α} (hc : s.Consistent) {rules : List (Rule α)}
    (h : rules.map (·.toRule) ⊆ s.rules.map (·.toRule)) : (s.withRules rules).Consistent where
  table := hc.table
  inputs_nodup := hc.inputs_nodup
  outputs_nodup := hc.outputs_nodup
  disjoint := hc.disjoint
  mem_iff := hc.mem_iff
  rules := by
    intro rule hrule
    obtain ⟨r, hr, heq⟩ := List.mem_map.mp (h (List.mem_map_of_mem hrule))
    have hadmits := hc.rules r hr
    rw [heq] at hadmits
    exact hadmits.mono (List.Subset.refl _) (List.Subset.refl _) (.refl _)

section Scalar

/-! ## Contributions -/

variable [Scalar α] {s : System α} {rules : List (Rule α)} {readings : Readings α}

/-- What the rules which conclude an output contribute at `y`, each limited by its own truth. -/
def contributionsAt (s : System α) (readings : Readings α) (o : VariableKey) (y : α) : List α :=
  (s.rules.filter (·.conclusion.subject = o)).map fun rule =>
    s.limitedAt rule (s.inputSide.truthAt readings rule.condition) y

/-- **What rules come to is merged from what each contributes.** -/
theorem mergedAt_truthsAt (s : System α) (readings : Readings α) (o : VariableKey) (y : α) :
    s.mergedAt (s.truthsAt readings) o y
      = s.aggregation.merge (s.contributionsAt readings o y) := by
  unfold mergedAt contributionsAt concluding truthsAt
  rw [InputSide.concludingOf_truthsOf, List.map_map]
  rfl

theorem contributionsAt_withRules (s : System α) (rules : List (Rule α)) (readings : Readings α)
    (o : VariableKey) (y : α) :
    (s.withRules rules).contributionsAt readings o y
      = (rules.filter (·.conclusion.subject = o)).map fun rule =>
          s.limitedAt rule (s.inputSide.truthAt readings rule.condition) y := rfl

/-- A rule contributes to the output that it concludes. -/
theorem contributionsAt_cons (rule : Rule α) (o : VariableKey) (y : α) :
    (s.withRules (rule :: rules)).contributionsAt readings o y
      = if rule.conclusion.subject = o then
          s.limitedAt rule (s.inputSide.truthAt readings rule.condition) y
            :: (s.withRules rules).contributionsAt readings o y
        else (s.withRules rules).contributionsAt readings o y := by
  rw [contributionsAt_withRules, contributionsAt_withRules]
  by_cases hsubject : rule.conclusion.subject = o
  · rw [if_pos hsubject, List.filter_cons_of_pos (by simpa using hsubject), List.map_cons]
  · rw [if_neg hsubject, List.filter_cons_of_neg (by simpa using hsubject)]

/-- Rules that say the same contribute the same. -/
theorem contributionsAt_subset {rules' : List (Rule α)}
    (h : rules'.map (·.toRule) ⊆ rules.map (·.toRule)) (o : VariableKey) (y : α) :
    (s.withRules rules').contributionsAt readings o y
      ⊆ (s.withRules rules).contributionsAt readings o y := by
  intro v hv
  obtain ⟨rule, hrule, rfl⟩ := List.mem_map.mp hv
  obtain ⟨hmem, hsubject⟩ := List.mem_filter.mp hrule
  obtain ⟨r, hr, heq⟩ := List.mem_map.mp (h (List.mem_map_of_mem hmem))
  refine List.mem_map.mpr ⟨r, List.mem_filter.mpr ⟨hr, ?_⟩, ?_⟩
  · rw [heq]
    exact hsubject
  · unfold limitedAt
    rw [heq]
    rfl

/-! ## Calculations -/

/-- Two systems answer alike, since their rules come to the same at every number. -/
structure Alike (s t : System α) (readings : Readings α) : Prop where
  calculate : t.calculate readings = s.calculate readings
  mergedAt : ∀ o y, t.mergedAt (t.truthsAt readings) o y = s.mergedAt (s.truthsAt readings) o y

/-- **Rules enter a calculation only by what they come to.** -/
theorem Consistent.alike_withRules (hc : s.Consistent) (hc' : (s.withRules rules).Consistent)
    (hempty : rules = [] ↔ s.rules = [])
    (hmerged : ∀ o y, (s.withRules rules).mergedAt ((s.withRules rules).truthsAt readings) o y
      = s.mergedAt (s.truthsAt readings) o y) :
    s.Alike (s.withRules rules) readings := by
  have hvalue : ∀ o, ((s.withRules rules).merged ((s.withRules rules).truthsAt readings) o).value
      = (s.merged (s.truthsAt readings) o).value := by
    intro o
    funext y
    rw [value_merged, value_merged, hmerged]
  refine ⟨(hc.answers readings).congr (hc'.answers readings) hempty hc.outputs_nodup ?_, hmerged⟩
  intro numbers numbers' hnumbers hnumbers' o ho
  rw [hc.get?_of_calculate hnumbers ho, hc'.get?_of_calculate hnumbers' ho, hvalue]
  rfl

end Scalar

/-! ## Exact numbers -/

variable [Exact α] {s : System α} {rules : List (Rule α)} {readings : Readings α}

/-- **What rules come to does not depend on their order.** -/
theorem mergedAt_of_perm (h : rules.Perm s.rules) (o : VariableKey) (y : α) :
    (s.withRules rules).mergedAt ((s.withRules rules).truthsAt readings) o y
      = s.mergedAt (s.truthsAt readings) o y := by
  have hperm : ((s.withRules rules).contributionsAt readings o y).Perm
      (s.contributionsAt readings o y) := (h.filter _).map _
  rw [mergedAt_truthsAt, mergedAt_truthsAt]
  exact s.aggregation.merge_of_perm hperm

/-- **The greatest degree depends on what the rules say, and not on how often they say it.** -/
theorem mergedAt_of_mem_iff (hmax : s.aggregation = .max)
    (h : ∀ r, r ∈ rules.map (·.toRule) ↔ r ∈ s.rules.map (·.toRule)) (o : VariableKey) (y : α) :
    (s.withRules rules).mergedAt ((s.withRules rules).truthsAt readings) o y
      = s.mergedAt (s.truthsAt readings) o y := by
  have hmax' : (s.withRules rules).aggregation = .max := hmax
  have hless : (s.withRules rules).contributionsAt readings o y ⊆ s.contributionsAt readings o y :=
    contributionsAt_subset (fun r hr => (h r).mp hr) o y
  have hmore : (s.withRules s.rules).contributionsAt readings o y
      ⊆ (s.withRules rules).contributionsAt readings o y :=
    contributionsAt_subset (fun r hr => (h r).mpr hr) o y
  rw [mergedAt_truthsAt, mergedAt_truthsAt, hmax, hmax']
  exact AggregationMethod.merge_max_of_mem_iff fun v => ⟨fun hv => hless hv, fun hv => hmore hv⟩

/-- **Systems whose rules say the same answer alike**, if these come to the same. -/
theorem Consistent.alike_of_mem_iff (hc : s.Consistent)
    (h : ∀ r, r ∈ rules.map (·.toRule) ↔ r ∈ s.rules.map (·.toRule))
    (hmerged : ∀ o y, (s.withRules rules).mergedAt ((s.withRules rules).truthsAt readings) o y
      = s.mergedAt (s.truthsAt readings) o y) :
    s.Alike (s.withRules rules) readings := by
  have hempty : rules.map (·.toRule) = [] ↔ s.rules.map (·.toRule) = [] := by
    rw [List.eq_nil_iff_forall_not_mem, List.eq_nil_iff_forall_not_mem]
    exact forall_congr' fun r => not_congr (h r)
  rw [List.map_eq_nil_iff, List.map_eq_nil_iff] at hempty
  exact hc.alike_withRules (hc.withRules fun r hr => (h r).mp hr) hempty hmerged

/-! ## Without a rule -/

theorem Consistent.withoutRule (hc : s.Consistent) (i : Nat) : (s.withoutRule i).Consistent :=
  hc.withRules (List.map_subset _ List.eraseIdx_subset)

theorem Consistent.contributionsAt_nonneg (hc : s.Consistent) (hroots : RootsOfDegrees α)
    (hdegrees : s.inputSide.HasDegrees) (hareas : s.HasAreas) (o : VariableKey) (y : α) :
    ∀ v ∈ s.contributionsAt readings o y, 0 ≤ v := by
  intro v hv
  obtain ⟨rule, hrule, rfl⟩ := List.mem_map.mp hv
  have hmem := List.mem_of_mem_filter hrule
  have htruth := InputSide.truthAt_mem hroots hdegrees (hc.conditions rule hmem) readings
  exact hc.limitedAt_nonneg hareas hmem htruth.1 y

/-- **A rule that is not true to any extent comes to nothing**, wherever it stands. -/
theorem Consistent.mergedAt_withoutRule (hc : s.Consistent) (hroots : RootsOfDegrees α)
    (hdegrees : s.inputSide.HasDegrees) (hareas : s.HasAreas) {i : Nat}
    (hi : (s.truthsAt readings)[i]? = some 0) (o : VariableKey) (y : α) :
    (s.withoutRule i).mergedAt ((s.withoutRule i).truthsAt readings) o y
      = s.mergedAt (s.truthsAt readings) o y := by
  obtain ⟨rule, htruth, hperm⟩ := exists_cons_eraseIdx_perm hi
  have hrule : rule ∈ s.rules := hperm.subset List.mem_cons_self
  have hrest : ∀ v ∈ (s.withoutRule i).contributionsAt readings o y, 0 ≤ v :=
    (hc.withoutRule i).contributionsAt_nonneg hroots hdegrees hareas o y
  -- the rule may as well come first
  rw [← mergedAt_of_perm hperm, mergedAt_truthsAt, mergedAt_truthsAt]
  by_cases hsubject : rule.conclusion.subject = o
  · have hnothing : s.limitedAt rule (s.inputSide.truthAt readings rule.condition) y = 0 := by
      unfold limitedAt
      rw [htruth]
      exact s.implication.apply_zero (hc.membershipOf_nonneg hareas hrule y)
    rw [contributionsAt_cons, if_pos hsubject, hnothing]
    exact (s.aggregation.merge_zero_cons hrest).symm
  · rw [contributionsAt_cons, if_neg hsubject]
    rfl

/-- **A system answers alike without a rule that is not true to any extent.** -/
theorem Consistent.alike_withoutRule (hc : s.Consistent) (hroots : RootsOfDegrees α)
    (hdegrees : s.inputSide.HasDegrees) (hareas : s.HasAreas) (hrules : 2 ≤ s.rules.length)
    {i : Nat} (hi : (s.truthsAt readings)[i]? = some 0) :
    s.Alike (s.withoutRule i) readings :=
  hc.alike_withRules (hc.withoutRule i) (eraseIdx_eq_nil_iff_eq_nil hrules i)
    (hc.mergedAt_withoutRule hroots hdegrees hareas hi)

end System

end Mamdani

end FuzzyInference
