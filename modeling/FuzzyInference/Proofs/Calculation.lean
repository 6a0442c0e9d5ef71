import FuzzyInference.Proofs.Mamdani.Calculation
import FuzzyInference.Proofs.Sugeno.Calculation

/-!
# What becomes of a calculation

A calculation answers with one number for each output, or it is refused: for want
of rules, for a fault of the readings, or because the chosen method is not
available, in this order (`Answers`). There is nothing else that can happen to it
(`reachable_calculations`). The stages have other ways to fail, since each looks
up what an earlier one should have entered; that none of these is ever taken is
due to the consistency of reachable systems.
-/

namespace FuzzyInference

variable {α : Type}

/-- The method, unless it is available. -/
def DefuzzificationMethod.unavailable? : DefuzzificationMethod → Option DefuzzificationMethod
  | .centroid => none
  | method => some method

theorem DefuzzificationMethod.unavailable?_eq_none_iff {method : DefuzzificationMethod} :
    method.unavailable? = none ↔ method = .centroid := by
  cases method <;> simp [DefuzzificationMethod.unavailable?]

/-- The refusals that would be the system's fault: a reference to nothing, and a variable or a term
that it does not have. -/
def Error.IsInternal : Error α → Prop
  | .brokenReference => True
  | .foreignVariable _ => True
  | .foreignTerm _ => True
  | _ => False

variable [Scalar α]

/-- What a calculation answers, given its rules and readings, and the method that it would need and
that is not available. -/
structure Answers {ρ ω : Type} (rules : List ρ) (side : InputSide α)
    (unavailable? : Option DefuzzificationMethod) (outputs : List ω) (readings : Readings α)
    (answer : Except (Error α) (OrderedMap ω α)) : Prop where
  /-- Without rules there is nothing to calculate. -/
  noRules : rules = [] → answer = .error .noRules
  /-- Otherwise readings have to be accepted. -/
  refused : rules ≠ [] → ∀ e, side.checkReadings readings = .error e → answer = .error e
  /-- Otherwise the method has to be available. -/
  unavailable : rules ≠ [] → side.checkReadings readings = .ok () →
    ∀ method, unavailable? = some method → answer = .error (.unsupportedDefuzzification method)
  /-- Otherwise there is one number for each output and for nothing else. -/
  numbers : rules ≠ [] → side.checkReadings readings = .ok () → unavailable? = none →
    ∃ numbers, answer = .ok numbers ∧ numbers.keys = outputs

section Answers

variable {ρ ω : Type} {rules : List ρ} {side : InputSide α}
  {unavailable? : Option DefuzzificationMethod} {outputs : List ω} {readings : Readings α}
  {answer : Except (Error α) (OrderedMap ω α)}

/-- **There are three reasons for a refusal, and none of them is the system's.** -/
theorem Answers.error_cases (h : Answers rules side unavailable? outputs readings answer)
    (hc : side.Consistent) {e : Error α} (he : answer = .error e) :
    e = .noRules ∨ side.ReadingError readings e
      ∨ ∃ method, e = .unsupportedDefuzzification method := by
  by_cases hrules : rules = []
  · rw [h.noRules hrules] at he
    cases he
    exact Or.inl rfl
  cases hcheck : side.checkReadings readings with
  | error e' =>
    rw [h.refused hrules e' hcheck] at he
    cases he
    exact Or.inr (Or.inl (hc.readingError hcheck))
  | ok _ =>
    cases hmethod : unavailable? with
    | some method =>
      rw [h.unavailable hrules hcheck method hmethod] at he
      cases he
      exact Or.inr (Or.inr ⟨method, rfl⟩)
    | none =>
      obtain ⟨numbers, hnumbers, -⟩ := h.numbers hrules hcheck hmethod
      rw [hnumbers] at he
      exact absurd he (by simp)

/-- **Numbers are answered only if nothing stands against it.** -/
theorem Answers.accepted (h : Answers rules side unavailable? outputs readings answer)
    {numbers : OrderedMap ω α} (hok : answer = .ok numbers) :
    rules ≠ [] ∧ side.checkReadings readings = .ok () ∧ unavailable? = none := by
  have hrules : rules ≠ [] := by
    intro hnone
    rw [h.noRules hnone] at hok
    exact absurd hok (by simp)
  cases hcheck : side.checkReadings readings with
  | error e =>
    rw [h.refused hrules e hcheck] at hok
    exact absurd hok (by simp)
  | ok _ =>
    cases hmethod : unavailable? with
    | some method =>
      rw [h.unavailable hrules hcheck method hmethod] at hok
      exact absurd hok (by simp)
    | none => exact ⟨hrules, rfl, rfl⟩

theorem not_isInternal_of_readingError {e : Error α} (h : side.ReadingError readings e) :
    ¬ e.IsInternal := by
  cases h <;> exact not_false

theorem Answers.not_isInternal (h : Answers rules side unavailable? outputs readings answer)
    (hc : side.Consistent) {e : Error α} (he : answer = .error e) : ¬ e.IsInternal := by
  rcases h.error_cases hc he with rfl | hreading | ⟨method, rfl⟩
  · exact not_false
  · exact not_isInternal_of_readingError hreading
  · exact not_false

/-- **Calculations that are refused for the same reasons answer alike**, if they give each output
the same number where they both answer. -/
theorem Answers.congr [DecidableEq ω] {ρ' : Type} {rules' : List ρ'}
    {answer' : Except (Error α) (OrderedMap ω α)}
    (h : Answers rules side unavailable? outputs readings answer)
    (h' : Answers rules' side unavailable? outputs readings answer')
    (hempty : rules' = [] ↔ rules = []) (hnodup : outputs.Nodup)
    (hget : ∀ numbers numbers', answer = .ok numbers → answer' = .ok numbers' →
      ∀ o ∈ outputs, numbers'.get? o = numbers.get? o) : answer' = answer := by
  by_cases hrules : rules = []
  · rw [h.noRules hrules, h'.noRules (hempty.mpr hrules)]
  have hrules' : rules' ≠ [] := fun hnone => hrules (hempty.mp hnone)
  cases hcheck : side.checkReadings readings with
  | error e => rw [h.refused hrules e hcheck, h'.refused hrules' e hcheck]
  | ok _ =>
    cases hmethod : unavailable? with
    | some method =>
      rw [h.unavailable hrules hcheck method hmethod, h'.unavailable hrules' hcheck method hmethod]
    | none =>
      obtain ⟨numbers, hok, hkeys⟩ := h.numbers hrules hcheck hmethod
      obtain ⟨numbers', hok', hkeys'⟩ := h'.numbers hrules' hcheck hmethod
      have heq : numbers' = numbers :=
        OrderedMap.eq_of_get? (hkeys ▸ hnodup) (hkeys'.trans hkeys.symm)
          (hkeys ▸ hget numbers numbers' hok hok')
      rw [hok, hok', heq]

end Answers

/-- Whatever a calculation looks up is there: every term that an input lists, and the degree of
whatever a condition is about. -/
structure InputSide.FindsAll (s : InputSide α) (readings : Readings α) (cs : List Condition) :
    Prop where
  terms : ∀ k v, k ∈ s.inputs → s.table.variableAt? k = some v →
    (s.table.termsOf k).map Prod.fst = v.terms
  degrees : ∀ fuzzified, s.fuzzify readings = .ok fuzzified → ∀ c ∈ cs, ∀ p ∈ c.propositions,
    ∃ d, fuzzified.get? (p.subject, p.term) = some d

theorem InputSide.Consistent.findsAll {s : InputSide α} (hc : s.Consistent) (readings : Readings α)
    {ρ : Type} {rules : List ρ} {condition : ρ → Condition}
    (hadmits : ∀ rule ∈ rules, s.Admits (condition rule)) :
    s.FindsAll readings (rules.map condition) where
  terms := fun _ _ _ hv => hc.table.keys_termsOf hv
  degrees := by
    intro fuzzified hfuzzify c hmem p hp
    obtain ⟨rule, hrule, rfl⟩ := List.mem_map.mp hmem
    have hcheck : s.checkReadings readings = .ok () := by
      obtain ⟨_, hcheck, -⟩ := bind_eq_ok_iff.mp hfuzzify
      exact hcheck
    rw [fuzzify_of_checkReadings hcheck] at hfuzzify
    cases hfuzzify
    exact ⟨_, hc.get?_degrees_of_admits (hadmits rule hrule) hp⟩

/-! ## Both kinds -/

theorem Mamdani.System.Consistent.answers {s : Mamdani.System α} (hc : s.Consistent)
    (readings : Readings α) :
    Answers s.rules s.inputSide s.defuzzification.unavailable? s.outputs readings
      (s.calculate readings) where
  noRules := InputSide.calculateBy_noRules
  refused := fun hrules _ h => InputSide.calculateBy_refused hrules h
  unavailable := by
    intro hrules hcheck method hmethod
    have hne : s.defuzzification ≠ .centroid := by
      intro h
      rw [h] at hmethod
      exact absurd hmethod (by simp [DefuzzificationMethod.unavailable?])
    have heq : s.defuzzification = method := by
      cases hm : s.defuzzification <;> rw [hm] at hmethod <;> cases hmethod <;> rfl
    rw [← heq]
    exact hc.calculate_unsupported hrules hcheck hne
  numbers := by
    intro hrules hcheck hmethod
    have heq := DefuzzificationMethod.unavailable?_eq_none_iff.mp hmethod
    obtain ⟨numbers, hnumbers, hkeys, -⟩ := hc.calculate_centroid hrules hcheck heq
    exact ⟨numbers, hnumbers, hkeys⟩

/-- **Where a system answers, an output has its center of gravity.** -/
theorem Mamdani.System.Consistent.get?_of_calculate {s : Mamdani.System α} (hc : s.Consistent)
    {readings : Readings α} {numbers : OrderedMap VariableKey α}
    (h : s.calculate readings = .ok numbers) {o : VariableKey} (ho : o ∈ s.outputs) :
    numbers.get? o = some (s.centerOver o (s.merged (s.truthsAt readings) o).value) := by
  obtain ⟨hrules, hcheck, hmethod⟩ := (hc.answers readings).accepted h
  obtain ⟨numbers', hnumbers, -, hget⟩ := hc.calculate_centroid hrules hcheck
    (DefuzzificationMethod.unavailable?_eq_none_iff.mp hmethod)
  cases h.symm.trans hnumbers
  exact hget o ho

theorem Sugeno.System.Consistent.answers {s : Sugeno.System α} (hc : s.Consistent)
    (readings : Readings α) :
    Answers s.rules s.inputSide none s.outputs.keys readings (s.calculate readings) where
  noRules := InputSide.calculateBy_noRules
  refused := fun hrules _ h => InputSide.calculateBy_refused hrules h
  unavailable := by
    intro _ _ method hmethod
    cases hmethod
  numbers := by
    intro hrules hcheck _
    obtain ⟨numbers, hnumbers, hkeys, -⟩ := hc.calculate_means hrules hcheck
    exact ⟨numbers, hnumbers, hkeys⟩

/-- **Where a system answers, an output has its weighted mean.** -/
theorem Sugeno.System.Consistent.get?_of_calculate {s : Sugeno.System α} (hc : s.Consistent)
    {readings : Readings α} {numbers : OrderedMap OutputKey α}
    (h : s.calculate readings = .ok numbers) {o : OutputKey} (ho : o ∈ s.outputs.keys) :
    numbers.get? o = some (System.mean (s.sumsAt readings (s.truthsAt readings) o)) := by
  obtain ⟨hrules, hcheck, -⟩ := (hc.answers readings).accepted h
  obtain ⟨numbers', hnumbers, -, hget⟩ := hc.calculate_means hrules hcheck
  cases h.symm.trans hnumbers
  exact hget o ho

/-- **A calculation gives one number for each output, or it is refused for want of rules, for a
fault of the readings, or for its method.** This is so for every reachable system, of either kind,
and for all readings. -/
theorem reachable_calculations :
    (∀ (s : Mamdani.System α) (readings : Readings α), Mamdani.Reachable s →
        Answers s.rules s.inputSide s.defuzzification.unavailable? s.outputs readings
          (s.calculate readings)
        ∧ s.outputs.Nodup
        ∧ (∀ e, s.calculate readings = .error e → ¬ e.IsInternal)
        ∧ s.inputSide.FindsAll readings (s.rules.map (·.condition)))
      ∧ ∀ (s : Sugeno.System α) (readings : Readings α), Sugeno.Reachable s →
        Answers s.rules s.inputSide none s.outputs.keys readings (s.calculate readings)
        ∧ s.outputs.keys.Nodup
        ∧ (∀ e, s.calculate readings = .error e → ¬ e.IsInternal)
        ∧ s.inputSide.FindsAll readings (s.rules.map (·.condition)) := by
  refine ⟨fun s readings h => ?_, fun s readings h => ?_⟩
  · have hc := h.consistent
    exact ⟨hc.answers readings, hc.outputs_nodup,
      fun e he => (hc.answers readings).not_isInternal hc.inputSide he,
      hc.inputSide.findsAll readings hc.conditions⟩
  · have hc := h.consistent
    exact ⟨hc.answers readings, s.outputs.nodup_keys,
      fun e he => (hc.answers readings).not_isInternal hc.inputSide he,
      hc.inputSide.findsAll readings hc.conditions⟩

open WholeNumbers Mamdani Sugeno in
theorem reachable_calculations_ventilating_and_steering :
    (Mamdani.run ventilating (.ofSettings {})).calculate ⟨[]⟩ = .error (.inputCount 1 0)
      ∧ (Mamdani.run (ventilating ++ [.set (.defuzzification .bisector)])
            (.ofSettings {})).calculate ⟨[(⟨1⟩, 30)]⟩
          = .error (.unsupportedDefuzzification .bisector)
      ∧ ∃ numbers, (Sugeno.run steering (.ofSettings {})).calculate ⟨[(⟨1⟩, 10)]⟩ = .ok numbers
          ∧ numbers.keys = [⟨1⟩, ⟨2⟩] := by
  obtain ⟨hmamdani, hsugeno⟩ := reachable_calculations (α := Int)
  have hrefused := (hmamdani _ ⟨[]⟩ (Mamdani.reachable_run ventilating (.start {}))).1
  have hunavailable := (hmamdani _ ⟨[(⟨1⟩, 30)]⟩ (Mamdani.reachable_run
    (ventilating ++ [.set (.defuzzification .bisector)]) (.start {}))).1
  have hnumbers := (hsugeno _ ⟨[(⟨1⟩, 10)]⟩ (Sugeno.reachable_run steering (.start {}))).1
  exact ⟨hrefused.refused (by decide) _ rfl, hunavailable.unavailable (by decide) rfl _ rfl,
    hnumbers.numbers (by decide) rfl rfl⟩

end FuzzyInference
