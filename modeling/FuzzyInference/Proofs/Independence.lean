import FuzzyInference.Proofs.Calculation
import FuzzyInference.Proofs.Mamdani.Growth
import FuzzyInference.Proofs.Sugeno.Growth

/-!
# Outputs do not interfere

A calculation works on all outputs at once: one map has the degrees of all terms,
one list the truths of all rules, and one loop goes over them. An addition makes
these larger. But the number for an output comes from its own rules alone, and
for these every operation has the operands it had, in the order it had them.
Nothing has to be known of the operations for that, so the number is the same
whatever the arithmetic.
-/

namespace FuzzyInference

variable {α : Type} [Scalar α]

/-- **With more rules, and an input side that accepts what it accepted, there is an answer where
there was one.** -/
theorem Answers.grow {ρ ω : Type} {rules more : List ρ} {side side' : InputSide α}
    {unavailable? : Option DefuzzificationMethod} {outputs outputs' : List ω}
    {readings : Readings α} {answer answer' : Except (Error α) (OrderedMap ω α)}
    (h : Answers rules side unavailable? outputs readings answer)
    (h' : Answers (rules ++ more) side' unavailable? outputs' readings answer')
    (hkeeps : side.Keeps side') {numbers : OrderedMap ω α} (hok : answer = .ok numbers) :
    ∃ numbers', answer' = .ok numbers' := by
  obtain ⟨hrules, hcheck, hmethod⟩ := h.accepted hok
  obtain ⟨numbers', hok', -⟩ := h'.numbers (List.append_ne_nil_of_left_ne_nil hrules more)
    (hkeeps.checkReadings hcheck) hmethod
  exact ⟨numbers', hok'⟩

/-! ## Mamdani systems -/

namespace Mamdani.System

variable {s t : System α} {more : List (Rule α)} {readings : Readings α} {o : VariableKey}

/-- **An output has the merged term that it had.** -/
theorem Enlarges.merged_eq (h : s.Enlarges t more) (hc : s.Consistent)
    (hmore : ∀ rule ∈ more, rule.conclusion.subject ≠ o) :
    t.merged (t.truthsAt readings) o = s.merged (s.truthsAt readings) o := by
  have himplication : t.implication = s.implication := congrArg Settings.implication h.settings
  have haggregation : t.aggregation = s.aggregation := congrArg Settings.aggregation h.settings
  have hconcluding : t.concluding (t.truthsAt readings) o = s.concluding (s.truthsAt readings) o :=
    h.inputSide.concludingOf_eq h.rules hc.conditions hmore
  unfold merged
  rw [hconcluding, haggregation]
  have hlimited : ∀ e ∈ s.concluding (s.truthsAt readings) o,
      (t.limited e.1 e.2).value = (s.limited e.1 e.2).value := by
    intro e he
    obtain ⟨term, hterm, -⟩ := (hc.rules e.1 (List.of_mem_zip (List.mem_of_mem_filter he)).1).value
    have hmembership : t.table.membershipOf e.1.conclusion.value
        = s.table.membershipOf e.1.conclusion.value := h.table.membershipOf hterm
    unfold limited
    rw [himplication, hmembership]
  rw [List.map_congr_left hlimited]

/-- An output has the domain that it had. -/
theorem Enlarges.centerOver_eq (h : s.Enlarges t more) (hc : s.Consistent) (ho : o ∈ s.outputs)
    (membership : α → α) : t.centerOver o membership = s.centerOver o membership := by
  obtain ⟨v, hv⟩ := hc.exists_output ho
  obtain ⟨v', hv', -⟩ := h.table.variableAt o v hv
  obtain ⟨hmin, hmax⟩ := h.inputSide.table.domain o v v' hv hv'
  unfold centerOver
  rw [hv, hv']
  show centerOfGravity membership v'.min v'.max = centerOfGravity membership v.min v.max
  rw [hmin, hmax]

/-- **An enlarged system answers where the system did, and an output without new rules has the
number that it had.** -/
theorem Enlarges.calculate (h : s.Enlarges t more) (hc : s.Consistent) (hc' : t.Consistent)
    {numbers : OrderedMap VariableKey α} (hnumbers : s.calculate readings = .ok numbers) :
    ∃ numbers', t.calculate readings = .ok numbers'
      ∧ ∀ o ∈ s.outputs, (∀ rule ∈ more, rule.conclusion.subject ≠ o) →
          ∃ x, numbers.get? o = some x ∧ numbers'.get? o = some x := by
  have hanswers := hc'.answers readings
  have hmethod : t.defuzzification = s.defuzzification :=
    congrArg Settings.defuzzification h.settings
  rw [h.rules, hmethod] at hanswers
  obtain ⟨numbers', hnumbers'⟩ := (hc.answers readings).grow hanswers h.inputSide hnumbers
  refine ⟨numbers', hnumbers', fun o ho hmore => ⟨_, hc.get?_of_calculate hnumbers ho, ?_⟩⟩
  rw [hc'.get?_of_calculate hnumbers' (h.outputs ho), h.merged_eq hc hmore, h.centerOver_eq hc ho]

end Mamdani.System

/-! ## Sugeno systems -/

namespace Sugeno.System

variable {s t : System α} {more : List Rule} {readings : Readings α} {o : OutputKey}

/-- **An output has the sums that it had.** -/
theorem Enlarges.sumsAt_eq (h : s.Enlarges t more) (hc : s.Consistent)
    (hmore : ∀ rule ∈ more, rule.conclusion.subject ≠ o) :
    t.sumsAt readings (t.truthsAt readings) o = s.sumsAt readings (s.truthsAt readings) o := by
  have hconcluding : t.concluding (t.truthsAt readings) o = s.concluding (s.truthsAt readings) o :=
    h.inputSide.concludingOf_eq h.rules hc.conditions hmore
  unfold sumsAt
  rw [hconcluding]
  refine List.foldl_ext _ _ _ fun sums e he => ?_
  obtain ⟨f, hf, -⟩ := (hc.rules e.1 (List.of_mem_zip (List.mem_of_mem_filter he)).1).value
  -- the function that a rule concludes is the one that it was
  have hvalue : t.valueAt readings e.1.conclusion.value
      = s.valueAt readings e.1.conclusion.value := by
    unfold valueAt
    rw [hf, h.functionAt _ f hf]
  unfold countIn
  rw [hvalue]

/-- **An enlarged system answers where the system did, and an output without new rules has the
number that it had.** -/
theorem Enlarges.calculate (h : s.Enlarges t more) (hc : s.Consistent) (hc' : t.Consistent)
    {numbers : OrderedMap OutputKey α} (hnumbers : s.calculate readings = .ok numbers) :
    ∃ numbers', t.calculate readings = .ok numbers'
      ∧ ∀ o ∈ s.outputs.keys, (∀ rule ∈ more, rule.conclusion.subject ≠ o) →
          ∃ x, numbers.get? o = some x ∧ numbers'.get? o = some x := by
  have hanswers := hc'.answers readings
  rw [h.rules] at hanswers
  obtain ⟨numbers', hnumbers'⟩ := (hc.answers readings).grow hanswers h.inputSide hnumbers
  refine ⟨numbers', hnumbers', fun o ho hmore => ⟨_, hc.get?_of_calculate hnumbers ho, ?_⟩⟩
  obtain ⟨output, houtput⟩ := Registry.mem_keys_iff.mp ho
  obtain ⟨output', houtput', -⟩ := h.outputAt o output houtput
  rw [hc'.get?_of_calculate hnumbers' (Registry.mem_keys_iff.mpr ⟨output', houtput'⟩),
    h.sumsAt_eq hc hmore]

end Sugeno.System

/-! ## Both kinds -/

/-- **What is added for one output changes no number of another.** Whatever terms, outputs,
functions and rules are added to a reachable system, of either kind, it answers wherever it did, and
every output that it had gets the very number it got, unless a rule was added that concludes it. -/
theorem reachable_additions :
    (∀ (s : Mamdani.System α) (readings : Readings α) numbers, Mamdani.Reachable s →
        s.calculate readings = .ok numbers →
        ∀ requests, (∀ request ∈ requests, Mamdani.Request.Adds request) →
        ∃ more numbers', (Mamdani.run requests s).rules = s.rules ++ more
          ∧ (∀ rule ∈ more, .addRule rule ∈ requests)
          ∧ (Mamdani.run requests s).calculate readings = .ok numbers'
          ∧ ∀ o ∈ s.outputs, (∀ rule ∈ more, rule.conclusion.subject ≠ o) →
              ∃ x, numbers.get? o = some x ∧ numbers'.get? o = some x)
      ∧ ∀ (s : Sugeno.System α) (readings : Readings α) numbers, Sugeno.Reachable s →
        s.calculate readings = .ok numbers →
        ∀ requests, (∀ request ∈ requests, Sugeno.Request.Adds request) →
        ∃ more numbers', (Sugeno.run requests s).rules = s.rules ++ more
          ∧ (∀ rule ∈ more, .addRule rule ∈ requests)
          ∧ (Sugeno.run requests s).calculate readings = .ok numbers'
          ∧ ∀ o ∈ s.outputs.keys, (∀ rule ∈ more, rule.conclusion.subject ≠ o) →
              ∃ x, numbers.get? o = some x ∧ numbers'.get? o = some x := by
  constructor
  · intro s readings numbers hs hnumbers requests hadds
    obtain ⟨more, henlarges, hmore⟩ := Mamdani.enlarges_run hadds s
    have hlater := (Mamdani.reachable_run requests hs).consistent
    obtain ⟨numbers', hnumbers', hget⟩ := henlarges.calculate hs.consistent hlater hnumbers
    exact ⟨more, numbers', henlarges.rules, hmore, hnumbers', hget⟩
  · intro s readings numbers hs hnumbers requests hadds
    obtain ⟨more, henlarges, hmore⟩ := Sugeno.enlarges_run hadds s
    have hlater := (Sugeno.reachable_run requests hs).consistent
    obtain ⟨numbers', hnumbers', hget⟩ := henlarges.calculate hs.consistent hlater hnumbers
    exact ⟨more, numbers', henlarges.rules, hmore, hnumbers', hget⟩

/-- A lamp that lights up when it is warm. -/
def lighting : List (Mamdani.Request Int) :=
  [.addTerm ⟨3⟩ "bright" id, .addRule ⟨⟨.single ⟨⟨1⟩, ⟨1⟩, false, none⟩, ⟨⟨3⟩, ⟨3⟩⟩⟩, 1⟩]

/-- A brake for high speed. -/
def braking : List (Sugeno.Request Int) :=
  [.addFunction ⟨2⟩ "pull" ⟨{}, 5⟩, .addRule ⟨.single ⟨⟨1⟩, ⟨1⟩, false, none⟩, ⟨⟨2⟩, ⟨3⟩⟩⟩]

open WholeNumbers Mamdani Sugeno in
theorem reachable_additions_lighting_and_braking :
    (∃ numbers, (Mamdani.run lighting (Mamdani.run ventilating (.ofSettings {}))).calculate
          ⟨[(⟨1⟩, 30)]⟩ = .ok numbers ∧ numbers.get? ⟨2⟩ = some 157)
      ∧ ∃ numbers, (Sugeno.run braking (Sugeno.run steering (.ofSettings {}))).calculate
          ⟨[(⟨1⟩, 10)]⟩ = .ok numbers ∧ numbers.get? ⟨1⟩ = some 14 := by
  obtain ⟨hmamdani, hsugeno⟩ := reachable_additions (α := Int)
  constructor
  · have hs := Mamdani.reachable_run ventilating (.start {})
    obtain ⟨numbers, h, -⟩ :=
      (hs.consistent.answers ⟨[(⟨1⟩, 30)]⟩).numbers (by decide) rfl rfl
    have hfan := hs.consistent.get?_of_calculate h (o := ⟨2⟩) (by decide)
    obtain ⟨more, numbers', -, hmore, h', hget⟩ :=
      hmamdani _ _ numbers hs h lighting (by simp [lighting, Mamdani.Request.Adds])
    have hlamp : ∀ rule, .addRule rule ∈ lighting → rule.conclusion.subject ≠ ⟨2⟩ := by
      intro rule hrule
      simp only [lighting, List.mem_cons, reduceCtorEq, Mamdani.Request.addRule.injEq,
        List.not_mem_nil, or_false, false_or] at hrule
      rw [hrule]
      decide
    obtain ⟨x, hx, hx'⟩ :=
      hget ⟨2⟩ (by decide) fun rule hrule => hlamp rule (hmore rule hrule)
    exact ⟨numbers', h', hx'.trans (hx.symm.trans (hfan.trans (by decide +kernel)))⟩
  · have hs := Sugeno.reachable_run steering (.start {})
    obtain ⟨numbers, h, -⟩ :=
      (hs.consistent.answers ⟨[(⟨1⟩, 10)]⟩).numbers (by decide) rfl rfl
    have hthrottle := hs.consistent.get?_of_calculate h (o := ⟨1⟩) (by decide)
    obtain ⟨more, numbers', -, hmore, h', hget⟩ :=
      hsugeno _ _ numbers hs h braking (by simp [braking, Sugeno.Request.Adds])
    have hbrake : ∀ rule, .addRule rule ∈ braking → rule.conclusion.subject ≠ ⟨1⟩ := by
      intro rule hrule
      simp only [braking, List.mem_cons, reduceCtorEq, Sugeno.Request.addRule.injEq,
        List.not_mem_nil, or_false, false_or] at hrule
      rw [hrule]
      decide
    obtain ⟨x, hx, hx'⟩ :=
      hget ⟨1⟩ (by decide) fun rule hrule => hbrake rule (hmore rule hrule)
    exact ⟨numbers', h', hx'.trans (hx.symm.trans (hthrottle.trans (by decide)))⟩

end FuzzyInference
