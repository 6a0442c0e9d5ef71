import FuzzyInference.Proofs.Sugeno.Consistency
import FuzzyInference.Proofs.Truths

/-!
# What a Sugeno system calculates

One loop over the rules adds up the sums for all outputs at once, and looks the
values of functions up in a map that was made beforehand. For one output it comes
to the loop over those rules that conclude it (`foldlM_count`): what another rule
adds goes to another output. Both look-ups succeed for every rule there is, since
rules conclude functions and outputs of the system.
-/

namespace FuzzyInference.Sugeno

variable {α : Type}

namespace System

variable [Scalar α] {s : System α} {readings : Readings α}

/-! ## Without maps -/

/-- The truth of every rule at some readings. -/
def truthsAt (s : System α) (readings : Readings α) : List α :=
  s.inputSide.truthsOf (·.condition) s.rules readings

/-- The rules that have a truth and conclude an output, with their truths. -/
def concluding (s : System α) (truths : List α) (o : OutputKey) : List (Rule × α) :=
  concludingOf (·.conclusion.subject) s.rules truths o

/-- The value of a function at some readings. A key of no function has none. -/
def valueAt (s : System α) (readings : Readings α) (key : FunctionKey) : α :=
  match s.functionAt? key with
  | some f => f.function.evaluate readings
  | none => Scalar.nan

/-- Sums with one rule more, given the values of functions: the value that the rule concludes times
its truth, and its truth. -/
def countIn (value : FunctionKey → α) (sums : α × α) (e : Rule × α) : α × α :=
  (sums.1 + e.2 * value e.1.conclusion.value, sums.2 + e.2)

/-- The two sums do not depend on each other. -/
theorem foldl_countIn (value : FunctionKey → α) (l : List (Rule × α)) (sums : α × α) :
    l.foldl (countIn value) sums
      = ((l.map fun e => e.2 * value e.1.conclusion.value).foldl (· + ·) sums.1,
          (l.map Prod.snd).foldl (· + ·) sums.2) := by
  induction l generalizing sums with
  | nil => rfl
  | cons e l ih => exact ih (countIn value sums e)

/-- The sums over the rules that conclude an output, in the order of the rules. -/
def sumsAt (s : System α) (readings : Readings α) (truths : List α) (o : OutputKey) : α × α :=
  (s.concluding truths o).foldl (countIn (s.valueAt readings)) (0, 0)

/-! ## Looking up -/

theorem get?_functionValues {key : FunctionKey} {f : OutputFunction α}
    (hf : s.functionAt? key = some f) :
    (s.functionValues readings).get? key = some (s.valueAt readings key) := by
  have hnodup : (⟨s.functions.toList⟩ : OrderedMap FunctionKey (OutputFunction α)).keys.Nodup :=
    s.functions.nodup_keys
  have hget : (⟨s.functions.toList⟩ : OrderedMap FunctionKey (OutputFunction α)).get? key
      = some f :=
    (OrderedMap.get?_eq_some_iff hnodup).mpr (Registry.mem_toList_iff.mpr hf)
  have hvalues := OrderedMap.get?_map_entries
    (fun _ (f : OutputFunction α) => f.function.evaluate readings) ⟨s.functions.toList⟩ key
  rw [hget, Option.map_some] at hvalues
  unfold valueAt
  rw [hf]
  exact hvalues

/-! ## The loop -/

theorem count_eq_ok {values : OrderedMap FunctionKey α} {value : FunctionKey → α} {sums : Sums α}
    {e : Rule × α} {b : α × α}
    (hvalue : values.get? e.1.conclusion.value = some (value e.1.conclusion.value))
    (hsums : sums.get? e.1.conclusion.subject = some b) :
    count values sums e.1 e.2 = .ok (sums.insert e.1.conclusion.subject (countIn value b e)) := by
  unfold count
  rw [hvalue, hsums]
  rfl

/-- **The loop adds to the sums of an output what its rules add**, and to those of all outputs at
once. -/
theorem foldlM_count {values : OrderedMap FunctionKey α} (value : FunctionKey → α)
    (l : List (Rule × α)) (sums : Sums α)
    (hvalue : ∀ e ∈ l, values.get? e.1.conclusion.value = some (value e.1.conclusion.value))
    (hsubject : ∀ e ∈ l, e.1.conclusion.subject ∈ sums.keys) :
    ∃ sums', l.foldlM (fun sums e => count values sums e.1 e.2) sums = .ok sums'
      ∧ sums'.keys = sums.keys
      ∧ ∀ o, sums'.get? o = (sums.get? o).map fun b =>
          (l.filter fun e => e.1.conclusion.subject = o).foldl (countIn value) b := by
  induction l generalizing sums with
  | nil => exact ⟨sums, rfl, rfl, fun o => by simp⟩
  | cons e l ih =>
    obtain ⟨hvalue, hvalues⟩ := List.forall_mem_cons.mp hvalue
    obtain ⟨hsubject, hsubjects⟩ := List.forall_mem_cons.mp hsubject
    obtain ⟨b, hb⟩ := OrderedMap.exists_get?_of_mem_keys hsubject
    have hkeys := OrderedMap.keys_insert_of_mem hsubject (countIn value b e)
    obtain ⟨sums', hfold, hkeys', hget⟩ :=
      ih (sums.insert e.1.conclusion.subject (countIn value b e)) hvalues
        (fun e' he' => hkeys ▸ hsubjects e' he')
    refine ⟨sums', ?_, hkeys'.trans hkeys, fun o => ?_⟩
    · rw [List.foldlM_cons, count_eq_ok hvalue hb, ok_bind, hfold]
    · rw [hget, OrderedMap.get?_insert]
      by_cases ho : o = e.1.conclusion.subject
      · rw [if_pos ho, ho, hb, List.filter_cons_of_pos (by simp)]
        rfl
      · rw [if_neg ho, List.filter_cons_of_neg (by simpa using Ne.symm ho)]

/-- **For whatever truths, every output gets the mean over the rules that conclude it.** -/
theorem Consistent.combine_eq_ok (hc : s.Consistent) (readings : Readings α) (truths : List α) :
    ∃ numbers, s.combine truths (s.functionValues readings) = .ok numbers
      ∧ numbers.keys = s.outputs.keys
      ∧ ∀ o ∈ s.outputs.keys, numbers.get? o = some (mean (s.sumsAt readings truths o)) := by
  have hadmits : ∀ e ∈ s.rules.zip truths, s.Admits e.1 :=
    fun e he => hc.rules e.1 (List.of_mem_zip he).1
  let start : Sums α := ⟨s.outputs.keys.map fun key => (key, (0, 0))⟩
  have hstart : start.keys = s.outputs.keys := OrderedMap.keys_tabulate _ _
  obtain ⟨sums, hfold, hkeys, hget⟩ := foldlM_count (s.valueAt readings)
    (s.rules.zip truths) start
    (fun e he => by
      obtain ⟨f, hf, -⟩ := (hadmits e he).value
      exact get?_functionValues hf)
    (fun e he => hstart ▸ Registry.mem_keys_iff.mpr (hadmits e he).subject)
  refine ⟨sums.map mean, ?_, ?_, fun o ho => ?_⟩
  · show (List.foldlM _ start (s.rules.zip truths) >>= _) = _
    exact bind_eq_ok_iff.mpr ⟨sums, hfold, rfl⟩
  · exact (OrderedMap.keys_map_entries (fun _ => mean) sums).trans (hkeys.trans hstart)
  · refine (OrderedMap.get?_map_entries (fun _ => mean) sums o).trans ?_
    rw [hget, OrderedMap.get?_tabulate ho]
    rfl

/-! ## The calculation -/

/-- A calculation combines the values of functions by the truths of rules. -/
theorem calculate_eq_calculateBy (s : System α) (readings : Readings α) :
    s.calculate readings
      = s.inputSide.calculateBy (·.condition) s.rules
          (fun truths => s.combine truths (s.functionValues readings)) readings := rfl

/-- **From accepted readings the rules are combined with their truths at these readings.** -/
theorem Consistent.calculate_eq (hc : s.Consistent) (hrules : s.rules ≠ [])
    (h : s.inputSide.checkReadings readings = .ok ()) :
    s.calculate readings = s.combine (s.truthsAt readings) (s.functionValues readings) := by
  rw [calculate_eq_calculateBy, hc.inputSide.calculateBy_eq hc.conditions hrules h]
  rfl

/-- **Every output gets the mean over the rules that conclude it.** -/
theorem Consistent.calculate_means (hc : s.Consistent) (hrules : s.rules ≠ [])
    (h : s.inputSide.checkReadings readings = .ok ()) :
    ∃ numbers, s.calculate readings = .ok numbers ∧ numbers.keys = s.outputs.keys
      ∧ ∀ o ∈ s.outputs.keys,
          numbers.get? o = some (mean (s.sumsAt readings (s.truthsAt readings) o)) := by
  rw [hc.calculate_eq hrules h]
  exact hc.combine_eq_ok readings (s.truthsAt readings)

end System

/-! ## Reachable systems -/

variable [Scalar α]

/-- **A calculation is what its rules say.** For whatever truths, an output gets the quotient of the
two sums over the rules that conclude it, and zero if the sum of truths is zero; as it is, as long
as zero equals itself, if there are no such rules. From accepted readings that is the number for
the output, with the truths that its rules have at the readings themselves. -/
theorem reachable_weighted_means {s : System α} (h : Reachable s) :
    (∀ readings truths, ∃ numbers,
        s.combine truths (s.functionValues readings) = .ok numbers
        ∧ numbers.keys = s.outputs.keys
        ∧ (∀ o ∈ s.outputs.keys, numbers.get? o
            = some (if (s.sumsAt readings truths o).2 == 0 then 0
                else (s.sumsAt readings truths o).1 / (s.sumsAt readings truths o).2))
        ∧ (((0 : α) == 0) = true → ∀ o ∈ s.outputs.keys, s.concluding truths o = [] →
            numbers.get? o = some 0))
      ∧ ∀ readings, s.rules ≠ [] → s.inputSide.checkReadings readings = .ok () →
          ∃ numbers, s.calculate readings = .ok numbers ∧ numbers.keys = s.outputs.keys
            ∧ ∀ o ∈ s.outputs.keys, numbers.get? o
                = some (if (s.sumsAt readings (s.truthsAt readings) o).2 == 0 then 0
                    else (s.sumsAt readings (s.truthsAt readings) o).1
                      / (s.sumsAt readings (s.truthsAt readings) o).2) := by
  have hc := h.consistent
  refine ⟨fun readings truths => ?_,
    fun readings hrules hcheck => hc.calculate_means hrules hcheck⟩
  obtain ⟨numbers, hcombine, hkeys, hget⟩ := hc.combine_eq_ok readings truths
  refine ⟨numbers, hcombine, hkeys, hget, fun hzero o ho hnone => ?_⟩
  have hsums : s.sumsAt readings truths o = (0, 0) := by
    unfold System.sumsAt
    rw [hnone, List.foldl_nil]
  rw [hget o ho, hsums, System.mean, if_pos hzero]

open WholeNumbers in
/-- A system that steers a throttle by two rules, and has a brake that no rule is about. -/
def steering : List (Request Int) :=
  [.addInput "speed" 0 200, .addTerm ⟨1⟩ "high" id, .addOutput "throttle", .addOutput "brake",
   .addFunction ⟨1⟩ "ease" ⟨⟨[(⟨1⟩, 2)]⟩, 1⟩, .addFunction ⟨1⟩ "hold" ⟨{}, 7⟩,
   .addRule ⟨.single ⟨⟨1⟩, ⟨1⟩, false, none⟩, ⟨⟨1⟩, ⟨1⟩⟩⟩,
   .addRule ⟨.single ⟨⟨1⟩, ⟨1⟩, false, none⟩, ⟨⟨1⟩, ⟨2⟩⟩⟩]

open WholeNumbers in
theorem reachable_weighted_means_steering :
    (∃ numbers, (run steering (.ofSettings {})).calculate ⟨[(⟨1⟩, 10)]⟩ = .ok numbers
        ∧ numbers.get? ⟨1⟩ = some 14)
      ∧ ∃ numbers, (run steering (.ofSettings {})).combine [3]
            ((run steering (.ofSettings {})).functionValues ⟨[(⟨1⟩, 10)]⟩) = .ok numbers
          ∧ numbers.get? ⟨1⟩ = some 21 ∧ numbers.get? ⟨2⟩ = some 0 := by
  obtain ⟨hcombine, hcalculate⟩ :=
    reachable_weighted_means (reachable_run steering (.start {}))
  constructor
  · obtain ⟨numbers, h, -, hget⟩ := hcalculate ⟨[(⟨1⟩, 10)]⟩ (by decide) rfl
    exact ⟨numbers, h, (hget ⟨1⟩ (by decide)).trans (by decide)⟩
  · -- the second rule is left out for want of a truth
    obtain ⟨numbers, h, -, hget, hnone⟩ := hcombine ⟨[(⟨1⟩, 10)]⟩ [3]
    have hbrake := hnone (by decide) ⟨2⟩ (by decide) rfl
    exact ⟨numbers, h, (hget ⟨1⟩ (by decide)).trans (by decide), hbrake⟩

end FuzzyInference.Sugeno
