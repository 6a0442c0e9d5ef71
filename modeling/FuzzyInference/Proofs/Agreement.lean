import FuzzyInference.Proofs.Fuzzification
import FuzzyInference.Proofs.Mamdani.Consistency
import FuzzyInference.Proofs.Sugeno.Consistency

/-!
# What can be checked can be evaluated

Before readings are there, a condition is checked against the variables: each of
its propositions has to be about an input, and the term has to know this input as
its owner. Once there are readings, a condition is looked up in a map, which was
made by going through the inputs and through the terms that each of them lists.

The two do not share anything but the variables, yet they say the same of every
condition (`Consistent.graded`). They do because owners and lists agree. An
output may have terms as well, but no list of inputs leads there.
-/

namespace FuzzyInference

variable {α : Type} [Scalar α]

namespace InputSide

/-- What degrees there are for some readings, and what can be done with them. -/
structure Graded (s : InputSide α) (readings : Readings α) (fuzzified : Fuzzified α) : Prop where
  nodup : fuzzified.keys.Nodup
  /-- There are degrees for the inputs with the terms they own, and for nothing else. -/
  mem_keys_iff : ∀ key term,
    (key, term) ∈ fuzzified.keys ↔ key ∈ s.inputs ∧ s.table.owns key term
  /-- The degree of a term is its membership at the reading of its owner. -/
  degree : ∀ term e, s.table.termAt? term = some e → e.owner ∈ s.inputs →
    ∃ x, readings.get? e.owner = some x
      ∧ fuzzified.get? (e.owner, term) = some (e.membership x)
  /-- A condition passes the check exactly if it can be evaluated. -/
  check_iff : ∀ c, s.checkCondition c = .ok () ↔ ∃ truth, s.evaluate fuzzified c = .ok truth

variable {s : InputSide α} {readings : Readings α}

/-- A proposition has a degree exactly if it is about an input and one of its terms. -/
theorem Consistent.contains_degrees_iff (hc : s.Consistent) {key : VariableKey} {term : TermKey} :
    (OrderedMap.ofList (s.degrees readings)).contains (key, term)
      ↔ key ∈ s.inputs ∧ ∃ e, s.table.termAt? term = some e ∧ e.owner = key := by
  rw [OrderedMap.contains_eq_isSome, Option.isSome_iff_exists]
  refine ⟨fun h => ?_, fun h => ?_⟩
  · obtain ⟨d, hd⟩ := h
    obtain ⟨hkey, e, he, howner, -⟩ := hc.get?_degrees_iff.mp hd
    exact ⟨hkey, e, he, howner⟩
  · obtain ⟨hkey, e, he, howner⟩ := h
    exact ⟨_, hc.get?_degrees_iff.mpr ⟨hkey, e, he, howner, rfl⟩⟩

/-- **The check and the degrees agree on every condition.** -/
theorem Consistent.graded (hc : s.Consistent) (hcheck : s.checkReadings readings = .ok ()) :
    s.Graded readings (OrderedMap.ofList (s.degrees readings)) where
  nodup := OrderedMap.nodup_keys_ofList _
  mem_keys_iff := by
    intro key term
    rw [OrderedMap.mem_keys_iff, hc.contains_degrees_iff, owns_iff]
  degree := by
    intro term e he hinput
    obtain ⟨-, hreadings⟩ := checkReadings_eq_ok_iff.mp hcheck
    obtain ⟨v, x, -, hx, -⟩ := hreadings e.owner hinput
    refine ⟨x, hx, hc.get?_degrees_iff.mpr ⟨hinput, e, he, rfl, ?_⟩⟩
    unfold reading
    rw [hx, Option.getD_some]
  check_iff := by
    intro c
    simp only [checkCondition_eq_ok_iff, evaluate_eq_ok_iff, hc.contains_degrees_iff]
    refine ⟨fun hadmits => ⟨_, hadmits, rfl⟩, fun h => ?_⟩
    obtain ⟨truth, hadmits, -⟩ := h
    exact hadmits

end InputSide

/-- **Accepted readings give degrees to the terms of the inputs and to nothing else, and with these
a condition can be evaluated exactly if it passes the check.** This is so for every reachable
system, of either kind, and for conditions about any keys. -/
theorem reachable_graded :
    (∀ (s : Mamdani.System α) (readings : Readings α), Mamdani.Reachable s →
        s.inputSide.checkReadings readings = .ok () →
        ∃ fuzzified, s.inputSide.fuzzify readings = .ok fuzzified
          ∧ s.inputSide.Graded readings fuzzified)
      ∧ ∀ (s : Sugeno.System α) (readings : Readings α), Sugeno.Reachable s →
        s.inputSide.checkReadings readings = .ok () →
        ∃ fuzzified, s.inputSide.fuzzify readings = .ok fuzzified
          ∧ s.inputSide.Graded readings fuzzified := by
  refine ⟨fun s readings h hcheck => ?_, fun s readings h hcheck => ?_⟩
  · exact ⟨_, InputSide.fuzzify_of_checkReadings hcheck, h.consistent.inputSide.graded hcheck⟩
  · exact ⟨_, InputSide.fuzzify_of_checkReadings hcheck, h.consistent.inputSide.graded hcheck⟩

open WholeNumbers Mamdani Sugeno in
/-- Poor service has a degree. Cheap tips have none, and so nothing can be said of them: they are a
term of an output. -/
theorem reachable_graded_tipping_and_cruising :
    (∃ fuzzified, (Mamdani.run tipping (.ofSettings {})).inputSide.fuzzify ⟨[(⟨1⟩, 5)]⟩
          = .ok fuzzified
        ∧ fuzzified.get? (⟨1⟩, ⟨1⟩) = some 5
        ∧ ¬ ∃ truth, (Mamdani.run tipping (.ofSettings {})).inputSide.evaluate fuzzified
            (.single ⟨⟨2⟩, ⟨2⟩, false, none⟩) = .ok truth)
      ∧ ∃ fuzzified, (Sugeno.run cruising (.ofSettings {})).inputSide.fuzzify ⟨[(⟨1⟩, 90)]⟩
          = .ok fuzzified
        ∧ fuzzified.get? (⟨1⟩, ⟨1⟩) = some 90 := by
  obtain ⟨degrees, hdegrees, hgraded⟩ := reachable_graded.1 _ ⟨[(⟨1⟩, 5)]⟩
    (Mamdani.reachable_run tipping (.start {})) rfl
  obtain ⟨degrees', hdegrees', hgraded'⟩ := reachable_graded.2 _ ⟨[(⟨1⟩, 90)]⟩
    (Sugeno.reachable_run cruising (.start {})) rfl
  refine ⟨⟨degrees, hdegrees, ?_, fun h => ?_⟩, degrees', hdegrees', ?_⟩
  · obtain ⟨x, hx, hdegree⟩ := hgraded.degree ⟨1⟩ _ rfl (by decide)
    cases hx
    exact hdegree
  · -- the check refuses what is about an output
    have hcheck := (hgraded.check_iff _).mpr h
    exact absurd hcheck nofun
  · obtain ⟨x, hx, hdegree⟩ := hgraded'.degree ⟨1⟩ _ rfl (by decide)
    cases hx
    exact hdegree

end FuzzyInference
