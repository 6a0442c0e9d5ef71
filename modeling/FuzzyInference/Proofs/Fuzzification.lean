import FuzzyInference.Proofs.Condition
import FuzzyInference.Proofs.FirstFailure
import FuzzyInference.Proofs.InputSide
import FuzzyInference.Proofs.OrderedMap

/-!
# From readings to truths

Calculations of all kinds begin alike: readings are checked, every term of every
input gets a degree, and the degrees make conditions true to some degree.

Two things are said of this. Readings are refused for three reasons only
(`ReadingError`), and none of them is the system's. Where they are accepted, the
map of degrees in between is a detour: a condition is as true as it is with the
membership of each of its terms taken at the reading itself (`truthAt`). For an
admitted condition there is no way of not finding a degree
(`Consistent.evaluate_of_admits`).
-/

namespace FuzzyInference

variable {α : Type}

theorem VariableTable.Consistent.keys_termsOf [LE α] {t : VariableTable α} (h : t.Consistent)
    {key : VariableKey} {v : Variable α} (hv : t.variableAt? key = some v) :
    (t.termsOf key).map Prod.fst = v.terms := by
  rw [termsOf_eq]
  exact h.owned.keys_listed hv

theorem VariableTable.Consistent.mem_termsOf_iff [LE α] {t : VariableTable α} (h : t.Consistent)
    {key : VariableKey} {term : TermKey} {e : Term α} :
    (term, e) ∈ t.termsOf key ↔ t.termAt? term = some e ∧ e.owner = key := by
  rw [termsOf_eq]
  exact h.owned.mem_listed_iff

/-- The membership function of a term. A key of no term has one that never answers. -/
def VariableTable.membershipOf [Scalar α] (t : VariableTable α) (term : TermKey) : α → α :=
  match t.termAt? term with
  | some e => e.membership
  | none => fun _ => Scalar.nan

namespace InputSide

variable [Scalar α] {s : InputSide α} {readings : Readings α}

/-! ## Readings that are accepted -/

theorem checkReading_eq_ok_iff {key : VariableKey} :
    s.checkReading readings key = .ok ()
      ↔ ∃ v x, s.table.variableAt? key = some v ∧ readings.get? key = some x ∧ v.contains x := by
  unfold checkReading
  cases s.table.variableAt? key with
  | none => simp
  | some v =>
    cases readings.get? key with
    | none => simp
    | some x => cases hx : v.contains x <;> simp [hx]

/-- **Readings are accepted exactly if they are for the inputs, each within its domain.** -/
theorem checkReadings_eq_ok_iff :
    s.checkReadings readings = .ok ()
      ↔ readings.size = s.inputs.length
        ∧ ∀ k ∈ s.inputs, ∃ v x,
            s.table.variableAt? k = some v ∧ readings.get? k = some x ∧ v.contains x := by
  unfold checkReadings
  by_cases hsize : readings.size = s.inputs.length
  · rw [if_neg (not_not_intro hsize), forM_eq_ok_iff]
    simp only [checkReading_eq_ok_iff, hsize, true_and]
  · simp [hsize]

/-- Why readings are refused: there are too many or too few of them, or that of an input is missing
or out of range. -/
inductive ReadingError (s : InputSide α) (readings : Readings α) : Error α → Prop
  | count (hsize : readings.size ≠ s.inputs.length) :
      ReadingError s readings (.inputCount s.inputs.length readings.size)
  | missing {k : VariableKey} {v : Variable α} (hk : k ∈ s.inputs)
      (hv : s.table.variableAt? k = some v) (hreading : readings.get? k = none) :
      ReadingError s readings (.missingInput v.name)
  | outOfRange {k : VariableKey} {v : Variable α} {x : α} (hk : k ∈ s.inputs)
      (hv : s.table.variableAt? k = some v) (hreading : readings.get? k = some x)
      (hx : ¬ v.contains x) :
      ReadingError s readings (.inputOutOfRange v.name x v.min v.max)

/-- **Readings are refused for a fault of their own.** -/
theorem Consistent.readingError (hc : s.Consistent) {e : Error α}
    (h : s.checkReadings readings = .error e) : s.ReadingError readings e := by
  unfold checkReadings at h
  by_cases hsize : readings.size = s.inputs.length
  · rw [if_neg (not_not_intro hsize)] at h
    obtain ⟨k, hfirst, hcheck⟩ := forM_eq_error_iff.mp h
    have hk : k ∈ s.inputs := hfirst.mem
    obtain ⟨v, hv⟩ := hc.known k hk
    unfold checkReading at hcheck
    rw [hv] at hcheck
    cases hreading : readings.get? k with
    | none =>
      rw [hreading] at hcheck
      cases hcheck
      exact .missing hk hv hreading
    | some x =>
      simp only [hreading] at hcheck
      split at hcheck
      · exact absurd hcheck (by simp)
      · rename_i hx
        cases hcheck
        exact .outOfRange hk hv hreading hx
  · rw [if_pos hsize] at h
    cases h
    exact .count hsize

/-! ## Degrees -/

/-- The reading of an input. Accepted readings have one for each input. -/
def reading (readings : Readings α) (key : VariableKey) : α :=
  (readings.get? key).getD Scalar.nan

/-- The degrees of the terms of all inputs, input by input. -/
def degrees (s : InputSide α) (readings : Readings α) : List ((VariableKey × TermKey) × α) :=
  s.inputs.flatMap fun key =>
    (s.table.termsOf key).map fun e => ((key, e.1), e.2.membership (reading readings key))

/-- Accepted readings give every term of every input its degree. -/
theorem fuzzify_of_checkReadings (h : s.checkReadings readings = .ok ()) :
    s.fuzzify readings = .ok (OrderedMap.ofList (s.degrees readings)) := by
  obtain ⟨-, hreadings⟩ := checkReadings_eq_ok_iff.mp h
  have hinput : ∀ key ∈ s.inputs, s.fuzzifyInput readings key
      = .ok ((s.table.termsOf key).map fun e =>
          ((key, e.1), e.2.membership (reading readings key))) := by
    intro key hkey
    obtain ⟨v, x, -, hx, -⟩ := hreadings key hkey
    unfold fuzzifyInput reading
    rw [hx]
    rfl
  unfold fuzzify
  rw [h, ok_bind, mapM_eq_ok hinput, ok_bind]
  rfl

/-- No pair of an input and a term gets two degrees. -/
theorem Consistent.nodup_degrees (hc : s.Consistent) (readings : Readings α) :
    ((s.degrees readings).map Prod.fst).Nodup := by
  have hkeys : (s.degrees readings).map Prod.fst
      = s.inputs.flatMap fun key => ((s.table.termsOf key).map Prod.fst).map fun k => (key, k) := by
    unfold degrees
    rw [List.map_flatMap]
    simp only [List.map_map]
    rfl
  rw [hkeys, List.nodup_flatMap]
  refine ⟨fun key hkey => ?_, hc.nodup.imp fun {a b} hab => ?_⟩
  · obtain ⟨v, hv⟩ := hc.known key hkey
    rw [hc.table.keys_termsOf hv]
    exact (hc.table.owned.nodup key v hv).map fun k l hkl => (Prod.mk.inj hkl).2
  · -- pairs of different inputs are different
    intro pair hpa hpb
    obtain ⟨k, -, rfl⟩ := List.mem_map.mp hpa
    obtain ⟨l, -, hl⟩ := List.mem_map.mp hpb
    exact hab (Prod.mk.inj hl).1.symm

/-- **The terms of inputs are what has a degree, and it is the membership at the reading.** -/
theorem Consistent.get?_degrees_iff (hc : s.Consistent) {key : VariableKey} {term : TermKey}
    {d : α} :
    (OrderedMap.ofList (s.degrees readings)).get? (key, term) = some d
      ↔ key ∈ s.inputs ∧ ∃ e, s.table.termAt? term = some e ∧ e.owner = key
          ∧ e.membership (reading readings key) = d := by
  have hnodup := hc.nodup_degrees readings
  rw [OrderedMap.ofList_of_nodup hnodup,
    OrderedMap.get?_eq_some_iff (m := ⟨s.degrees readings⟩) hnodup]
  show ((key, term), d) ∈ s.degrees readings ↔ _
  unfold degrees
  rw [List.mem_flatMap]
  refine ⟨fun h => ?_, fun h => ?_⟩
  · obtain ⟨k, hk, hmem⟩ := h
    obtain ⟨⟨i, e⟩, hterm, heq⟩ := List.mem_map.mp hmem
    cases heq
    obtain ⟨he, howner⟩ := hc.table.mem_termsOf_iff.mp hterm
    exact ⟨hk, e, he, howner, rfl⟩
  · obtain ⟨hk, e, he, howner, rfl⟩ := h
    exact ⟨key, hk, List.mem_map.mpr ⟨(term, e), hc.table.mem_termsOf_iff.mpr ⟨he, howner⟩, rfl⟩⟩

/-! ## Truths -/

/-- The degree to which a condition holds at some readings: that of the conditions it is made of,
down to the terms, whose membership is taken at the reading. -/
def truthAt (s : InputSide α) (readings : Readings α) (c : Condition) : α :=
  c.evaluate s.connectives fun p => s.table.membershipOf p.term (reading readings p.subject)

/-- What an admitted proposition is about has a degree. -/
theorem Consistent.get?_degrees_of_admits (hc : s.Consistent) {c : Condition} (hadmits : s.Admits c)
    {p : Proposition} (hp : p ∈ c.propositions) :
    (OrderedMap.ofList (s.degrees readings)).get? (p.subject, p.term)
      = some (s.table.membershipOf p.term (reading readings p.subject)) := by
  obtain ⟨hinput, e, he, howner⟩ := hadmits p hp
  rw [hc.get?_degrees_iff]
  refine ⟨hinput, e, he, howner, ?_⟩
  unfold VariableTable.membershipOf
  rw [he]

/-- The degree that a map has for the term of a proposition. -/
def degreeIn (fuzzified : Fuzzified α) (p : Proposition) : α :=
  (fuzzified.get? (p.subject, p.term)).getD Scalar.nan

/-- **A condition is evaluated exactly if all its propositions have degrees**, and with these. -/
theorem evaluate_eq_ok_iff {fuzzified : Fuzzified α} {c : Condition} {d : α} :
    s.evaluate fuzzified c = .ok d
      ↔ (∀ p ∈ c.propositions, fuzzified.contains (p.subject, p.term))
        ∧ c.evaluate s.connectives (degreeIn fuzzified) = d := by
  have hnone : c.propositions.find? (fun p => !fuzzified.contains (p.subject, p.term)) = none
      ↔ ∀ p ∈ c.propositions, fuzzified.contains (p.subject, p.term) := by
    rw [List.find?_eq_none]
    simp only [Bool.not_eq_true', Bool.not_eq_false]
  rw [← hnone]
  unfold evaluate
  cases c.propositions.find? fun p => !fuzzified.contains (p.subject, p.term) with
  | none => exact ⟨fun h => ⟨rfl, Except.ok.inj h⟩, fun h => congrArg Except.ok h.2⟩
  | some p => exact ⟨fun h => absurd h (by simp), fun h => absurd h.1 (by simp)⟩

/-- Where all degrees are found, they are what a condition is evaluated with. -/
theorem evaluate_eq_ok {fuzzified : Fuzzified α} {c : Condition} {membership : Proposition → α}
    (h : ∀ p ∈ c.propositions, fuzzified.get? (p.subject, p.term) = some (membership p)) :
    s.evaluate fuzzified c = .ok (c.evaluate s.connectives membership) := by
  refine evaluate_eq_ok_iff.mpr ⟨fun p hp => ?_, Condition.evaluate_congr fun p hp => ?_⟩
  · rw [OrderedMap.contains_eq_isSome, h p hp]
    rfl
  · unfold degreeIn
    rw [h p hp, Option.getD_some]

/-- **An admitted condition is as true as it is at the readings themselves.** -/
theorem Consistent.evaluate_of_admits (hc : s.Consistent) {c : Condition} (hadmits : s.Admits c) :
    s.evaluate (OrderedMap.ofList (s.degrees readings)) c = .ok (s.truthAt readings c) :=
  evaluate_eq_ok fun _ hp => hc.get?_degrees_of_admits hadmits hp

/-! ## Maps that say the same -/

/-- Readings count by their number and by what they are for which input. -/
theorem fuzzify_congr {readings' : Readings α} (hsize : readings'.size = readings.size)
    (hget : ∀ k, readings'.get? k = readings.get? k) :
    s.fuzzify readings' = s.fuzzify readings := by
  have hcheck : s.checkReading readings' = s.checkReading readings := by
    funext key
    unfold checkReading
    rw [hget]
  have hinput : s.fuzzifyInput readings' = s.fuzzifyInput readings := by
    funext key
    unfold fuzzifyInput
    rw [hget]
  unfold fuzzify checkReadings
  rw [hsize, hcheck, hinput]

/-- Degrees count by what they are for which term. -/
theorem truths_congr {fuzzified fuzzified' : Fuzzified α}
    (hget : ∀ k, fuzzified'.get? k = fuzzified.get? k) (cs : List Condition) :
    s.truths fuzzified' cs = s.truths fuzzified cs := by
  have hevaluate : s.evaluate fuzzified' = s.evaluate fuzzified := by
    funext c
    unfold evaluate
    simp only [OrderedMap.contains_eq_isSome, hget]
  unfold truths
  rw [hevaluate]

theorem nodup_keys_of_fuzzify {fuzzified : Fuzzified α} (h : s.fuzzify readings = .ok fuzzified) :
    fuzzified.keys.Nodup := by
  obtain ⟨_, -, h⟩ := bind_eq_ok_iff.mp h
  obtain ⟨pairs, -, h⟩ := bind_eq_ok_iff.mp h
  cases h
  exact OrderedMap.nodup_keys_ofList _

end InputSide

end FuzzyInference
