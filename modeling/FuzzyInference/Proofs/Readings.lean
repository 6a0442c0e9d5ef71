import FuzzyInference.Proofs.FirstFailure
import FuzzyInference.Proofs.Fuzzification
import FuzzyInference.Proofs.Mamdani.Consistency
import FuzzyInference.Proofs.Sugeno.Consistency
import Mathlib.Data.List.Perm.Subperm

/-!
# Which readings are accepted

Readings are counted, and then every input is asked for its own. Nothing ever
looks at a reading that no input asks for: one for an output, or one that was
meant for another system.

There is none among accepted readings all the same. As many readings as inputs,
one for each input, leave none over, because no input is listed twice
(`mem_keys_iff_of_subset`). So readings are accepted exactly if they are for the
inputs and for nothing else, each within its domain (`Complete`).
-/

namespace FuzzyInference

variable {α : Type}

/-- **What is as long as it needs to be has nothing else in it.** -/
theorem OrderedMap.mem_keys_iff_of_subset {κ β : Type} [DecidableEq κ] {m : OrderedMap κ β}
    {l : List κ} (hnodup : l.Nodup) (hsub : l ⊆ m.keys) (hsize : m.size = l.length) (k : κ) :
    k ∈ m.keys ↔ k ∈ l := by
  have hlength : m.keys.length ≤ l.length := by
    unfold OrderedMap.keys
    rw [List.length_map]
    exact Nat.le_of_eq hsize
  exact ((hnodup.subperm hsub).perm_of_length_le hlength).mem_iff.symm

theorem Variable.contains_iff [Scalar α] {v : Variable α} {x : α} :
    v.contains x ↔ v.min ≤ x ∧ x ≤ v.max := by
  unfold Variable.contains
  rw [Bool.and_eq_true, decide_eq_true_eq, decide_eq_true_eq]

namespace InputSide

/-! ## Input sides on their own -/

section Reachable

variable [Scalar α] {s t : InputSide α}

theorem Consistent.addInput (hc : s.Consistent) {name : String} {min max : α} {key : VariableKey}
    (h : s.addInput name min max = .ok (key, t)) : t.Consistent := by
  obtain ⟨table, hadd, rfl⟩ := addInput_eq_ok_iff.mp h
  have hknown : ∀ k, k ∈ s.inputs ∨ k = key → ∃ v, table.variableAt? k = some v := by
    intro k hk
    rw [VariableTable.exists_variableAt?_add_iff hadd]
    exact hk.imp_left (hc.known k)
  have hnew : key ∉ s.inputs := VariableTable.not_mem_of_add hadd hc.known
  refine ⟨hc.table.add hadd, nodup_snoc hc.nodup hnew, fun k hk => hknown k ?_⟩
  rwa [List.mem_append, List.mem_singleton] at hk

theorem Consistent.addTerm (hc : s.Consistent) {key : VariableKey} {name : String}
    {membership : α → α} {term : TermKey} (h : s.addTerm key name membership = .ok (term, t)) :
    t.Consistent := by
  obtain ⟨table, hadd, rfl⟩ := addTerm_eq_ok_iff.mp h
  refine ⟨hc.table.addTerm hadd, hc.nodup, fun k hk => ?_⟩
  rw [VariableTable.exists_variableAt?_addTerm_iff hadd]
  exact hc.known k hk

/-- Some requests lead from a new input side to this one, whether or not they were refused. -/
inductive Reachable : InputSide α → Prop where
  | start (connectives : Connectives) : Reachable { connectives }
  | addInput {s : InputSide α} (name : String) (min max : α) :
      Reachable s → Reachable ((addInputInPlace name min max).after s)
  | addTerm {s : InputSide α} (key : VariableKey) (name : String) (membership : α → α) :
      Reachable s → Reachable ((addTermInPlace key name membership).after s)
  | connect {s : InputSide α} (connectives : Connectives) :
      Reachable s → Reachable { s with connectives }

theorem consistent_start (connectives : Connectives) :
    ({ connectives } : InputSide α).Consistent where
  table := VariableTable.consistent_empty
  nodup := List.nodup_nil
  known := fun _ hk => absurd hk List.not_mem_nil

/-- **Every reachable input side is consistent.** -/
theorem Reachable.consistent (h : s.Reachable) : s.Consistent := by
  induction h with
  | start connectives => exact consistent_start connectives
  | @addInput s name min max _ ih =>
    exact Program.holds_after_of_eq_settle (s.addInputInPlace_eq name min max) ih.addInput ih
  | @addTerm s key name membership _ ih =>
    exact Program.holds_after_of_eq_settle (s.addTermInPlace_eq key name membership) ih.addTerm ih
  | connect connectives _ ih => exact ⟨ih.table, ih.nodup, ih.known⟩

end Reachable

/-! ## The check -/

variable [Scalar α] {s : InputSide α} {readings : Readings α}

/-- A variable has a reading, and that lies in its domain. -/
def Meets (s : InputSide α) (readings : Readings α) (k : VariableKey) : Prop :=
  ∃ v x, s.table.variableAt? k = some v ∧ readings.get? k = some x ∧ v.min ≤ x ∧ x ≤ v.max

/-- Readings for the inputs and for nothing else, each within its domain. -/
structure Complete (s : InputSide α) (readings : Readings α) : Prop where
  mem_keys_iff : ∀ k, k ∈ readings.keys ↔ k ∈ s.inputs
  domain : ∀ k x, readings.get? k = some x →
    ∃ v, s.table.variableAt? k = some v ∧ v.min ≤ x ∧ x ≤ v.max

/-- What is wrong with readings: their number, or else what is wrong for the first input for which
something is. -/
inductive FirstFault (s : InputSide α) (readings : Readings α) : Error α → Prop
  | count (hsize : readings.size ≠ s.inputs.length) :
      FirstFault s readings (.inputCount s.inputs.length readings.size)
  | missing {k : VariableKey} {v : Variable α} (hsize : readings.size = s.inputs.length)
      (hfirst : IsFirst (fun k => ¬ s.Meets readings k) s.inputs k)
      (hv : s.table.variableAt? k = some v) (hreading : readings.get? k = none) :
      FirstFault s readings (.missingInput v.name)
  | outOfRange {k : VariableKey} {v : Variable α} {x : α} (hsize : readings.size = s.inputs.length)
      (hfirst : IsFirst (fun k => ¬ s.Meets readings k) s.inputs k)
      (hv : s.table.variableAt? k = some v) (hreading : readings.get? k = some x)
      (hx : ¬ (v.min ≤ x ∧ x ≤ v.max)) :
      FirstFault s readings (.inputOutOfRange v.name x v.min v.max)

theorem checkReading_eq_ok_iff_meets {k : VariableKey} :
    s.checkReading readings k = .ok () ↔ s.Meets readings k := by
  rw [checkReading_eq_ok_iff]
  simp only [Variable.contains_iff]
  rfl

/-- **Readings are accepted exactly if they are complete.** -/
theorem Consistent.checkReadings_eq_ok_iff_complete (hc : s.Consistent)
    (hkeys : readings.keys.Nodup) :
    s.checkReadings readings = .ok () ↔ s.Complete readings := by
  simp only [checkReadings_eq_ok_iff, Variable.contains_iff]
  refine ⟨fun h => ?_, fun h => ?_⟩
  · obtain ⟨hsize, hmeets⟩ := h
    have hsub : s.inputs ⊆ readings.keys := by
      intro k hk
      obtain ⟨_, x, -, hx, -⟩ := hmeets k hk
      rw [OrderedMap.mem_keys_iff, OrderedMap.contains_eq_isSome, hx]
      rfl
    have hmem := OrderedMap.mem_keys_iff_of_subset hc.nodup hsub hsize
    refine ⟨hmem, fun k x hx => ?_⟩
    have hk : k ∈ s.inputs :=
      (hmem k).mp (OrderedMap.mem_keys_of_mem (OrderedMap.mem_entries_of_get? hx))
    obtain ⟨v, y, hv, hy, hdomain⟩ := hmeets k hk
    cases hx.symm.trans hy
    exact ⟨v, hv, hdomain⟩
  · have hsize : readings.size = s.inputs.length := by
      have hperm : readings.keys.Perm s.inputs :=
        (List.perm_ext_iff_of_nodup hkeys hc.nodup).mpr h.mem_keys_iff
      have hlength := hperm.length_eq
      unfold OrderedMap.keys at hlength
      rwa [List.length_map] at hlength
    refine ⟨hsize, fun k hk => ?_⟩
    obtain ⟨x, hx⟩ := OrderedMap.exists_get?_of_mem_keys ((h.mem_keys_iff k).mpr hk)
    obtain ⟨v, hv, hdomain⟩ := h.domain k x hx
    exact ⟨v, x, hv, hx, hdomain⟩

/-- What is wrong for an input that is known. -/
theorem checkReading_eq_error_iff {k : VariableKey} {v : Variable α} {e : Error α}
    (hv : s.table.variableAt? k = some v) :
    s.checkReading readings k = .error e
      ↔ readings.get? k = none ∧ e = .missingInput v.name
        ∨ ∃ x, readings.get? k = some x ∧ ¬ (v.min ≤ x ∧ x ≤ v.max)
          ∧ e = .inputOutOfRange v.name x v.min v.max := by
  unfold checkReading
  rw [hv]
  cases hreading : readings.get? k with
  | none => simp [eq_comm]
  | some x =>
    have hcontains : ¬ v.contains x ↔ ¬ (v.min ≤ x ∧ x ≤ v.max) := not_congr Variable.contains_iff
    by_cases hx : v.contains x
    · simp only [hx, if_true, reduceCtorEq, false_and, Option.some.injEq, false_or, false_iff]
      rintro ⟨_, rfl, hout, -⟩
      exact hcontains.mpr hout hx
    · simp only [hx, Bool.false_eq_true, if_false, reduceCtorEq, false_and, Option.some.injEq,
        false_or, exists_eq_left', hcontains.mp hx, not_false_eq_true, true_and, Except.error.injEq]
      exact eq_comm

/-- **Otherwise they are refused for their number or for the first input that is not met.** -/
theorem Consistent.checkReadings_eq_error_iff (hc : s.Consistent) {e : Error α} :
    s.checkReadings readings = .error e ↔ s.FirstFault readings e := by
  have hfails : (fun k => Fails (s.checkReading readings k)) = fun k => ¬ s.Meets readings k := by
    funext k
    rw [fails_iff_ne_ok, ne_eq, checkReading_eq_ok_iff_meets]
  unfold checkReadings
  by_cases hsize : readings.size = s.inputs.length
  · rw [if_neg (not_not_intro hsize), forM_eq_error_iff, hfails]
    refine ⟨fun h => ?_, fun h => ?_⟩
    · obtain ⟨k, hfirst, hk⟩ := h
      obtain ⟨v, hv⟩ := hc.known k hfirst.mem
      rcases (checkReading_eq_error_iff hv).mp hk with ⟨hnone, rfl⟩ | ⟨x, hx, hout, rfl⟩
      · exact .missing hsize hfirst hv hnone
      · exact .outOfRange hsize hfirst hv hx hout
    · cases h with
      | count hne => exact absurd hsize hne
      | missing _ hfirst hv hnone =>
        exact ⟨_, hfirst, (checkReading_eq_error_iff hv).mpr (Or.inl ⟨hnone, rfl⟩)⟩
      | outOfRange _ hfirst hv hx hout =>
        exact ⟨_, hfirst, (checkReading_eq_error_iff hv).mpr (Or.inr ⟨_, hx, hout, rfl⟩)⟩
  · rw [if_pos hsize]
    refine ⟨fun h => ?_, fun h => ?_⟩
    · cases h
      exact .count hsize
    · cases h with
      | count _ => rfl
      | missing heq _ _ _ => exact absurd heq hsize
      | outOfRange heq _ _ _ _ => exact absurd heq hsize

/-- How readings are checked. -/
structure ChecksReadings (s : InputSide α) (readings : Readings α) : Prop where
  accepted : s.checkReadings readings = .ok () ↔ s.Complete readings
  refused : ∀ e, s.checkReadings readings = .error e ↔ s.FirstFault readings e
  /-- No reading is passed over. -/
  extra : ∀ k ∈ readings.keys, k ∉ s.inputs → s.checkReadings readings ≠ .ok ()
  /-- A number that is not above anything, as NaN is not, is no reading. -/
  unordered : ∀ k x, readings.get? k = some x → (∀ b : α, ¬ b ≤ x) →
    s.checkReadings readings ≠ .ok ()

theorem Consistent.checksReadings (hc : s.Consistent) (hkeys : readings.keys.Nodup) :
    s.ChecksReadings readings where
  accepted := hc.checkReadings_eq_ok_iff_complete hkeys
  refused := fun _ => hc.checkReadings_eq_error_iff
  extra := by
    intro k hk hinput hok
    exact hinput ((((hc.checkReadings_eq_ok_iff_complete hkeys).mp hok).mem_keys_iff k).mp hk)
  unordered := by
    intro k x hx hunordered hok
    obtain ⟨v, -, hmin, -⟩ := ((hc.checkReadings_eq_ok_iff_complete hkeys).mp hok).domain k x hx
    exact hunordered v.min hmin

end InputSide

/-- **Readings are accepted exactly if they are for the inputs and for nothing else, each within its
domain**, and otherwise they are refused for their number or for the first input that is at fault.
This is so for every reachable system, of either kind, and for an input side on its own, whatever
keys and numbers the readings were entered with. -/
theorem reachable_accepts_complete_readings [Scalar α] :
    (∀ s : InputSide α, s.Reachable → ∀ pairs, s.ChecksReadings (.ofList pairs))
      ∧ (∀ s : Mamdani.System α, Mamdani.Reachable s →
          ∀ pairs, s.inputSide.ChecksReadings (.ofList pairs))
      ∧ ∀ s : Sugeno.System α, Sugeno.Reachable s →
          ∀ pairs, s.inputSide.ChecksReadings (.ofList pairs) := by
  refine ⟨fun s h pairs => ?_, fun s h pairs => ?_, fun s h pairs => ?_⟩
  · exact h.consistent.checksReadings (OrderedMap.nodup_keys_ofList pairs)
  · exact h.consistent.inputSide.checksReadings (OrderedMap.nodup_keys_ofList pairs)
  · exact h.consistent.inputSide.checksReadings (OrderedMap.nodup_keys_ofList pairs)

open WholeNumbers InputSide in
/-- An input side with two inputs, the second of which is refused at first for its domain. -/
def twoLevels : InputSide Int :=
  let lower := (addInputInPlace "lower" 0 10).after {}
  let refused := (addInputInPlace "upper" 10 0).after lower
  (addInputInPlace "upper" 0 10).after refused

open WholeNumbers in
/-- Readings for both levels; as many readings, but one of them for no variable at all; a reading
for an output besides; and a reading that is entered twice, and out of range the second time. -/
theorem reachable_accepts_complete_readings_levels :
    twoLevels.Complete (.ofList [(⟨2⟩, 7), (⟨1⟩, 3)])
      ∧ twoLevels.FirstFault (.ofList [(⟨1⟩, 3), (.null, 7)]) (.missingInput "upper")
      ∧ (Mamdani.run Mamdani.tipping (.ofSettings {})).inputSide.FirstFault
          (.ofList [(⟨1⟩, 5), (⟨2⟩, 5)]) (.inputCount 1 2)
      ∧ (Sugeno.run Sugeno.cruising (.ofSettings {})).inputSide.FirstFault
          (.ofList [(⟨1⟩, 90), (⟨1⟩, -1)]) (.inputOutOfRange "speed" (-1) 0 200) := by
  obtain ⟨hside, hmamdani, hsugeno⟩ := reachable_accepts_complete_readings (α := Int)
  have hlevels : twoLevels.Reachable := by
    unfold twoLevels
    exact .addInput _ _ _ (.addInput _ _ _ (.addInput _ _ _ (.start {})))
  have htipping := Mamdani.reachable_run Mamdani.tipping (.start {})
  have hcruising := Sugeno.reachable_run Sugeno.cruising (.start {})
  exact ⟨(hside _ hlevels _).accepted.mp rfl, ((hside _ hlevels _).refused _).mp rfl,
    ((hmamdani _ htipping _).refused _).mp rfl, ((hsugeno _ hcruising _).refused _).mp rfl⟩

end FuzzyInference
