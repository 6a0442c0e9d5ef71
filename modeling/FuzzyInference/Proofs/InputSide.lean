import FuzzyInference.InputSide
import FuzzyInference.Proofs.VariableTable

/-!
# What an input side admits

A condition is admitted if its propositions are about inputs and their own terms
(`Admits`), and the check that a system makes accepts exactly those
(`checkCondition_eq_ok_iff`). What is admitted once is admitted for good, since
inputs are only added and terms stay with their owners.
-/

namespace FuzzyInference.InputSide

variable {α : Type}

/-- Variables and terms are in order, and the inputs are variables. -/
structure Consistent [LE α] (s : InputSide α) : Prop where
  table : s.table.Consistent
  /-- No input is listed twice. -/
  nodup : s.inputs.Nodup
  /-- An input is a variable. -/
  known : ∀ k ∈ s.inputs, ∃ v, s.table.variableAt? k = some v

theorem addInput_eq_ok_iff [Scalar α] {s t : InputSide α} {name : String} {min max : α}
    {key : VariableKey} :
    s.addInput name min max = .ok (key, t)
      ↔ ∃ table, s.table.add name min max = .ok (key, table)
        ∧ t = { s with table, inputs := s.inputs ++ [key] } := by
  unfold addInput
  rw [bind_eq_ok_iff]
  refine ⟨fun h => ?_, fun h => ?_⟩
  · obtain ⟨⟨k, table⟩, hadd, h⟩ := h
    cases h
    exact ⟨table, hadd, rfl⟩
  · obtain ⟨table, hadd, rfl⟩ := h
    exact ⟨(key, table), hadd, rfl⟩

theorem addTerm_eq_ok_iff {s t : InputSide α} {key : VariableKey} {name : String}
    {membership : α → α} {term : TermKey} :
    s.addTerm key name membership = .ok (term, t)
      ↔ ∃ table, s.table.addTerm key name membership = .ok (term, table)
        ∧ t = { s with table } := by
  unfold addTerm
  rw [bind_eq_ok_iff]
  refine ⟨fun h => ?_, fun h => ?_⟩
  · obtain ⟨⟨k, table⟩, hadd, h⟩ := h
    cases h
    exact ⟨table, hadd, rfl⟩
  · obtain ⟨table, hadd, rfl⟩ := h
    exact ⟨(term, table), hadd, rfl⟩

/-! ## Conditions -/

/-- Every proposition is about an input and one of its own terms. -/
def Admits (s : InputSide α) (c : Condition) : Prop :=
  ∀ p ∈ c.propositions,
    p.subject ∈ s.inputs ∧ ∃ e, s.table.termAt? p.term = some e ∧ e.owner = p.subject

theorem owns_iff {t : VariableTable α} {key : VariableKey} {term : TermKey} :
    t.owns key term ↔ ∃ e, t.termAt? term = some e ∧ e.owner = key := by
  unfold VariableTable.owns
  rw [Option.any_eq_true]
  simp only [decide_eq_true_eq]

theorem checkProposition_eq_ok_iff {s : InputSide α} {p : Proposition} :
    s.checkProposition p = .ok ()
      ↔ p.subject ∈ s.inputs ∧ ∃ e, s.table.termAt? p.term = some e ∧ e.owner = p.subject := by
  rw [← owns_iff]
  unfold checkProposition isInput
  by_cases hinput : p.subject ∈ s.inputs
  · cases howns : s.table.owns p.subject p.term <;> simp [hinput]
  · simp [hinput]

/-- Checks in a row succeed if each does. -/
theorem forM_eq_ok_iff {ε γ : Type} {check : γ → Except ε Unit} {l : List γ} :
    l.forM check = .ok () ↔ ∀ a ∈ l, check a = .ok () := by
  induction l with
  | nil => exact ⟨fun _ a ha => absurd ha List.not_mem_nil, fun _ => rfl⟩
  | cons a l ih =>
    show (check a >>= fun _ => l.forM check) = .ok () ↔ _
    rw [bind_eq_ok_iff, List.forall_mem_cons, ← ih]
    exact ⟨fun ⟨_, ha, hl⟩ => ⟨ha, hl⟩, fun ⟨ha, hl⟩ => ⟨(), ha, hl⟩⟩

/-- **A condition passes the check exactly if it is admitted.** -/
theorem checkCondition_eq_ok_iff {s : InputSide α} {c : Condition} :
    s.checkCondition c = .ok () ↔ s.Admits c := by
  unfold checkCondition Admits
  rw [forM_eq_ok_iff]
  exact forall_congr' fun p => forall_congr' fun _ => checkProposition_eq_ok_iff

/-- A check that goes on from a condition succeeds if the condition is admitted and the rest
succeeds. -/
theorem checkCondition_bind_eq_ok_iff {s : InputSide α} {c : Condition}
    {rest : Except (Error α) Unit} :
    (do s.checkCondition c; rest) = .ok () ↔ s.Admits c ∧ rest = .ok () := by
  rw [bind_eq_ok_iff, ← checkCondition_eq_ok_iff]
  exact ⟨fun ⟨_, hcondition, hrest⟩ => ⟨hcondition, hrest⟩, fun h => ⟨(), h⟩⟩

/-- More inputs and terms admit no less. -/
theorem Admits.mono {s t : InputSide α} {c : Condition} (h : s.Admits c)
    (hinputs : s.inputs ⊆ t.inputs) (htable : s.table.Extends t.table) : t.Admits c := by
  intro p hp
  obtain ⟨hsubject, e, he, howner⟩ := h p hp
  exact ⟨hinputs hsubject, e, htable.termAt p.term e he, howner⟩

end FuzzyInference.InputSide
