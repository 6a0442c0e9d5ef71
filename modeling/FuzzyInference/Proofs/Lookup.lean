import FuzzyInference.Proofs.Sugeno.Consistency

/-!
# Looking up by name

What a name is found to be. In consistent tables names of variables are distinct,
and so are names of terms and of functions that have the same owner. So a look-up
does not depend on where it starts: it answers a key exactly if that is the key
of the one entry of this name.
-/

namespace FuzzyInference

variable {α : Type}

namespace VariableTable

variable {t : VariableTable α}

/-- **A name among some variables is that of one of them.** -/
theorem Consistent.keyAmong_eq_ok_iff [LE α] (h : t.Consistent) {keys : List VariableKey}
    {name : String} {key : VariableKey} :
    t.keyAmong keys name = .ok key
      ↔ key ∈ keys ∧ ∃ v, t.variableAt? key = some v ∧ v.name = name := by
  have htest : ∀ k, ((t.variableAt? k).any fun v => v.name = name) = true
      ↔ ∃ v, t.variableAt? k = some v ∧ v.name = name := by
    intro k
    simp only [Option.any_eq_true, decide_eq_true_eq]
  have hunique : ∀ k ∈ keys, ∀ l ∈ keys, ((t.variableAt? k).any fun v => v.name = name) →
      ((t.variableAt? l).any fun v => v.name = name) → k = l := by
    intro k _ l _ hk hl
    obtain ⟨v, hv, hvname⟩ := (htest k).mp hk
    obtain ⟨w, hw, hwname⟩ := (htest l).mp hl
    exact h.distinct k l v w hv hw (hvname.trans hwname.symm)
  rw [← htest, ← find?_eq_some_iff_of_unique hunique]
  unfold keyAmong
  cases keys.find? fun k => (t.variableAt? k).any fun v => v.name = name with
  | none => simp
  | some k => simp

/-- **A name of a term of a variable is that of a term it owns.** -/
theorem Consistent.termByName_eq_ok_iff [LE α] (h : t.Consistent) {key : VariableKey}
    {name : String} {term : TermKey} :
    t.termByName key name = .ok term
      ↔ ∃ e, t.termAt? term = some e ∧ e.owner = key ∧ e.name = name := by
  have hfind : ((t.termsOf key).find? fun e => e.2.name = name).map Prod.fst = some term
      ↔ ∃ e, t.termAt? term = some e ∧ e.owner = key ∧ e.name = name :=
    t.termsOf_eq key ▸ h.owned.find?_listed_iff
  unfold termByName
  cases hv : t.variableAt? key with
  | none =>
    -- every term has an owner
    refine ⟨fun hterm => absurd hterm (by simp), fun hterm => ?_⟩
    obtain ⟨e, he, rfl, -⟩ := hterm
    obtain ⟨v, hv'⟩ := h.owned.exists_owner term e he
    exact absurd (hv.symm.trans hv') (by simp)
  | some v =>
    rw [← hfind]
    cases (t.termsOf key).find? fun e => e.2.name = name with
    | none => simp
    | some e => simp

end VariableTable

namespace Sugeno.System

variable {s : System α}

/-- **A name of an output is that of one output.** -/
theorem Consistent.outputByName_eq_ok_iff [LE α] (h : s.Consistent) {name : String}
    {key : OutputKey} :
    s.outputByName name = .ok key ↔ ∃ o, s.outputAt? key = some o ∧ o.name = name := by
  have hfind : s.outputKey? name = some key ↔ ∃ o, s.outputAt? key = some o ∧ o.name = name :=
    h.outputs_distinct.findKey?_eq_some_iff
  rw [← hfind]
  unfold outputByName
  cases s.outputKey? name with
  | none => simp
  | some k => simp

/-- **A name of a function of an output is that of a function it owns.** -/
theorem Consistent.functionByName_eq_ok_iff [LE α] (h : s.Consistent) {key : OutputKey}
    {name : String} {function : FunctionKey} :
    s.functionByName key name = .ok function
      ↔ ∃ f, s.functionAt? function = some f ∧ f.owner = key ∧ f.name = name := by
  have hfind : ((s.functionsOf key).find? fun e => e.2.name = name).map Prod.fst = some function
      ↔ ∃ f, s.functionAt? function = some f ∧ f.owner = key ∧ f.name = name :=
    s.functionsOf_eq key ▸ h.owned.find?_listed_iff
  unfold functionByName
  cases ho : s.outputAt? key with
  | none =>
    refine ⟨fun hfunction => absurd hfunction (by simp), fun hfunction => ?_⟩
    obtain ⟨f, hf, rfl, -⟩ := hfunction
    obtain ⟨o, ho'⟩ := h.owned.exists_owner function f hf
    exact absurd (ho.symm.trans ho') (by simp)
  | some o =>
    rw [← hfind]
    cases (s.functionsOf key).find? fun e => e.2.name = name with
    | none => simp
    | some e => simp

end Sugeno.System

end FuzzyInference
