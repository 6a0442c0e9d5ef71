import FuzzyInference.Proofs.Fuzzification

/-!
# What additions leave as it is

Variables and terms that are added leave those that are there alone, domains and
memberships included (`Keeps`). To an input side that is only added to, readings
stay acceptable, and an admitted condition stays as true as it was at the same
readings.
-/

namespace FuzzyInference

variable {α : Type}

/-! ## Variables and terms -/

namespace VariableTable

/-- Whatever is in a table is in the other under the same key, and variables have the same domain in
both. -/
structure Keeps (t t' : VariableTable α) : Prop extends t.Extends t' where
  domain : ∀ k v v', t.variableAt? k = some v → t'.variableAt? k = some v' →
    v'.min = v.min ∧ v'.max = v.max

theorem Keeps.refl (t : VariableTable α) : t.Keeps t where
  toExtends := .refl t
  domain := by
    intro k v v' hv hv'
    cases hv.symm.trans hv'
    exact ⟨rfl, rfl⟩

theorem Keeps.trans {t t' t'' : VariableTable α} (h : t.Keeps t') (h' : t'.Keeps t'') :
    t.Keeps t'' where
  toExtends := h.toExtends.trans h'.toExtends
  domain := by
    intro k v v'' hv hv''
    obtain ⟨v', hv', -⟩ := h.variableAt k v hv
    obtain ⟨hmin, hmax⟩ := h.domain k v v' hv hv'
    obtain ⟨hmin', hmax'⟩ := h'.domain k v' v'' hv' hv''
    exact ⟨hmin'.trans hmin, hmax'.trans hmax⟩

theorem keeps_add [Scalar α] {t t' : VariableTable α} {name : String} {min max : α}
    {key : VariableKey} (h : t.add name min max = .ok (key, t')) : t.Keeps t' where
  toExtends := extends_add h
  domain := by
    intro k v v' hv hv'
    rcases variableAt?_add h hv' with ⟨rfl, -⟩ | ⟨-, hold⟩
    · exact absurd (hv.symm.trans (variableAt?_add_self h).1) (by simp)
    · cases hv.symm.trans hold
      exact ⟨rfl, rfl⟩

theorem keeps_addTerm {t t' : VariableTable α} {key : VariableKey} {name : String}
    {membership : α → α} {term : TermKey} (h : t.addTerm key name membership = .ok (term, t')) :
    t.Keeps t' where
  toExtends := extends_addTerm h
  domain := by
    intro k v v' hv hv'
    obtain ⟨w, hw, -, hmin, hmax⟩ := variableAt?_addTerm h hv'
    cases hv.symm.trans hw
    exact ⟨hmin.symm, hmax.symm⟩

/-- A term keeps its membership function. -/
theorem Extends.membershipOf [Scalar α] {t t' : VariableTable α} (h : t.Extends t') {term : TermKey}
    {e : Term α} (he : t.termAt? term = some e) :
    t'.membershipOf term = t.membershipOf term := by
  unfold VariableTable.membershipOf
  rw [he, h.termAt term e he]

end VariableTable

/-! ## Inputs -/

namespace InputSide

/-- The same inputs and methods, and a table with whatever was in it. -/
structure Keeps (s t : InputSide α) : Prop where
  inputs : t.inputs = s.inputs
  connectives : t.connectives = s.connectives
  table : s.table.Keeps t.table

theorem Keeps.refl (s : InputSide α) : s.Keeps s where
  inputs := rfl
  connectives := rfl
  table := .refl _

theorem Keeps.trans {s t u : InputSide α} (h : s.Keeps t) (h' : t.Keeps u) : s.Keeps u where
  inputs := h'.inputs.trans h.inputs
  connectives := h'.connectives.trans h.connectives
  table := h.table.trans h'.table

variable [Scalar α] {s t : InputSide α} {readings : Readings α}

/-- **Readings that were accepted are accepted.** -/
theorem Keeps.checkReadings (h : s.Keeps t) (hcheck : s.checkReadings readings = .ok ()) :
    t.checkReadings readings = .ok () := by
  obtain ⟨hsize, hreadings⟩ := checkReadings_eq_ok_iff.mp hcheck
  refine checkReadings_eq_ok_iff.mpr ⟨by rw [h.inputs, hsize], fun k hk => ?_⟩
  obtain ⟨v, x, hv, hx, hcontains⟩ := hreadings k (h.inputs ▸ hk)
  obtain ⟨v', hv', -⟩ := h.table.variableAt k v hv
  obtain ⟨hmin, hmax⟩ := h.table.domain k v v' hv hv'
  refine ⟨v', x, hv', hx, ?_⟩
  unfold Variable.contains
  rw [hmin, hmax]
  exact hcontains

/-- **An admitted condition is as true as it was.** -/
theorem Keeps.truthAt (h : s.Keeps t) {c : Condition} (hadmits : s.Admits c) :
    t.truthAt readings c = s.truthAt readings c := by
  unfold InputSide.truthAt
  rw [h.connectives]
  refine Condition.evaluate_congr fun p hp => ?_
  obtain ⟨-, e, he, -⟩ := hadmits p hp
  rw [h.table.membershipOf he]

end InputSide

end FuzzyInference
