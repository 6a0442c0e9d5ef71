import FuzzyInference.VariableTable
import FuzzyInference.Proofs.Outcome
import FuzzyInference.Proofs.Registry

/-!
# Variables and terms stay consistent

What is true of variables and their terms from the start, and after any variable
or term is added. `add_eq_ok_iff` and `addTerm_eq_ok_iff` say once when a table
takes something and what it is afterwards; everything else follows from them.
-/

namespace FuzzyInference.VariableTable

variable {α : Type}

/-- Variables list their terms, and a term knows its variable. -/
def ownership : Ownership .variables .terms (Variable α) (Term α) where
  list := Variable.terms
  owner := Term.owner
  name := Term.name

/-- Names, domains and terms of variables are in order. -/
structure Consistent [LE α] (t : VariableTable α) : Prop where
  /-- A rule can mention a variable, and its domain is not empty. -/
  valid : ∀ k v, t.variableAt? k = some v → Name.isValid v.name ∧ v.min ≤ v.max
  /-- Variables have different names. -/
  distinct : t.vars.Distinct Variable.name
  /-- Variables and terms agree on who owns what. -/
  owned : ownership.Holds t.vars t.terms

/-- Whatever is in a table is in the other under the same key. -/
structure Extends (t t' : VariableTable α) : Prop where
  variableAt : ∀ k v, t.variableAt? k = some v → ∃ v', t'.variableAt? k = some v' ∧ v'.name = v.name
  termAt : ∀ k e, t.termAt? k = some e → t'.termAt? k = some e

theorem Extends.refl (t : VariableTable α) : t.Extends t where
  variableAt := fun _ v hv => ⟨v, hv, rfl⟩
  termAt := fun _ _ he => he

theorem Extends.trans {t t' t'' : VariableTable α} (h : t.Extends t') (h' : t'.Extends t'') :
    t.Extends t'' where
  variableAt := by
    intro k v hv
    obtain ⟨v', hv', hname⟩ := h.variableAt k v hv
    obtain ⟨v'', hv'', hname'⟩ := h'.variableAt k v' hv'
    exact ⟨v'', hv'', hname'.trans hname⟩
  termAt := fun k e he => h'.termAt k e (h.termAt k e he)

theorem consistent_empty [LE α] : ({} : VariableTable α).Consistent where
  valid := fun k v hv => absurd hv (Registry.get?_empty_ne k v)
  distinct := Registry.distinct_empty _
  owned := Ownership.holds_empty _

theorem termsOf_eq (t : VariableTable α) (key : VariableKey) :
    t.termsOf key = ownership.listed t.vars t.terms key := by
  unfold termsOf Ownership.listed variableAt?
  cases t.vars.get? key <;> rfl

theorem check_eq_ok_iff {name : String} :
    (Name.check name : Except (Error α) Unit) = .ok () ↔ Name.isValid name := by
  unfold Name.check
  split
  · rename_i h
    exact ⟨fun _ => h, fun _ => rfl⟩
  · rename_i h
    exact ⟨fun he => absurd he (by simp), fun hv => absurd hv h⟩

theorem keyOf?_eq_none_iff {t : VariableTable α} {name : String} :
    t.keyOf? name = none ↔ ∀ k v, t.variableAt? k = some v → v.name ≠ name := by
  unfold keyOf? variableAt?
  rw [Registry.findKey?_eq_none_iff]
  simp only [decide_eq_false_iff_not]

/-! ## Adding a variable -/

/-- **A variable is taken exactly if its name and domain are fit**, and then it is the last one. -/
theorem add_eq_ok_iff [Scalar α] {t t' : VariableTable α} {name : String} {min max : α}
    {key : VariableKey} :
    t.add name min max = .ok (key, t')
      ↔ Name.isValid name ∧ min ≤ max ∧ (∀ k v, t.variableAt? k = some v → v.name ≠ name)
        ∧ key = t.vars.nextKey
        ∧ t' = { t with vars := t.vars.push { name, min, max } } := by
  unfold add
  rw [bind_eq_ok_iff, ← keyOf?_eq_none_iff]
  refine ⟨fun h => ?_, fun h => ?_⟩
  · obtain ⟨_, hname, h⟩ := h
    split at h
    · exact absurd h (by simp)
    · rename_i hdomain
      split at h
      · exact absurd h (by simp)
      · rename_i hnew
        cases h
        rw [Bool.not_eq_true, Option.isSome_eq_false_iff, Option.isNone_iff_eq_none] at hnew
        exact ⟨check_eq_ok_iff.mp hname, Classical.not_not.mp hdomain, hnew, rfl, rfl⟩
  · obtain ⟨hname, hdomain, hnew, rfl, rfl⟩ := h
    refine ⟨(), check_eq_ok_iff.mpr hname, ?_⟩
    rw [if_neg (not_not_intro hdomain), hnew]
    rfl

section Add

variable [Scalar α] {t t' : VariableTable α} {name : String} {min max : α} {key : VariableKey}

/-- After a variable is added there are the new one and the old ones. -/
theorem variableAt?_add (h : t.add name min max = .ok (key, t')) {k : VariableKey}
    {v : Variable α} (hv : t'.variableAt? k = some v) :
    k = key ∧ v.name = name ∨ k ≠ key ∧ t.variableAt? k = some v := by
  obtain ⟨-, -, -, rfl, rfl⟩ := add_eq_ok_iff.mp h
  rcases Registry.get?_push_cases hv with ⟨hk, rfl⟩ | ⟨hk, hv⟩
  · exact Or.inl ⟨hk, rfl⟩
  · exact Or.inr ⟨hk, hv⟩

theorem variableAt?_add_self (h : t.add name min max = .ok (key, t')) :
    t.variableAt? key = none ∧ ∃ v, t'.variableAt? key = some v ∧ v.name = name := by
  obtain ⟨-, -, -, rfl, rfl⟩ := add_eq_ok_iff.mp h
  exact ⟨Registry.get?_nextKey _, _, Registry.get?_push_self _ _, rfl⟩

/-- The key of a new variable is not among keys that are known. -/
theorem not_mem_of_add (h : t.add name min max = .ok (key, t')) {keys : List VariableKey}
    (hkeys : ∀ k ∈ keys, ∃ v, t.variableAt? k = some v) : key ∉ keys := by
  intro hmem
  obtain ⟨v, hv⟩ := hkeys key hmem
  exact absurd ((variableAt?_add_self h).1.symm.trans hv) (by simp)

theorem extends_add (h : t.add name min max = .ok (key, t')) : t.Extends t' := by
  obtain ⟨-, -, -, rfl, rfl⟩ := add_eq_ok_iff.mp h
  exact ⟨fun k v hv => ⟨v, Registry.get?_push_of_eq_some _ hv, rfl⟩, fun k e he => he⟩

/-- Adding a variable adds one key. -/
theorem exists_variableAt?_add_iff (h : t.add name min max = .ok (key, t')) {k : VariableKey} :
    (∃ v, t'.variableAt? k = some v) ↔ (∃ v, t.variableAt? k = some v) ∨ k = key := by
  refine ⟨fun hk => ?_, fun hk => ?_⟩
  · obtain ⟨v, hv⟩ := hk
    rcases variableAt?_add h hv with ⟨rfl, -⟩ | ⟨-, hv⟩
    · exact Or.inr rfl
    · exact Or.inl ⟨v, hv⟩
  · rcases hk with ⟨v, hv⟩ | rfl
    · obtain ⟨v', hv', -⟩ := (extends_add h).variableAt k v hv
      exact ⟨v', hv'⟩
    · obtain ⟨-, v, hv, -⟩ := variableAt?_add_self h
      exact ⟨v, hv⟩

/-- **Adding a variable keeps a table consistent.** -/
theorem Consistent.add (hc : t.Consistent) (h : t.add name min max = .ok (key, t')) :
    t'.Consistent := by
  obtain ⟨hname, hdomain, hnew, rfl, rfl⟩ := add_eq_ok_iff.mp h
  refine ⟨fun k v hv => ?_, hc.distinct.push hnew, hc.owned.pushOwner rfl⟩
  rcases Registry.get?_push_cases hv with ⟨-, rfl⟩ | ⟨-, hv⟩
  · exact ⟨hname, hdomain⟩
  · exact hc.valid k v hv

end Add

/-! ## Adding a term -/

/-- **A term is taken exactly if its name is fit and new for the variable.** -/
theorem addTerm_eq_ok_iff {t t' : VariableTable α} {key : VariableKey} {name : String}
    {membership : α → α} {term : TermKey} :
    t.addTerm key name membership = .ok (term, t')
      ↔ Name.isValid name ∧ (∃ v, t.variableAt? key = some v)
        ∧ (¬ (t.termsOf key).any fun e => e.2.name = name)
        ∧ term = t.terms.nextKey
        ∧ t' = { vars := t.vars.modify key fun v =>
                    { v with terms := v.terms ++ [t.terms.nextKey] }
                 terms := t.terms.push { name, owner := key, membership } } := by
  unfold addTerm
  rw [bind_eq_ok_iff]
  refine ⟨fun h => ?_, fun h => ?_⟩
  · obtain ⟨_, hname, h⟩ := h
    split at h
    · exact absurd h (by simp)
    · rename_i v hv
      split at h
      · exact absurd h (by simp)
      · rename_i hnew
        cases h
        exact ⟨check_eq_ok_iff.mp hname, ⟨v, hv⟩, hnew, rfl, rfl⟩
  · obtain ⟨hname, ⟨v, hv⟩, hnew, rfl, rfl⟩ := h
    refine ⟨(), check_eq_ok_iff.mpr hname, ?_⟩
    rw [hv]
    exact if_neg hnew

section AddTerm

variable {t t' : VariableTable α} {key : VariableKey} {name : String} {membership : α → α}
  {term : TermKey}

/-- Adding a term adds and renames no variable. -/
theorem variableAt?_addTerm (h : t.addTerm key name membership = .ok (term, t')) {k : VariableKey}
    {v' : Variable α} (hv : t'.variableAt? k = some v') :
    ∃ v, t.variableAt? k = some v ∧ v.name = v'.name ∧ v.min = v'.min ∧ v.max = v'.max := by
  obtain ⟨-, -, -, rfl, rfl⟩ := addTerm_eq_ok_iff.mp h
  obtain ⟨v, hold, ⟨-, rfl⟩ | ⟨-, rfl⟩⟩ := Registry.get?_modify_cases hv
  · exact ⟨v, hold, rfl, rfl, rfl⟩
  · exact ⟨_, hold, rfl, rfl, rfl⟩

theorem extends_addTerm (h : t.addTerm key name membership = .ok (term, t')) : t.Extends t' := by
  obtain ⟨-, -, -, rfl, rfl⟩ := addTerm_eq_ok_iff.mp h
  refine ⟨fun k v hv => ?_, fun k e he => Registry.get?_push_of_eq_some _ he⟩
  obtain ⟨v', hv', rfl | rfl⟩ := Registry.exists_get?_modify hv
  · exact ⟨_, hv', rfl⟩
  · exact ⟨_, hv', rfl⟩

/-- Adding a term adds no key of a variable. -/
theorem exists_variableAt?_addTerm_iff (h : t.addTerm key name membership = .ok (term, t'))
    {k : VariableKey} : (∃ v, t'.variableAt? k = some v) ↔ ∃ v, t.variableAt? k = some v := by
  refine ⟨fun hk => ?_, fun hk => ?_⟩
  · obtain ⟨v', hv'⟩ := hk
    obtain ⟨v, hv, -⟩ := variableAt?_addTerm h hv'
    exact ⟨v, hv⟩
  · obtain ⟨v, hv⟩ := hk
    obtain ⟨v', hv', -⟩ := (extends_addTerm h).variableAt k v hv
    exact ⟨v', hv'⟩

/-- **Adding a term keeps a table consistent.** -/
theorem Consistent.addTerm [LE α] (hc : t.Consistent)
    (h : t.addTerm key name membership = .ok (term, t')) : t'.Consistent := by
  have hvalid : ∀ k v', t'.variableAt? k = some v' → Name.isValid v'.name ∧ v'.min ≤ v'.max := by
    intro k v' hv'
    obtain ⟨v, hv, hname, hmin, hmax⟩ := variableAt?_addTerm h hv'
    rw [← hname, ← hmin, ← hmax]
    exact hc.valid k v hv
  obtain ⟨hname, ⟨v, hv⟩, hnew, rfl, rfl⟩ := addTerm_eq_ok_iff.mp h
  refine ⟨hvalid, hc.distinct.modify fun _ => rfl, ?_⟩
  rw [termsOf_eq] at hnew
  exact Ownership.Holds.pushItem (c := { name, owner := key, membership }) hc.owned hv rfl hname
    (hc.owned.name_ne_of_any hnew) fun _ => rfl

end AddTerm

end FuzzyInference.VariableTable
