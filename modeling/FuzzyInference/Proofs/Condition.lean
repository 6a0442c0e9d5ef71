import FuzzyInference.Condition

/-!
# Trees of conditions

A condition is a tree whose leaves are propositions. `ForCombinations` says
something of every inner node, and `combinations` counts them along the longest
way down. Both follow the tree, and the children of a node as a list of trees.

To which degree a condition holds is up to the memberships of the terms in its
propositions and to nothing else (`evaluate_congr`).
-/

namespace FuzzyInference.Condition

mutual

/-- What holds of link, negation and children of every combination within a condition. -/
def ForCombinations (P : Link → Bool → List Condition → Prop) : Condition → Prop
  | .single _ => True
  | .combination link negated first rest =>
    P link negated (first :: rest) ∧ first.ForCombinations P ∧ ForCombinationsOf P rest

/-- The same within each of some conditions. -/
def ForCombinationsOf (P : Link → Bool → List Condition → Prop) : List Condition → Prop
  | [] => True
  | c :: cs => c.ForCombinations P ∧ ForCombinationsOf P cs

end

mutual

/-- The most combinations that lie inside each other. -/
def combinations : Condition → Nat
  | .single _ => 0
  | .combination _ _ first rest => max first.combinations (combinationsOf rest) + 1

/-- The most combinations that lie inside each other in any of some conditions. -/
def combinationsOf : List Condition → Nat
  | [] => 0
  | c :: cs => max c.combinations (combinationsOf cs)

end

variable {P : Link → Bool → List Condition → Prop}

mutual

/-- What holds of any node holds throughout. -/
theorem forCombinations_of_forall
    (h : ∀ link negated first rest, P link negated (first :: rest)) :
    ∀ c : Condition, c.ForCombinations P
  | .single _ => trivial
  | .combination link negated first rest =>
    ⟨h link negated first rest, forCombinations_of_forall h first,
      forCombinationsOf_of_forall h rest⟩

theorem forCombinationsOf_of_forall
    (h : ∀ link negated first rest, P link negated (first :: rest)) :
    ∀ cs : List Condition, ForCombinationsOf P cs
  | [] => trivial
  | c :: cs => ⟨forCombinations_of_forall h c, forCombinationsOf_of_forall h cs⟩

end

/-- No combination is empty. -/
theorem forCombinations_ne_nil (c : Condition) :
    c.ForCombinations fun _ _ children => children ≠ [] :=
  forCombinations_of_forall (fun _ _ first rest => List.cons_ne_nil first rest) c

/-! ## Evaluation -/

section Evaluation

variable {α : Type} [Scalar α] {connectives : Connectives}
  {membership membership' : Proposition → α}

mutual

/-- **Only the memberships for the propositions of a condition count.** -/
theorem evaluate_congr : ∀ {c : Condition}, (∀ p ∈ c.propositions, membership p = membership' p) →
    c.evaluate connectives membership = c.evaluate connectives membership'
  | .single p, h => by
    rw [evaluate, evaluate, h p List.mem_cons_self]
  | .combination link negated first rest, h => by
    have hfirst : ∀ p ∈ first.propositions, membership p = membership' p :=
      fun p hp => h p (List.mem_append_left _ hp)
    have hrest : ∀ p ∈ propositionsOf rest, membership p = membership' p :=
      fun p hp => h p (List.mem_append_right _ hp)
    rw [evaluate, evaluate, evaluate_congr hfirst, evaluateRest_congr hrest]

theorem evaluateRest_congr {link : Link} {before : α} : ∀ {cs : List Condition},
    (∀ p ∈ propositionsOf cs, membership p = membership' p) →
    evaluateRest connectives membership link before cs
      = evaluateRest connectives membership' link before cs
  | [], _ => rfl
  | c :: cs, h => by
    have hc : ∀ p ∈ c.propositions, membership p = membership' p :=
      fun p hp => h p (List.mem_append_left _ hp)
    have hcs : ∀ p ∈ propositionsOf cs, membership p = membership' p :=
      fun p hp => h p (List.mem_append_right _ hp)
    rw [evaluateRest, evaluateRest, evaluate_congr hc, evaluateRest_congr hcs]

end

end Evaluation

end FuzzyInference.Condition
