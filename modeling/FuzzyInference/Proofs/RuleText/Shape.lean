import FuzzyInference.Proofs.Condition
import FuzzyInference.Proofs.RuleText.Reading

/-!
# The shape of what is read

Not every condition can be the meaning of a text. The grammar has no words for a
negated combination or for a combination of one, and it bounds how deep
combinations lie inside each other. `Writable` is what is left, and whatever is
read is writable (`writable_of_isSentence`).

The bound on combinations is one more than the bound on parentheses, since the
outermost combination needs none. Every other combination is an operand and
stands in parentheses of its own.
-/

namespace FuzzyInference.RuleText

/-- Combinations of two conditions or more, none of them negated, and no more than 65 inside each
other. -/
structure Writable (c : Condition) : Prop where
  plain : c.ForCombinations fun _ negated children => negated = false ∧ 2 ≤ children.length
  depth : c.combinations ≤ 65

variable {σ : Type} {s : Script σ}

/-! ## Combinations and propositions -/

mutual

theorem IsExpression.plain {ws : List σ} {c : Condition} : IsExpression s ws c →
    c.ForCombinations fun _ negated children => negated = false ∧ 2 ≤ children.length
  | .clause _ => trivial
  | .grouped h => h.plain
  | .chain h ht => by
      refine ⟨⟨rfl, ?_⟩, h.plain, ht.plain⟩
      rw [List.length_cons, List.length_cons]
      omega

theorem IsOperand.plain {ws : List σ} {c : Condition} : IsOperand s ws c →
    c.ForCombinations fun _ negated children => negated = false ∧ 2 ≤ children.length
  | .clause _ => trivial
  | .grouped h => h.plain

theorem IsTail.plain {link : Link} {ws : List σ} {cs : List Condition} : IsTail s link ws cs →
    Condition.ForCombinationsOf
      (fun _ negated children => negated = false ∧ 2 ≤ children.length) cs
  | .last h => ⟨h.plain, trivial⟩
  | .more h ht => ⟨h.plain, ht.plain⟩

end

mutual

/-- Every proposition of what is derived is written somewhere. -/
theorem IsExpression.exists_clause {ws : List σ} {c : Condition} :
    IsExpression s ws c → ∀ p ∈ c.propositions, ∃ us, s.clause us p
  | @IsExpression.clause _ _ us _ h, p, hp => by
      rw [List.mem_singleton.mp hp]
      exact ⟨us, h⟩
  | .grouped h, p, hp => h.exists_clause p hp
  | .chain h ht, p, hp => by
      rcases List.mem_append.mp hp with hp | hp
      · exact h.exists_clause p hp
      · exact ht.exists_clause p hp

theorem IsOperand.exists_clause {ws : List σ} {c : Condition} :
    IsOperand s ws c → ∀ p ∈ c.propositions, ∃ us, s.clause us p
  | @IsOperand.clause _ _ us _ h, p, hp => by
      rw [List.mem_singleton.mp hp]
      exact ⟨us, h⟩
  | .grouped h, p, hp => h.exists_clause p hp

theorem IsTail.exists_clause {link : Link} {ws : List σ} {cs : List Condition} :
    IsTail s link ws cs → ∀ p ∈ Condition.propositionsOf cs, ∃ us, s.clause us p
  | .last h, p, hp => by
      rcases List.mem_append.mp hp with hp | hp
      · exact h.exists_clause p hp
      · exact absurd hp List.not_mem_nil
  | .more h ht, p, hp => by
      rcases List.mem_append.mp hp with hp | hp
      · exact h.exists_clause p hp
      · exact ht.exists_clause p hp

end

/-! ## Depth -/

mutual

/-- **Combinations lie inside each other no deeper than parentheses**, but for the outermost. -/
theorem IsExpression.combinations_le {items : List Item} {c : Condition} :
    IsExpression .items items c → ∀ {n : Nat}, NestsWithin .opening .closing n items →
      c.combinations ≤ n + 1
  | .clause _, n, _ => Nat.zero_le (n + 1)
  | .grouped h, n, hn => by
      obtain ⟨m, rfl, hm⟩ := hn.of_grouped (by simp)
      exact Nat.le_succ_of_le (h.combinations_le hm)
  | .chain h ht, n, hn => by
      have hfirst := h.combinations_le hn.left
      have hrest := ht.combinations_le (hn.right h.balanced.2)
      exact Nat.succ_le_succ (Nat.max_le.mpr ⟨hfirst, hrest⟩)

/-- A combination that is an operand is in parentheses. -/
theorem IsOperand.combinations_le {items : List Item} {c : Condition} :
    IsOperand .items items c → ∀ {n : Nat}, NestsWithin .opening .closing n items →
      c.combinations ≤ n
  | .clause _, n, _ => Nat.zero_le n
  | .grouped h, n, hn => by
      -- the level of the parentheses makes up for the outermost combination
      obtain ⟨m, rfl, hm⟩ := hn.of_grouped (by simp)
      exact h.combinations_le hm

theorem IsTail.combinations_le {link : Link} {items : List Item} {cs : List Condition} :
    IsTail .items link items cs → ∀ {n : Nat}, NestsWithin .opening .closing n items →
      Condition.combinationsOf cs ≤ n
  | .last h, n, hn =>
      Nat.max_le.mpr ⟨h.combinations_le (hn.right (balanced_link link).2), Nat.zero_le n⟩
  | .more h ht, n, hn => by
      have hboth := hn.right (balanced_link link).2
      have hfirst := h.combinations_le hboth.left
      have hrest := ht.combinations_le (hboth.right h.balanced.2)
      exact Nat.max_le.mpr ⟨hfirst, hrest⟩

end

/-- **What is read is writable.** -/
theorem writable_of_isSentence {ω ν : Type} {inputs : List (Vocabulary VariableKey TermKey)}
    {outputs : List (Vocabulary ω ν)} {lexicon : Lexicon ω ν}
    (h : Lexicon.ofVocabularies inputs outputs = .ok lexicon) {ws : List String} {rule : Rule ω ν}
    (hr : IsSentence inputs outputs ws rule) : Writable rule.condition := by
  obtain ⟨condition, conclusion, -, hc, hn, -⟩ := hr
  obtain ⟨items, hs, hi⟩ := isExpression_words_iff.mp hc
  exact ⟨hc.plain, hi.combinations_le ((nestsWithin_spells_iff h hs).mp hn)⟩

end FuzzyInference.RuleText
