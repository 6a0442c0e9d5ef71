import FuzzyInference.Proofs.Outcome
import FuzzyInference.Proofs.RuleText.Grammar
import FuzzyInference.Proofs.RuleText.Parentheses

/-!
# Grouping is the grammar

The tree that is made of the items of a condition is the one the grammar
derives, and items that the grammar does not derive are refused
(`conditionOf_eq_ok_iff`).

From a tree to a derivation the argument follows the recursion of the reader:
one level at a time, and within a level one operand at a time. From a derivation
to the tree it follows the derivation. What has to be carried along there is
that the parentheses still open are no more than the levels the reader may go
down, and that derived items are balanced, since it is balance that makes the
reader find the right partner of a parenthesis.
-/

namespace FuzzyInference.RuleText

/-- Conditions written in items. -/
def Script.items : Script Item where
  clause items p := ∃ subject, items = [.clause p subject]
  link := .link
  opening := .opening
  closing := .closing

/-! ## Derived items are balanced -/

theorem balanced_clause (p : Proposition) (subject : String) : Balanced [.clause p subject] :=
  balanced_singleton (by simp) (by simp)

theorem balanced_link (link : Link) : Balanced [.link link] :=
  balanced_singleton (by simp) (by simp)

mutual

theorem IsExpression.balanced {items : List Item} {c : Condition} :
    IsExpression .items items c → Balanced items
  | .clause ⟨subject, h⟩ => h ▸ balanced_clause _ subject
  | .grouped h => h.balanced.grouped
  | .chain h ht => h.balanced.append ht.balanced

theorem IsOperand.balanced {items : List Item} {c : Condition} :
    IsOperand .items items c → Balanced items
  | .clause ⟨subject, h⟩ => h ▸ balanced_clause _ subject
  | .grouped h => h.balanced.grouped

theorem IsTail.balanced {link : Link} {items : List Item} {cs : List Condition} :
    IsTail .items link items cs → Balanced items
  | .last h => (balanced_link link).append h.balanced
  | .more h ht => (balanced_link link).append (h.balanced.append ht.balanced)

end

/-! ## One step of the reader -/

/-- What the items of a level can begin with. -/
inductive Beginning : Item → List Item → Prop where
  | clause (p : Proposition) (subject : String) (rest : List Item) :
      Beginning (.clause p subject) rest
  | group {inner : List Item} (after : List Item) :
      Balanced inner → Beginning .opening (inner ++ .closing :: after)
  | unclosed {rest : List Item} :
      closeIndex? (.opening :: rest) = none → Beginning .opening rest
  | closing (rest : List Item) : Beginning .closing rest
  | link (link : Link) (rest : List Item) : Beginning (.link link) rest

theorem beginning (first : Item) (rest : List Item) : Beginning first rest := by
  cases first with
  | clause p subject => exact .clause p subject rest
  | link link => exact .link link rest
  | closing => exact .closing rest
  | opening =>
    cases hclose : closeIndex? (.opening :: rest) with
    | none => exact .unclosed hclose
    | some i =>
      obtain ⟨inner, after, rfl, -, hb⟩ := closeIndex?_eq_some_iff.mp hclose
      exact .group after hb

section Steps

variable {group : List Item → Except RuleTextError Condition}

/-- A group is read as its inside is. -/
theorem operand_group {inner : List Item} (hb : Balanced inner) (after : List Item) :
    operand group .opening (inner ++ .closing :: after)
      = (do let condition ← group inner; .ok (condition, after)) := by
  have hclose : closeIndex? (.opening :: (inner ++ .closing :: after)) = some (inner.length + 1) :=
    closeIndex?_eq_some_iff.mpr ⟨inner, after, rfl, rfl, hb⟩
  have hdrop : (inner ++ .closing :: after).drop (inner.length + 1) = after := by
    rw [← List.drop_drop, List.drop_left]
    rfl
  simp only [operand, hclose, Nat.add_sub_cancel, List.take_left, hdrop]

theorem operand_unclosed {rest : List Item} (h : closeIndex? (.opening :: rest) = none) :
    operand group .opening rest = .error .unbalancedParenthesis := by
  simp only [operand, h]

theorem operand_grouped {u after : List Item} {c : Condition} (hu : Balanced u)
    (h : group u = .ok c) :
    operand group .opening (u ++ .closing :: after) = .ok (c, after) := by
  rw [operand_group hu, h, ok_bind]

/-- An operand takes balanced items. -/
theorem exists_append_of_operand {first : Item} {rest after : List Item} {c : Condition}
    (h : operand group first rest = .ok (c, after)) :
    ∃ u, first :: rest = u ++ after ∧ Balanced u ∧ u ≠ [] := by
  cases beginning first rest with
  | clause p subject =>
    cases h
    exact ⟨[.clause p subject], rfl, balanced_clause p subject, by simp⟩
  | @group inner after' hb =>
    rw [operand_group hb] at h
    obtain ⟨d, -, h⟩ := bind_eq_ok_iff.mp h
    cases h
    exact ⟨.opening :: (inner ++ [.closing]), by simp, hb.grouped, by simp⟩
  | unclosed hnone =>
    rw [operand_unclosed hnone] at h
    cases h
  | closing => cases h
  | link link => cases h

/-- Reading an operand takes one, and leaves what follows it. -/
theorem isOperand_of_operand
    (hg : ∀ {items c}, group items = .ok c → IsExpression .items items c)
    {first : Item} {rest after : List Item} {c : Condition}
    (h : operand group first rest = .ok (c, after)) :
    ∃ u, first :: rest = u ++ after ∧ IsOperand .items u c := by
  cases beginning first rest with
  | clause p subject =>
    cases h
    exact ⟨[.clause p subject], rfl, .clause ⟨subject, rfl⟩⟩
  | @group inner after' hb =>
    rw [operand_group hb] at h
    obtain ⟨d, hd, h⟩ := bind_eq_ok_iff.mp h
    cases h
    have hgroup : IsOperand .items (.opening :: (inner ++ [.closing])) c := .grouped (hg hd)
    exact ⟨.opening :: (inner ++ [.closing]), by simp, hgroup⟩
  | unclosed hnone =>
    rw [operand_unclosed hnone] at h
    cases h
  | closing => cases h
  | link link => cases h

/-- The conditions of a level, one operand at a time. -/
theorem chain_eq (before : Option Link) (first : Item) (rest : List Item) :
    chain group before first rest = (do
      let (condition, after) ← operand group first rest
      match after with
      | [] => .ok (before.getD .and, condition, [])
      | next :: after => do
        let link ← linkAfter first next
        match after with
        | [] => .error (.danglingOperator next.text)
        | second :: more =>
          if before.getD link = link then do
            let (link, head, others) ← chain group (some link) second more
            .ok (link, condition, head :: others)
          else .error .mixedOperators) := by
  rw [chain]
  split
  · rename_i hop
    rw [hop, error_bind]
  · rename_i hop
    rw [hop, ok_bind]
  · rename_i condition next after hop
    conv => rhs; rw [hop, ok_bind]
    dsimp only
    cases linkAfter first next with
    | error e => rfl
    | ok link =>
      rw [ok_bind]
      cases after with
      | nil => rfl
      | cons second more =>
        dsimp only
        split
        · cases chain group (some link) second more <;> rfl
        · rfl

theorem chain_last {before : Option Link} {first : Item} {rest : List Item} {c : Condition}
    (h : operand group first rest = .ok (c, [])) :
    chain group before first rest = .ok (before.getD .and, c, []) := by
  rw [chain_eq, h, ok_bind]

theorem linkAfter_eq_ok {first next : Item} {link : Link} (h : linkAfter first next = .ok link) :
    next = .link link := by
  unfold linkAfter at h
  split at h
  · cases h
    rfl
  · exact absurd h (by simp)
  · exact absurd h (by simp)

theorem chain_more {before : Option Link} {link : Link} {first second : Item}
    {rest more : List Item} {c d : Condition} {ds : List Condition}
    (h : operand group first rest = .ok (c, .link link :: second :: more))
    (hlink : before.getD link = link)
    (hmore : chain group (some link) second more = .ok (link, d, ds)) :
    chain group before first rest = .ok (link, c, d :: ds) := by
  rw [chain_eq, h, ok_bind]
  simp only [linkAfter, ok_bind, hlink, if_true, hmore]

/-- What the conditions of a level begin with: an operand, and the operands behind it if there are
any. -/
theorem chain_eq_ok {before : Option Link} {first : Item} {rest : List Item} {link : Link}
    {c : Condition} {cs : List Condition} (h : chain group before first rest = .ok (link, c, cs)) :
    operand group first rest = .ok (c, []) ∧ link = before.getD .and ∧ cs = []
      ∨ ∃ l second more d ds, operand group first rest = .ok (c, .link l :: second :: more)
        ∧ before.getD l = l ∧ chain group (some l) second more = .ok (link, d, ds)
        ∧ cs = d :: ds := by
  rw [chain_eq] at h
  obtain ⟨⟨condition, after⟩, hop, h⟩ := bind_eq_ok_iff.mp h
  match after with
  | [] =>
    cases h
    exact Or.inl ⟨hop, rfl, rfl⟩
  | next :: after =>
    obtain ⟨l, hl, h⟩ := bind_eq_ok_iff.mp h
    cases linkAfter_eq_ok hl
    match after with
    | [] => cases h
    | second :: more =>
      dsimp only at h
      split at h
      · rename_i hbefore
        obtain ⟨⟨l', head, others⟩, hrest, h⟩ := bind_eq_ok_iff.mp h
        cases h
        exact Or.inr ⟨l, second, more, head, others, hop, hbefore, hrest, rfl⟩
      · cases h

/-- A level is an operand, and a tail if there is more; its link is the one read before. -/
theorem isTail_of_chain
    (hg : ∀ {items c}, group items = .ok c → IsExpression .items items c)
    {before : Option Link} {first : Item} {rest : List Item} {link : Link} {c : Condition}
    {cs : List Condition} (h : chain group before first rest = .ok (link, c, cs)) :
    (∀ l, before = some l → link = l)
      ∧ ∃ u v, first :: rest = u ++ v ∧ IsOperand .items u c
        ∧ (cs = [] ∧ v = [] ∨ IsTail .items link v cs) := by
  rcases chain_eq_ok h with
    ⟨hop, rfl, rfl⟩ | ⟨l, second, more, d, ds, hop, hbefore, hrest, rfl⟩
  · obtain ⟨u, hu, hc⟩ := isOperand_of_operand hg hop
    exact ⟨fun l hl => by rw [hl]; rfl, u, [], hu, hc, Or.inl ⟨rfl, rfl⟩⟩
  · have hlen : more.length < rest.length := by
      have := operand_length_le group hop
      simp only [List.length_cons] at this
      omega
    obtain ⟨u, hu, hc⟩ := isOperand_of_operand hg hop
    obtain ⟨hl, u', v', hu', hd, hds⟩ := isTail_of_chain hg hrest
    cases hl l rfl
    refine ⟨fun b hb => ?_, u, _, hu, hc, Or.inr ?_⟩
    · rw [hb] at hbefore
      exact hbefore.symm
    · rw [hu']
      rcases hds with ⟨rfl, rfl⟩ | ht
      · rw [List.append_nil]
        exact .last hd
      · exact .more hd ht
termination_by rest.length

/-! ## One level -/

theorem level_enclosed {u : List Item} (hu : Balanced u) :
    level group (.opening :: (u ++ [.closing])) = level group u := by
  unfold level
  rw [unwrap_enclosed hu]

theorem level_clause (p : Proposition) (subject : String) :
    level group [.clause p subject] = .ok (.single p) := by
  have hopen : ¬ isEnclosed [.clause p subject] := by simp [isEnclosed]
  unfold level
  rw [unwrap_of_not_enclosed hopen]

theorem level_chain {first second : Item} {rest : List Item} {link : Link} {c : Condition}
    {cs : List Condition} (hopen : ¬ isEnclosed (first :: second :: rest))
    (h : chain group none first (second :: rest) = .ok (link, c, cs)) :
    level group (first :: second :: rest) = .ok (.combination link false c cs) := by
  unfold level
  rw [unwrap_of_not_enclosed hopen]
  simp only [h, ok_bind]

/-- **A level that is read is derived**, provided what is read within its parentheses is. -/
theorem isExpression_of_level
    (hg : ∀ {items c}, group items = .ok c → IsExpression .items items c)
    {items : List Item} {c : Condition} (h : level group items = .ok c) :
    IsExpression .items items c := by
  by_cases hopen : isEnclosed items
  · obtain ⟨u, rfl, hu⟩ := isEnclosed_iff.mp hopen
    rw [level_enclosed hu] at h
    have hlen : u.length < (Item.opening :: (u ++ [.closing])).length := by
      simp only [List.length_cons, List.length_append, List.length_nil]
      omega
    exact .grouped (isExpression_of_level hg h)
  · unfold level at h
    rw [unwrap_of_not_enclosed hopen] at h
    split at h
    · exact absurd h (by simp)
    · rename_i p subject
      cases h
      exact .clause ⟨subject, rfl⟩
    · rename_i first rest hsingle
      obtain ⟨⟨link, head, others⟩, hchain, h⟩ := bind_eq_ok_iff.mp h
      cases h
      obtain ⟨-, u, v, huv, hhead, hothers⟩ := isTail_of_chain hg hchain
      rcases hothers with ⟨-, rfl⟩ | ht
      · -- a lone operand is a clause or enclosed, and neither comes this far
        rw [List.append_nil] at huv
        cases hhead with
        | clause hc =>
          obtain ⟨subject, rfl⟩ := hc
          cases huv
          exact absurd rfl (hsingle _ subject rfl)
        | grouped he => exact absurd (isEnclosed_iff.mpr ⟨_, huv, he.balanced⟩) hopen
      · rw [huv]
        cases others with
        | nil => cases ht
        | cons d ds => exact .chain hhead ht
termination_by items.length

end Steps

/-! ## All levels -/

/-- **What is read is derived.** -/
theorem isExpression_of_conditionWithin {levels : Nat} {items : List Item} {c : Condition}
    (h : conditionWithin levels items = .ok c) : IsExpression .items items c := by
  induction levels generalizing items c with
  | zero => exact isExpression_of_level (fun hg => absurd hg (by simp)) h
  | succ n ih => exact isExpression_of_level ih h

/-- How the reader goes on within a pair of parentheses. -/
def within : Nat → List Item → Except RuleTextError Condition
  | 0, _ => .error (.nestingTooDeep maxNesting)
  | levels + 1, items => conditionWithin levels items

theorem conditionWithin_eq_level (levels : Nat) :
    conditionWithin levels = level (within levels) := by
  cases levels <;> rfl

theorem not_isEnclosed_of_isOperand {u v : List Item} {c : Condition} (h : IsOperand .items u c)
    (hv : v ≠ []) : ¬ isEnclosed (u ++ v) := by
  intro he
  obtain ⟨w, huv, hw⟩ := isEnclosed_iff.mp he
  cases h with
  | clause hc =>
    obtain ⟨subject, rfl⟩ := hc
    exact absurd huv (by simp)
  | grouped he' =>
    -- the first parenthesis has one partner, which cannot be in two places
    rename_i x
    rw [List.cons_append, List.append_assoc, List.cons.injEq] at huv
    have h₁ := closeIndex?_eq_some_iff.mpr ⟨x, v, rfl, rfl, he'.balanced⟩
    have h₂ := closeIndex?_eq_some_iff.mpr ⟨w, [], rfl, rfl, hw⟩
    have hxw : x ++ .closing :: v = w ++ [.closing] := huv.2
    rw [hxw, h₂] at h₁
    have hlen := congrArg List.length hxw
    simp only [Option.some.injEq] at h₁
    simp only [List.length_append, List.length_cons, List.length_nil] at hlen
    exact hv (List.length_eq_zero_iff.mp (by omega))

mutual

/-- **What is derived is read**, if the reader may go down as many levels as parentheses nest. -/
theorem IsExpression.conditionWithin_eq {items : List Item} {c : Condition} :
    IsExpression .items items c → ∀ {n : Nat}, NestsWithin .opening .closing n items →
      conditionWithin n items = .ok c
  | .clause ⟨subject, hs⟩, n, _ => by
      rw [hs, conditionWithin_eq_level]
      exact level_clause _ subject
  | @IsExpression.grouped _ _ u _ h, n, hn => by
      obtain ⟨m, rfl, hm⟩ := hn.of_grouped (by simp)
      have hrest := h.conditionWithin_eq (n := m + 1) (fun p hp => Nat.le_succ_of_le (hm p hp))
      rw [conditionWithin_eq_level] at hrest ⊢
      exact (level_enclosed h.balanced).trans hrest
  | @IsExpression.chain _ _ link u v _ _ _ h ht, n, hn => by
      obtain ⟨first, rest, hu, hop⟩ := h.operand_eq hn.left v
      obtain ⟨second, more, hv⟩ : ∃ second more, rest ++ v = second :: more := by
        cases ht <;> cases rest <;> exact ⟨_, _, rfl⟩
      have hne : v ≠ [] := by cases ht <;> simp
      have hopen := not_isEnclosed_of_isOperand h hne
      have hnone : Option.getD none link = link := rfl
      have hchain := ht.chain_eq (hn.right h.balanced.2) hnone hop
      rw [hu, List.cons_append, hv] at hopen ⊢
      rw [hv] at hchain
      rw [conditionWithin_eq_level]
      exact level_chain hopen hchain

theorem IsOperand.operand_eq {items : List Item} {c : Condition} :
    IsOperand .items items c → ∀ {n : Nat}, NestsWithin .opening .closing n items →
      ∀ after : List Item, ∃ first rest, items = first :: rest
        ∧ operand (within n) first (rest ++ after) = .ok (c, after)
  | .clause ⟨subject, hs⟩, n, _, after => ⟨.clause _ subject, [], hs, rfl⟩
  | @IsOperand.grouped _ _ u _ h, n, hn, after => by
      obtain ⟨m, rfl, hm⟩ := hn.of_grouped (by simp)
      refine ⟨.opening, u ++ [.closing], rfl, ?_⟩
      rw [List.append_assoc]
      exact operand_grouped h.balanced (h.conditionWithin_eq hm)

theorem IsTail.chain_eq {link : Link} {items : List Item} {cs : List Condition} :
    IsTail .items link items cs → ∀ {n : Nat}, NestsWithin .opening .closing n items →
      ∀ {before : Option Link}, before.getD link = link →
      ∀ {first : Item} {rest : List Item} {c : Condition},
        operand (within n) first rest = .ok (c, items) →
        chain (within n) before first rest = .ok (link, c, cs)
  | .last h, n, hn, before, hlink, first, rest, c, hop => by
      obtain ⟨second, more, hu, hsecond⟩ :=
        h.operand_eq (hn.right (balanced_link link).2) []
      rw [List.append_nil] at hsecond
      rw [hu] at hop
      exact chain_more hop hlink (chain_last hsecond)
  | @IsTail.more _ _ _ u v _ _ h ht, n, hn, before, hlink, first, rest, c, hop => by
      have hn' := hn.right (balanced_link link).2
      obtain ⟨second, more, hu, hsecond⟩ := h.operand_eq hn'.left v
      rw [hu] at hop
      exact chain_more hop hlink (ht.chain_eq (hn'.right h.balanced.2) rfl hsecond)

end

/-- **The reader makes of items what the grammar makes of them, and refuses all others.** -/
theorem conditionOf_eq_ok_iff {items : List Item} {c : Condition} :
    conditionOf items = .ok c ↔ IsExpression .items items c :=
  ⟨isExpression_of_conditionWithin,
    fun h => h.conditionWithin_eq (nestsWithin_nestingDepth items)⟩

end FuzzyInference.RuleText
