import FuzzyInference.Proofs.RuleText.Grouping

/-!
# Levels within levels

Parentheses hold a level of their own, which is read like the whole. The reader
goes down into it, and it takes along a limit on how often it may do so again.

Here the limit is shown to have no say. What stands in parentheses nests less
deeply than what stands around them (`Grouped.nestingDepth_lt`), balanced or not,
so a reader that may go down as often as the items nest never has to go further.
It makes no difference to allow more (`conditionWithin_eq`), and the reader
satisfies the equation it would satisfy without a limit (`conditionOf_eq_level`).
-/

namespace FuzzyInference.RuleText

/-! ## Where levels are -/

/-- The items between a parenthesis and its partner somewhere in the items. -/
def Grouped (inner items : List Item) : Prop :=
  ∃ before after, items = before ++ .opening :: (inner ++ .closing :: after) ∧ Balanced inner

/-- All of the items, or those in a pair of parentheses. -/
def IsLevel (inner items : List Item) : Prop := inner = items ∨ Grouped inner items

theorem Grouped.length_lt {inner items : List Item} (h : Grouped inner items) :
    inner.length < items.length := by
  obtain ⟨before, after, rfl, -⟩ := h
  simp only [List.length_append, List.length_cons]
  omega

/-- What is in parentheses in a part of the items is in parentheses in all of them. -/
theorem Grouped.of_infix {inner part items : List Item} (h : Grouped inner part)
    (hpart : part <:+: items) : Grouped inner items := by
  obtain ⟨before, after, rfl, hb⟩ := h
  obtain ⟨u, v, rfl⟩ := hpart
  exact ⟨u ++ before, after ++ v, by simp, hb⟩

theorem Grouped.isInfix {inner items : List Item} (h : Grouped inner items) :
    .opening :: (inner ++ [.closing]) <:+: items := by
  obtain ⟨before, after, rfl, -⟩ := h
  exact ⟨before, after, by simp⟩

theorem IsLevel.isInfix {inner items : List Item} (h : IsLevel inner items) :
    inner <:+: items := by
  rcases h with rfl | h
  · exact List.infix_refl inner
  · exact (List.IsInfix.trans ⟨[.opening], [.closing], by simp⟩ h.isInfix)

theorem IsLevel.of_grouped {level inner items : List Item} (h : IsLevel level inner)
    (hi : Grouped inner items) : IsLevel level items := by
  rcases h with rfl | h
  · exact Or.inr hi
  · exact Or.inr (h.of_infix (IsLevel.isInfix (Or.inr hi)))

/-- **Within parentheses, parentheses nest less deeply.** -/
theorem Grouped.nestingDepth_lt {inner items : List Item} (h : Grouped inner items) :
    nestingDepth inner < nestingDepth items := by
  obtain ⟨before, after, rfl, hb⟩ := h
  -- the group with its parentheses keeps within the depth of what begins with it
  have hgroup := nestsWithin_nestingDepth (.opening :: (inner ++ .closing :: after))
  rw [show Item.opening :: (inner ++ .closing :: after)
    = (.opening :: (inner ++ [.closing])) ++ after by simp] at hgroup
  obtain ⟨m, hm, hinner⟩ := hgroup.left.of_grouped (by simp)
  have hdepth := (nestingDepth_le_iff hb).mpr hinner
  have hall := nestingDepth_le_nestingFrom_append 0 before
    (.opening :: (inner ++ .closing :: after))
  rw [List.cons_append, List.append_assoc, List.singleton_append] at hm
  unfold nestingDepth at *
  omega

/-- Within the parentheses around everything there is a level. -/
theorem isLevel_unwrap (items : List Item) : IsLevel (unwrap items) items := by
  by_cases h : isEnclosed items
  · obtain ⟨u, rfl, hu⟩ := isEnclosed_iff.mp h
    have hlen : u.length < (Item.opening :: (u ++ [.closing])).length := by
      simp only [List.length_cons, List.length_append, List.length_nil]
      omega
    rw [unwrap_enclosed hu]
    exact (isLevel_unwrap u).of_grouped ⟨[], [], rfl, hu⟩
  · exact Or.inl (unwrap_of_not_enclosed h)
termination_by items.length

/-! ## Reading a level takes reading the levels within it -/

section Steps

variable {group group' : List Item → Except RuleTextError Condition}

theorem operand_congr {first : Item} {rest : List Item}
    (h : ∀ inner, Grouped inner (first :: rest) → group inner = group' inner) :
    operand group first rest = operand group' first rest := by
  cases beginning first rest with
  | clause p subject => rfl
  | @group inner after hb => rw [operand_group hb, operand_group hb, h inner ⟨[], after, rfl, hb⟩]
  | unclosed hnone => rw [operand_unclosed hnone, operand_unclosed hnone]
  | closing => rfl
  | link link => rfl

/-- Of how groups are read, only those within the items count. -/
theorem chain_congr {before : Option Link} {first : Item} {rest : List Item}
    (h : ∀ inner, Grouped inner (first :: rest) → group inner = group' inner) :
    chain group before first rest = chain group' before first rest := by
  rw [chain_eq, chain_eq, operand_congr h]
  cases hop : operand group' first rest with
  | error e => rfl
  | ok r =>
    obtain ⟨c, after⟩ := r
    rw [ok_bind, ok_bind]
    match after with
    | [] => rfl
    | [next] => rfl
    | next :: second :: more =>
      obtain ⟨u, hu, -, hne⟩ := exists_append_of_operand hop
      have hlen : more.length < rest.length := by
        have hlen := operand_length_le group' hop
        simp only [List.length_cons] at hlen
        omega
      -- a group behind the link is a group of all the items
      have hmore : ∀ inner, Grouped inner (second :: more) → group inner = group' inner :=
        fun inner hi => h inner (hi.of_infix ⟨u ++ [next], [], by simp [hu]⟩)
      dsimp only
      simp only [chain_congr hmore]
termination_by rest.length

/-- Of how groups are read, only those within a level count. -/
theorem level_congr {items : List Item}
    (h : ∀ inner, Grouped inner items → group inner = group' inner) :
    level group items = level group' items := by
  have hlevel : ∀ inner, Grouped inner (unwrap items) → group inner = group' inner :=
    fun inner hi => h inner (hi.of_infix (isLevel_unwrap items).isInfix)
  unfold level
  split
  · rfl
  · rfl
  · rename_i first rest hsingle heq
    rw [heq] at hlevel
    rw [chain_congr hlevel]

end Steps

/-- **More levels than parentheses nest make no difference.** -/
theorem conditionWithin_eq {levels : Nat} {items : List Item} (h : nestingDepth items ≤ levels) :
    conditionWithin levels items = conditionOf items := by
  unfold conditionOf
  rw [conditionWithin_eq_level, conditionWithin_eq_level]
  -- both limits are one lower for a group, and a group needs less by one or more
  refine level_congr fun inner hi => ?_
  have hdepth := hi.nestingDepth_lt
  have hlen := hi.length_lt
  obtain ⟨n, rfl⟩ : ∃ n, levels = n + 1 := ⟨levels - 1, by omega⟩
  obtain ⟨m, hm⟩ : ∃ m, nestingDepth items = m + 1 := ⟨nestingDepth items - 1, by omega⟩
  rw [hm]
  show conditionWithin n inner = conditionWithin m inner
  rw [conditionWithin_eq (by omega), conditionWithin_eq (by omega)]
termination_by items.length

/-- **A level is read by reading the levels within it**, and the limit has no say in it. -/
theorem conditionOf_eq_level (items : List Item) :
    conditionOf items = level conditionOf items := by
  conv => lhs; unfold conditionOf
  rw [conditionWithin_eq_level]
  refine level_congr fun inner hi => ?_
  have hdepth := hi.nestingDepth_lt
  obtain ⟨m, hm⟩ : ∃ m, nestingDepth items = m + 1 := ⟨nestingDepth items - 1, by omega⟩
  rw [hm]
  exact conditionWithin_eq (by omega)

end FuzzyInference.RuleText
