import FuzzyInference.Proofs.FirstFailure
import FuzzyInference.Proofs.RuleText.Levels

/-!
# Refusals name a defect

Items that are no condition are refused, and the cause that is given can be found
among them: some level, which is all of the items or what stands in a pair of
parentheses, has the defect that the cause speaks of (`exists_defect`).

A level is read from left to right, and what has been read of it is balanced and
ends where an operand is due (`OperandDue`). So what is found next is where it
seems to be, in the level itself and not within parentheses in it. A defect in a
level that is read on the way is one of the items, since levels of a level are
levels of the whole.
-/

namespace FuzzyInference.RuleText

/-- The item stands in the level itself, not within parentheses in it. -/
def Directly (item : Item) (level : List Item) : Prop :=
  ∃ before after, level = before ++ item :: after ∧ Balanced before

/-- What an operand can follow in a level: nothing, or the link read last. -/
inductive OperandDue : Option Link → List Item → Prop where
  | first : OperandDue none []
  | behind {link : Link} {before : List Item} :
      Balanced before → OperandDue (some link) (before ++ [.link link])

/-- What is wrong with a level that is refused for a cause. -/
inductive Defect : List Item → RuleTextError → Prop where
  | empty : Defect [] .emptyCondition
  | unbalanced {level : List Item} : ¬ Balanced level → Defect level .unbalancedParenthesis
  /-- A link stands where an operand is due. -/
  | misplaced {due : Option Link} {before : List Item} (link : Link) (after : List Item) :
      OperandDue due before →
      Defect (before ++ .link link :: after) (.misplacedLexeme link.word)
  /-- Two operands stand side by side. -/
  | sequence {first next : Item} {more : List Item} (before after : List Item) :
      Balanced (first :: more) → next ≠ .closing → (∀ link, next ≠ .link link) →
      Defect (before ++ (first :: more ++ next :: after)) (.unexpectedSequence first.text next.text)
  /-- The level ends with a link. -/
  | dangling (before : List Item) (link : Link) :
      Defect (before ++ [.link link]) (.danglingOperator link.word)
  | mixed {level : List Item} :
      Directly (.link .and) level → Directly (.link .or) level → Defect level .mixedOperators

theorem balanced_nil : Balanced [] := by simp [Balanced]

theorem OperandDue.balanced {due : Option Link} {before : List Item} (h : OperandDue due before) :
    Balanced before := by
  cases h with
  | first => exact balanced_nil
  | @behind link before hb => exact hb.append (balanced_link link)

/-- Two different links in a level are one of each kind. -/
theorem Defect.of_ne {level : List Item} {link link' : Link} (hne : link ≠ link')
    (h : Directly (.link link) level) (h' : Directly (.link link') level) :
    Defect level .mixedOperators := by
  cases link <;> cases link'
  · exact absurd rfl hne
  · exact .mixed h h'
  · exact .mixed h' h
  · exact absurd rfl hne

section Steps

variable {group : List Item → Except RuleTextError Condition}

/-- An operand is refused for what is in it, or for a defect of the level it is due in. -/
theorem operand_eq_error {due : Option Link} {before : List Item} (hdue : OperandDue due before)
    {first : Item} {rest : List Item} {e : RuleTextError}
    (h : operand group first rest = .error e) :
    (∃ inner, Grouped inner (before ++ first :: rest) ∧ group inner = .error e)
      ∨ Defect (before ++ first :: rest) e := by
  cases beginning first rest with
  | clause p subject => cases h
  | @group inner after hb =>
    rw [operand_group hb] at h
    rcases bind_eq_error_iff.mp h with he | ⟨c, -, h⟩
    · exact Or.inl ⟨inner, ⟨before, after, rfl, hb⟩, he⟩
    · cases h
  | unclosed hnone =>
    rw [operand_unclosed hnone] at h
    cases h
    have hrest := not_balanced_of_closeIndex?_eq_none hnone
    exact Or.inr (.unbalanced fun hb => hrest ((balanced_append_iff hdue.balanced).mp hb))
  | closing =>
    cases h
    have hrest := not_balanced_closing rest
    exact Or.inr (.unbalanced fun hb => hrest ((balanced_append_iff hdue.balanced).mp hb))
  | link link =>
    cases h
    exact Or.inr (.misplaced link rest hdue)

/-- What follows an operand is a link, or the level has a defect. -/
theorem linkAfter_eq_error {before more after : List Item} (hbefore : Balanced before)
    {first next : Item} (hoperand : Balanced (first :: more)) {e : RuleTextError}
    (h : linkAfter first next = .error e) :
    Defect (before ++ (first :: more ++ next :: after)) e := by
  cases next with
  | link link => cases h
  | closing =>
    cases h
    refine .unbalanced fun hb => not_balanced_closing after ?_
    exact (balanced_append_iff hoperand).mp ((balanced_append_iff hbefore).mp hb)
  | opening =>
    cases h
    exact .sequence before after hoperand (by simp) (by simp)
  | clause p subject =>
    cases h
    exact .sequence before after hoperand (by simp) (by simp)

/-- **A level is refused for a defect of its own or of a level within it.** -/
theorem chain_eq_error {due : Option Link} {before : List Item} (hdue : OperandDue due before)
    {first : Item} {rest : List Item} {e : RuleTextError}
    (h : chain group due first rest = .error e) :
    (∃ inner, Grouped inner (before ++ first :: rest) ∧ group inner = .error e)
      ∨ Defect (before ++ first :: rest) e := by
  rw [chain_eq] at h
  rcases bind_eq_error_iff.mp h with hop | ⟨⟨c, after⟩, hop, h⟩
  · exact operand_eq_error hdue hop
  -- the operand has been read, so it is balanced and what has been read stays balanced
  obtain ⟨u, hu, hb, hne⟩ := exists_append_of_operand hop
  obtain ⟨more, rfl⟩ : ∃ more, u = first :: more := by
    obtain ⟨item, more, rfl⟩ := List.exists_cons_of_ne_nil hne
    exact ⟨more, by rw [List.head_eq_of_cons_eq hu]⟩
  rw [hu]
  match after with
  | [] => cases h
  | next :: after =>
    rcases bind_eq_error_iff.mp h with hl | ⟨link, hl, h⟩
    · exact Or.inr (linkAfter_eq_error hdue.balanced hb hl)
    cases linkAfter_eq_ok hl
    have hread : Balanced (before ++ (first :: more)) := hdue.balanced.append hb
    match after with
    | [] =>
      cases h
      rw [← List.append_assoc]
      exact Or.inr (.dangling _ link)
    | second :: others =>
      dsimp only at h
      split at h
      · -- the link joins what has been read with what follows
        rcases bind_eq_error_iff.mp h with hrest | ⟨r, -, h⟩
        · have hlen : others.length < rest.length := by
            have hlen := operand_length_le group hop
            simp only [List.length_cons] at hlen
            omega
          have hdue' : OperandDue (some link) (before ++ (first :: more) ++ [.link link]) :=
            .behind hread
          have hmore := chain_eq_error hdue' hrest
          simpa using hmore
        · cases h
      · rename_i hmixed
        cases h
        cases hdue with
        | first => exact absurd rfl hmixed
        | @behind link' before hbefore =>
          -- the link read before and the one read now, each behind balanced items
          have hhere : Directly (.link link)
              (before ++ [.link link'] ++ (first :: more ++ .link link :: second :: others)) :=
            ⟨_, _, (List.append_assoc _ _ _).symm, hread⟩
          have hbefore : Directly (.link link')
              (before ++ [.link link'] ++ (first :: more ++ .link link :: second :: others)) :=
            ⟨before, first :: more ++ .link link :: second :: others, by simp, hbefore⟩
          exact Or.inr (.of_ne (fun heq => hmixed (by rw [heq]; rfl)) hhere hbefore)
termination_by rest.length

end Steps

/-- **Items are refused for a defect of one of their levels.** -/
theorem exists_defect {items : List Item} {e : RuleTextError} (h : conditionOf items = .error e) :
    ∃ level, IsLevel level items ∧ Defect level e := by
  rw [conditionOf_eq_level] at h
  have hlevel := isLevel_unwrap items
  unfold level at h
  split at h
  · rename_i hempty
    cases h
    rw [hempty] at hlevel
    exact ⟨[], hlevel, .empty⟩
  · cases h
  · rename_i first rest _ heq
    rw [heq] at hlevel
    rcases bind_eq_error_iff.mp h with hchain | ⟨r, -, h⟩
    · rcases chain_eq_error .first hchain with ⟨inner, hinner, he⟩ | hdefect
      · have hgroup : Grouped inner items := hinner.of_infix hlevel.isInfix
        have hlen := hgroup.length_lt
        obtain ⟨level, hl, hd⟩ := exists_defect he
        exact ⟨level, hl.of_grouped hgroup, hd⟩
      · exact ⟨_, hlevel, hdefect⟩
    · cases h
termination_by items.length

/-- A level within balanced items is balanced. -/
theorem IsLevel.balanced {level items : List Item} (h : IsLevel level items)
    (hb : Balanced items) : Balanced level := by
  rcases h with rfl | ⟨before, after, rfl, hlevel⟩
  · exact hb
  · exact hlevel

/-- An empty level is all there is, or it stands in parentheses. -/
theorem IsLevel.eq_nil_or_isInfix {items : List Item} (h : IsLevel [] items) :
    items = [] ∨ [.opening, .closing] <:+: items := by
  rcases h with h | h
  · exact Or.inl h.symm
  · exact Or.inr h.isInfix

/-- **The structure of items is refused for what is wrong with it.** Parentheses are called
unbalanced only if they are, and if they are, nothing is made of the items. Where links are said to
be mixed, some level has both of them in it; where one is said to lack an operand, some level ends
with it; and where a condition is said to be empty there is nothing, or nothing in some
parentheses. -/
theorem refusals_truthful (items : List Item) :
    (Balanced items → conditionOf items ≠ .error .unbalancedParenthesis)
      ∧ (¬ Balanced items → ∀ c, conditionOf items ≠ .ok c)
      ∧ (conditionOf items = .error .mixedOperators →
          ∃ level, IsLevel level items ∧ Directly (.link .and) level ∧ Directly (.link .or) level)
      ∧ (∀ word, conditionOf items = .error (.danglingOperator word) →
          ∃ level link, IsLevel level items ∧ level.getLast? = some (.link link)
            ∧ word = link.word)
      ∧ (conditionOf items = .error .emptyCondition →
          items = [] ∨ [.opening, .closing] <:+: items) := by
  refine ⟨fun hb h => ?_, fun hb c h => ?_, fun h => ?_, fun word h => ?_, fun h => ?_⟩
  · obtain ⟨level, hl, hd⟩ := exists_defect h
    cases hd with
    | unbalanced hlevel => exact hlevel (hl.balanced hb)
  · exact hb (conditionOf_eq_ok_iff.mp h).balanced
  · obtain ⟨level, hl, hd⟩ := exists_defect h
    cases hd with
    | mixed hand hor => exact ⟨level, hl, hand, hor⟩
  · obtain ⟨level, hl, hd⟩ := exists_defect h
    cases hd with
    | dangling before link => exact ⟨_, link, hl, by simp, rfl⟩
  · obtain ⟨level, hl, hd⟩ := exists_defect h
    cases hd with
    | empty => exact hl.eq_nil_or_isInfix

section Outdoors

def warm : Item := .clause ⟨⟨1⟩, ⟨1⟩, false, none⟩ "air"

def calm : Item := .clause ⟨⟨2⟩, ⟨2⟩, false, none⟩ "wind"

def dry : Item := .clause ⟨⟨3⟩, ⟨3⟩, false, none⟩ "rain"

/-- `(warm and calm or dry)`, `(warm`, `warm and (calm or)` and `warm and ()`. -/
theorem refusals_truthful_outdoors :
    (Balanced [.opening, warm, .link .and, calm, .link .or, dry, .closing]
        ∧ conditionOf [.opening, warm, .link .and, calm, .link .or, dry, .closing]
          = .error .mixedOperators
        ∧ conditionOf [.opening, warm, .link .and, calm, .link .or, dry, .closing]
          ≠ .error .unbalancedParenthesis
        ∧ ∃ level, IsLevel level [.opening, warm, .link .and, calm, .link .or, dry, .closing]
          ∧ Directly (.link .and) level ∧ Directly (.link .or) level)
      ∧ (¬ Balanced [.opening, warm] ∧ ∀ c, conditionOf [.opening, warm] ≠ .ok c)
      ∧ (conditionOf [warm, .link .and, .opening, calm, .link .or, .closing]
          = .error (.danglingOperator "or")
        ∧ ∃ level link, IsLevel level [warm, .link .and, .opening, calm, .link .or, .closing]
          ∧ level.getLast? = some (.link link) ∧ "or" = link.word)
      ∧ conditionOf [warm, .link .and, .opening, .closing] = .error .emptyCondition
      ∧ ([warm, .link .and, .opening, .closing] = []
        ∨ [.opening, .closing] <:+: [warm, .link .and, .opening, .closing]) := by
  have hbalanced : Balanced [.opening, warm, .link .and, calm, .link .or, dry, .closing] := by
    rw [balanced_iff_covered]
    simp [covered_cons, warm, calm, dry]
  have hopen : ¬ Balanced [.opening, warm] := by
    intro h
    exact absurd h.2 (by decide)
  have hmixed : conditionOf [.opening, warm, .link .and, calm, .link .or, dry, .closing]
      = .error .mixedOperators := by with_unfolding_all rfl
  have hdangling : conditionOf [warm, .link .and, .opening, calm, .link .or, .closing]
      = .error (.danglingOperator "or") := by with_unfolding_all rfl
  have hempty : conditionOf [warm, .link .and, .opening, .closing] = .error .emptyCondition := by
    with_unfolding_all rfl
  obtain ⟨hnot, -, hlevel, -, -⟩ := refusals_truthful
    [.opening, warm, .link .and, calm, .link .or, dry, .closing]
  exact ⟨⟨hbalanced, hmixed, hnot hbalanced, hlevel hmixed⟩,
    ⟨hopen, (refusals_truthful _).2.1 hopen⟩,
    ⟨hdangling, (refusals_truthful _).2.2.2.1 _ hdangling⟩,
    hempty, (refusals_truthful _).2.2.2.2 hempty⟩

end Outdoors

end FuzzyInference.RuleText
