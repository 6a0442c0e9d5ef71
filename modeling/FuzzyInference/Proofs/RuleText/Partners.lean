import Mathlib.Data.List.Induction
import Mathlib.Order.Bounds.Basic
import FuzzyInference.Proofs.RuleText.Parentheses

/-!
# Where the counts meet

Along a text that begins with an opening parenthesis the opening ones are ahead
at first. One item moves the counts by one at most, so the closing ones cannot
get ahead without drawing level before (`closing_le_opening`). The first place at
which they do is that of the partner, and what lies between the two is balanced;
if there is no such place, there is no partner (`partner_first_meeting`).
-/

namespace FuzzyInference.RuleText

/-- Up to a place, and with it, there are as many closing parentheses as opening ones. -/
def MeetsAt (items : List Item) (i : Nat) : Prop :=
  i < items.length ∧ (items.take (i + 1)).count .closing = (items.take (i + 1)).count .opening

/-- Behind an opening parenthesis the counts meet where there is a closing one too many. -/
theorem meetsAt_opening_iff {rest : List Item} {i : Nat} :
    MeetsAt (.opening :: rest) i
      ↔ ∃ p, p <+: rest ∧ p.length = i ∧ p.count .closing = p.count .opening + 1 := by
  have hcounts : ∀ p : List Item,
      (Item.opening :: p).count .closing = (Item.opening :: p).count .opening
        ↔ p.count .closing = p.count .opening + 1 := by
    intro p
    rw [List.count_cons_self, List.count_cons_of_ne (by decide)]
  unfold MeetsAt
  rw [List.length_cons, Nat.lt_succ_iff, List.take_succ_cons, hcounts]
  refine ⟨fun h => ?_, fun h => ?_⟩
  · exact ⟨rest.take i, List.take_prefix i rest, List.length_take_of_le h.1, h.2⟩
  · obtain ⟨p, hp, rfl, hmeet⟩ := h
    rw [List.prefix_iff_eq_take.mp hp] at hmeet
    exact ⟨hp.length_le, hmeet⟩

/-- **Closing parentheses do not get ahead without drawing level before.** -/
theorem closing_le_opening {p : List Item}
    (h : ∀ q, q <+: p → q.count .closing ≠ q.count .opening + 1) :
    p.count .closing ≤ p.count .opening := by
  induction p using List.reverseRecOn with
  | nil => exact Nat.le_refl 0
  | append_singleton p item ih =>
    have hbefore := ih fun q hq => h q (hq.trans (List.prefix_append p [item]))
    have hmeet := h (p ++ [item]) (List.prefix_refl _)
    have hitem : [item].count .closing ≤ 1 := List.count_le_length
    rw [List.count_append, List.count_append] at hmeet ⊢
    omega

/-- **There is no partner exactly if the counts meet nowhere.** -/
theorem closeIndex?_eq_none_iff_not_meetsAt {rest : List Item} :
    closeIndex? (.opening :: rest) = none ↔ ∀ i, ¬ MeetsAt (.opening :: rest) i := by
  rw [closeIndex?_eq_none_iff]
  refine ⟨fun h i hi => ?_, fun h p hp => ?_⟩
  · obtain ⟨p, hp, -, hmeet⟩ := meetsAt_opening_iff.mp hi
    have := h p hp
    omega
  · rw [Nat.zero_add, Nat.zero_add]
    exact closing_le_opening fun q hq hmeet =>
      h q.length (meetsAt_opening_iff.mpr ⟨q, hq.trans hp, rfl, hmeet⟩)

/-- **The partner is at the first place where the counts meet.** -/
theorem isLeast_of_closeIndex? {rest : List Item} {i : Nat}
    (h : closeIndex? (.opening :: rest) = some i) :
    IsLeast {j | MeetsAt (.opening :: rest) j} i := by
  obtain ⟨u, v, rfl, rfl, hu⟩ := closeIndex?_eq_some_iff.mp h
  constructor
  · refine meetsAt_opening_iff.mpr ⟨u ++ [.closing], ⟨v, by simp⟩, by simp, ?_⟩
    rw [List.count_append, List.count_append, hu.2]
    rfl
  · intro j hj
    obtain ⟨p, hp, rfl, hmeet⟩ := meetsAt_opening_iff.mp hj
    by_contra hlt
    -- a beginning that ends before the partner is one of what is balanced
    have hinner : p <+: u :=
      List.prefix_of_prefix_length_le hp (List.prefix_append u _) (by omega)
    have := hu.1 p hinner
    omega

/-- The partner is not the parenthesis itself, and what lies between them is balanced. -/
theorem balanced_of_closeIndex? {rest : List Item} {i : Nat}
    (h : closeIndex? (.opening :: rest) = some i) :
    1 ≤ i ∧ (Item.opening :: rest)[i]? = some .closing
      ∧ Balanced (((Item.opening :: rest).take i).drop 1) := by
  obtain ⟨u, v, rfl, rfl, hu⟩ := closeIndex?_eq_some_iff.mp h
  refine ⟨Nat.le_add_left 1 _, by simp, ?_⟩
  rw [List.take_succ_cons, List.drop_succ_cons, List.drop_zero, List.take_left]
  exact hu

/-- **The search for the partner of the first parenthesis finds the least place up to which there
are as many closing as opening ones**, and what is between the two is balanced. It finds nothing
exactly if there is no such place. -/
theorem partner_first_meeting {items : List Item} (h : items.head? = some .opening) :
    (∀ i, closeIndex? items = some i ↔ IsLeast {j | MeetsAt items j} i)
      ∧ (∀ i, closeIndex? items = some i →
          1 ≤ i ∧ items[i]? = some .closing ∧ Balanced ((items.take i).drop 1))
      ∧ (closeIndex? items = none ↔ ∀ i, ¬ MeetsAt items i) := by
  obtain ⟨rest, rfl⟩ : ∃ rest, items = .opening :: rest := List.head?_eq_some_iff.mp h
  refine ⟨fun i => ⟨isLeast_of_closeIndex?, fun hleast => ?_⟩, fun i => balanced_of_closeIndex?,
    closeIndex?_eq_none_iff_not_meetsAt⟩
  cases hfound : closeIndex? (.opening :: rest) with
  | none => exact absurd hleast.1 (closeIndex?_eq_none_iff_not_meetsAt.mp hfound i)
  | some j => rw [(isLeast_of_closeIndex? hfound).unique hleast]

/-- A pair that surrounds another, and a pair behind it. -/
def nested : List Item :=
  [.opening, .link .and, .opening, .closing, .closing, .opening, .closing]

/-- A parenthesis that is not closed, and a pair behind it. -/
def unclosed : List Item := [.opening, .opening, .closing, .link .or]

theorem partner_first_meeting_nested :
    IsLeast {i | MeetsAt nested i} 4 ∧ Balanced [.link .and, .opening, .closing]
      ∧ ∀ i, ¬ MeetsAt unclosed i := by
  have hnested : nested.head? = some .opening := rfl
  have hunclosed : unclosed.head? = some .opening := rfl
  obtain ⟨hfound, hinner, -⟩ := partner_first_meeting hnested
  obtain ⟨-, -, hnone⟩ := partner_first_meeting hunclosed
  exact ⟨(hfound 4).mp rfl, (hinner 4 rfl).2.2, hnone.mp rfl⟩

end FuzzyInference.RuleText
