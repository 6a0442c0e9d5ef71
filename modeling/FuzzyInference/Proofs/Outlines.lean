import FuzzyInference.Proofs.Interpolation
import FuzzyInference.Membership.Shape

/-!
# Shapes as lines

Triangles and trapezoids have formulas of their own. With exact numbers these
agree with the line through their points, everywhere and also where points
coincide (`shapes_are_lines`).

The formulas ask a number in turn whether it is on a vertical side, outside, at
the top or on a slope. Said by place instead, a shape is at the top over its peak
or plateau and follows one slope on either side of it (`value_left`,
`value_right`), and so does its line.

Vertical sides are also the reason why neither divides by zero: only a number
strictly between two points gets to a division by their distance.
-/

namespace FuzzyInference

open Checked Numeric

variable {α : Type}

namespace Polyline

/-- The points of a line make that line. -/
theorem ofPoints_points [Scalar α] (p : Polyline α) : ofPoints p.points = .ok p := by
  unfold ofPoints
  rw [dif_neg p.nonempty]
  exact dif_pos p.ascending

theorem value_eq_of_interpolate? [Scalar α] {p : Polyline α} {x v : α}
    (h : interpolate? x p.points = some v) : p.value x = v := by
  unfold value interpolate
  rw [h, Option.getD_some]

end Polyline

variable [Exact α]

/-- Checked numbers ascend if the numbers do. -/
theorem ascending_number : ∀ {vs : List α}, Ascending vs → Ascending (vs.map number)
  | [], _ => trivial
  | [_], _ => trivial
  | _ :: _ :: _, h => ⟨h.1, ascending_number h.2⟩

/-! ## Lines -/

namespace Polyline

/-- The line through the same points as checked numbers. -/
def checked (p : Polyline α) : Polyline (Checked α) where
  points := p.points.map checkedPoint
  nonempty := fun h => p.nonempty (List.map_eq_nil_iff.mp h)
  ascending := by
    have habscissas : (p.points.map checkedPoint).map Prod.fst =
        (p.points.map Prod.fst).map number := by
      rw [List.map_map, List.map_map]
      rfl
    rw [habscissas]
    exact ascending_number p.ascending

/-- **A line has a height everywhere, and does not divide by zero for it.** -/
theorem checked_value (p : Polyline α) (x : α) :
    p.checked.value (number x) = number (p.value x) := by
  obtain ⟨v, hv⟩ := exists_interpolate? p.nonempty x
  have hchecked : interpolate? (number x) p.checked.points = some (number v) :=
    (interpolate?_number x p.points).trans (congrArg (Option.map number) hv)
  rw [value_eq_of_interpolate? hv, value_eq_of_interpolate? hchecked]

end Polyline

/-! ## Triangles -/

namespace Triangle

/-- The line through the points of a triangle. -/
def outline (t : Triangle α) : Polyline α where
  points := [(t.x₁, 0), (t.x₂, 1), (t.x₃, 0)]
  nonempty := List.cons_ne_nil _ _
  ascending := t.ascending

/-- The triangle over the same points as checked numbers. -/
def checked (t : Triangle α) : Triangle (Checked α) :=
  ⟨number t.x₁, number t.x₂, number t.x₃, ascending_number t.ascending⟩

variable (t : Triangle α) {x : α}

theorem left_le_peak : t.x₁ ≤ t.x₂ := t.ascending.1

theorem peak_le_right : t.x₂ ≤ t.x₃ := t.ascending.2.1

theorem value_eq (x : α) : t.value x =
    if x = t.x₂ ∧ (x = t.x₁ ∨ x = t.x₃) then 1
    else if x ≤ t.x₁ ∨ t.x₃ ≤ x then 0
    else if x = t.x₂ then 1
    else if x < t.x₂ then (x - t.x₁) / (t.x₂ - t.x₁)
    else (t.x₃ - x) / (t.x₃ - t.x₂) := by
  unfold value
  simp only [Bool.and_eq_true, Bool.or_eq_true, Exact.beq_iff, Exact.numeral_eq, Nat.cast_one,
    Nat.cast_zero]

theorem value_peak : t.value t.x₂ = 1 := by
  rw [value_eq]
  by_cases hside : t.x₂ = t.x₁ ∨ t.x₂ = t.x₃
  · rw [if_pos ⟨rfl, hside⟩]
  · -- on no vertical side, the peak is strictly between the ends
    have hinside : ¬ (t.x₂ ≤ t.x₁ ∨ t.x₃ ≤ t.x₂) := by
      rintro (hle | hle)
      · exact hside (.inl (hle.antisymm t.left_le_peak))
      · exact hside (.inr (t.peak_le_right.antisymm hle))
    rw [if_neg fun h => hside h.2, if_neg hinside, if_pos rfl]

theorem value_left (h : x < t.x₂) :
    t.value x = if x ≤ t.x₁ then 0 else (x - t.x₁) / (t.x₂ - t.x₁) := by
  have hright : ¬ t.x₃ ≤ x := (h.trans_le t.peak_le_right).not_ge
  rw [value_eq, if_neg fun hspike => h.ne hspike.1, if_neg h.ne, if_pos h]
  simp only [or_iff_left hright]

theorem value_right (h : t.x₂ < x) :
    t.value x = if t.x₃ ≤ x then 0 else (t.x₃ - x) / (t.x₃ - t.x₂) := by
  have hleft : ¬ x ≤ t.x₁ := (t.left_le_peak.trans_lt h).not_ge
  rw [value_eq, if_neg fun hspike => h.ne' hspike.1, if_neg h.ne', if_neg h.not_gt]
  simp only [or_iff_right hleft]

/-- **A triangle is the line through its points.** -/
theorem outline_value (x : α) : t.outline.value x = t.value x := by
  refine Polyline.value_eq_of_interpolate? ?_
  obtain hleft | rfl | hright := lt_trichotomy x t.x₂
  · rw [t.value_left hleft]
    exact interpolate?_rising hleft
  · rw [t.value_peak]
    exact interpolate?_top t.left_le_peak
  · rw [t.value_right hright, ← fromFirst?_falling hright]
    exact interpolate?_skip t.left_le_peak hright

/-- **The formula of a triangle does not divide by zero.** -/
theorem checked_value (x : α) : t.checked.value (number x) = number (t.value x) := by
  have hformula : t.checked.value (number x) =
      if x = t.x₂ ∧ (x = t.x₁ ∨ x = t.x₃) then number 1
      else if x ≤ t.x₁ ∨ t.x₃ ≤ x then number 0
      else if x = t.x₂ then number 1
      else if x < t.x₂ then number (x - t.x₁) / number (t.x₂ - t.x₁)
      else number (t.x₃ - x) / number (t.x₃ - t.x₂) := by
    unfold value checked
    simp only [Bool.and_eq_true, Bool.or_eq_true, number_beq_number, number_le_number,
      number_lt_number, number_sub_number, Checked.numeral_eq, Nat.cast_one, Nat.cast_zero]
  rw [hformula, value_eq]
  -- whoever gets to a slope is strictly between its ends, so these are different
  split_ifs with hspike houtside hpeak hleft
  · rfl
  · rfl
  · rfl
  · have hwide : t.x₁ < t.x₂ := (not_le.mp fun h => houtside (.inl h)).trans hleft
    exact number_div_sub hwide.ne
  · have hafter : t.x₂ < x := (not_lt.mp hleft).lt_of_ne' hpeak
    have hwide : t.x₂ < t.x₃ := hafter.trans (not_le.mp fun h => houtside (.inr h))
    exact number_div_sub hwide.ne

end Triangle

/-! ## Trapezoids -/

namespace Trapezoid

/-- The line through the points of a trapezoid. -/
def outline (t : Trapezoid α) : Polyline α where
  points := [(t.x₁, 0), (t.x₂, 1), (t.x₃, 1), (t.x₄, 0)]
  nonempty := List.cons_ne_nil _ _
  ascending := t.ascending

/-- The trapezoid over the same points as checked numbers. -/
def checked (t : Trapezoid α) : Trapezoid (Checked α) :=
  ⟨number t.x₁, number t.x₂, number t.x₃, number t.x₄, ascending_number t.ascending⟩

variable (t : Trapezoid α) {x : α}

theorem left_le_plateau : t.x₁ ≤ t.x₂ := t.ascending.1

theorem plateau_le_plateau : t.x₂ ≤ t.x₃ := t.ascending.2.1

theorem plateau_le_right : t.x₃ ≤ t.x₄ := t.ascending.2.2.1

theorem value_eq (x : α) : t.value x =
    if (x = t.x₁ ∧ x = t.x₂) ∨ (x = t.x₃ ∧ x = t.x₄) then 1
    else if x ≤ t.x₁ ∨ t.x₄ ≤ x then 0
    else if t.x₂ ≤ x ∧ x ≤ t.x₃ then 1
    else if x < t.x₂ then (x - t.x₁) / (t.x₂ - t.x₁)
    else (t.x₄ - x) / (t.x₄ - t.x₃) := by
  unfold value
  simp only [Bool.and_eq_true, Bool.or_eq_true, Exact.beq_iff, Exact.numeral_eq, Nat.cast_one,
    Nat.cast_zero]

theorem value_plateau (h₂ : t.x₂ ≤ x) (h₃ : x ≤ t.x₃) : t.value x = 1 := by
  rw [value_eq]
  by_cases hside : (x = t.x₁ ∧ x = t.x₂) ∨ (x = t.x₃ ∧ x = t.x₄)
  · rw [if_pos hside]
  · have hinside : ¬ (x ≤ t.x₁ ∨ t.x₄ ≤ x) := by
      rintro (hle | hle)
      · have hx₁ : x = t.x₁ := hle.antisymm (t.left_le_plateau.trans h₂)
        have hx₂ : x = t.x₂ := (hle.trans t.left_le_plateau).antisymm h₂
        exact hside (.inl ⟨hx₁, hx₂⟩)
      · have hx₃ : x = t.x₃ := h₃.antisymm (t.plateau_le_right.trans hle)
        have hx₄ : x = t.x₄ := (h₃.trans t.plateau_le_right).antisymm hle
        exact hside (.inr ⟨hx₃, hx₄⟩)
    rw [if_neg hside, if_neg hinside, if_pos ⟨h₂, h₃⟩]

theorem value_left (h : x < t.x₂) :
    t.value x = if x ≤ t.x₁ then 0 else (x - t.x₁) / (t.x₂ - t.x₁) := by
  have hbefore : x < t.x₃ := h.trans_le t.plateau_le_plateau
  have hright : ¬ t.x₄ ≤ x := (hbefore.trans_le t.plateau_le_right).not_ge
  have hspike : ¬ ((x = t.x₁ ∧ x = t.x₂) ∨ (x = t.x₃ ∧ x = t.x₄)) := by
    rintro (⟨-, hx₂⟩ | ⟨hx₃, -⟩)
    · exact h.ne hx₂
    · exact hbefore.ne hx₃
  have hplateau : ¬ (t.x₂ ≤ x ∧ x ≤ t.x₃) := fun hmem => h.not_ge hmem.1
  rw [value_eq, if_neg hspike, if_neg hplateau, if_pos h]
  simp only [or_iff_left hright]

theorem value_right (h : t.x₃ < x) :
    t.value x = if t.x₄ ≤ x then 0 else (t.x₄ - x) / (t.x₄ - t.x₃) := by
  have hafter : t.x₂ < x := t.plateau_le_plateau.trans_lt h
  have hleft : ¬ x ≤ t.x₁ := (t.left_le_plateau.trans_lt hafter).not_ge
  have hspike : ¬ ((x = t.x₁ ∧ x = t.x₂) ∨ (x = t.x₃ ∧ x = t.x₄)) := by
    rintro (⟨-, hx₂⟩ | ⟨hx₃, -⟩)
    · exact hafter.ne' hx₂
    · exact h.ne' hx₃
  have hplateau : ¬ (t.x₂ ≤ x ∧ x ≤ t.x₃) := fun hmem => h.not_ge hmem.2
  rw [value_eq, if_neg hspike, if_neg hplateau, if_neg hafter.not_gt]
  simp only [or_iff_right hleft]

/-- **A trapezoid is the line through its points.** -/
theorem outline_value (x : α) : t.outline.value x = t.value x := by
  refine Polyline.value_eq_of_interpolate? ?_
  obtain hleft | rfl | hafter := lt_trichotomy x t.x₂
  · rw [t.value_left hleft]
    exact interpolate?_rising hleft
  · rw [t.value_plateau le_rfl t.plateau_le_plateau]
    exact interpolate?_top t.left_le_plateau
  · refine (interpolate?_skip t.left_le_plateau hafter).trans ?_
    by_cases hplateau : x ≤ t.x₃
    · rw [t.value_plateau hafter.le hplateau, fromFirst?_within hafter.le hplateau,
        onSegment_level]
    · rw [t.value_right (not_le.mp hplateau), fromFirst?_beyond hplateau,
        fromFirst?_falling (not_le.mp hplateau)]

/-- **The formula of a trapezoid does not divide by zero.** -/
theorem checked_value (x : α) : t.checked.value (number x) = number (t.value x) := by
  have hformula : t.checked.value (number x) =
      if (x = t.x₁ ∧ x = t.x₂) ∨ (x = t.x₃ ∧ x = t.x₄) then number 1
      else if x ≤ t.x₁ ∨ t.x₄ ≤ x then number 0
      else if t.x₂ ≤ x ∧ x ≤ t.x₃ then number 1
      else if x < t.x₂ then number (x - t.x₁) / number (t.x₂ - t.x₁)
      else number (t.x₄ - x) / number (t.x₄ - t.x₃) := by
    unfold value checked
    simp only [Bool.and_eq_true, Bool.or_eq_true, number_beq_number, number_le_number,
      number_lt_number, number_sub_number, Checked.numeral_eq, Nat.cast_one, Nat.cast_zero]
  rw [hformula, value_eq]
  split_ifs with hspike houtside hplateau hleft
  · rfl
  · rfl
  · rfl
  · have hwide : t.x₁ < t.x₂ := (not_le.mp fun h => houtside (.inl h)).trans hleft
    exact number_div_sub hwide.ne
  · have hafter : t.x₃ < x := not_le.mp fun h => hplateau ⟨not_lt.mp hleft, h⟩
    have hwide : t.x₃ < t.x₄ := hafter.trans (not_le.mp fun h => houtside (.inr h))
    exact number_div_sub hwide.ne

end Trapezoid

/-! ## Both -/

/-- **A shape is its list of points.** At every number a triangle has the height of the line through
its points, and a trapezoid that of the line through its own, whichever of the points coincide.
These are lists that lines can be made of, and neither the formulas nor the lines divide by zero. -/
theorem shapes_are_lines :
    (∀ (t : Triangle α) (x : α),
      Polyline.ofPoints [(t.x₁, 0), (t.x₂, 1), (t.x₃, 0)] = .ok t.outline ∧
      t.value x = t.outline.value x ∧
      t.checked.value (number x) = number (t.value x) ∧
      t.outline.checked.value (number x) = number (t.outline.value x)) ∧
    ∀ (t : Trapezoid α) (x : α),
      Polyline.ofPoints [(t.x₁, 0), (t.x₂, 1), (t.x₃, 1), (t.x₄, 0)] = .ok t.outline ∧
      t.value x = t.outline.value x ∧
      t.checked.value (number x) = number (t.value x) ∧
      t.outline.checked.value (number x) = number (t.outline.value x) := by
  constructor
  · intro t x
    exact ⟨t.outline.ofPoints_points, (t.outline_value x).symm, t.checked_value x,
      t.outline.checked_value x⟩
  · intro t x
    exact ⟨t.outline.ofPoints_points, (t.outline_value x).symm, t.checked_value x,
      t.outline.checked_value x⟩

end FuzzyInference
