import FuzzyInference.Proofs.CheckedNumbers
import FuzzyInference.Numeric.Interpolation

/-!
# Reading a line off its points

Where a number lies among the abscissas decides which segment gives the height of
the line: one lemma per place, so that the search through the points is not
opened again. Then what the segments are that shapes consist of: they rise from
zero to one, stay at one, and fall back to zero.

No segment divides by zero, since a vertical one does not divide at all
(`interpolate?_number`).
-/

namespace FuzzyInference.Numeric

variable {α : Type}

/-! ## Finding the segment -/

section Search

variable [Scalar α] {x x₁ y₁ x₂ y₂ : α} {rest : List (α × α)}

/-- Left of the points. -/
theorem interpolate?_before (h : x < x₁) : interpolate? x ((x₁, y₁) :: rest) = some y₁ := if_pos h

theorem interpolate?_onwards (h : ¬ x < x₁) :
    interpolate? x ((x₁, y₁) :: rest) = fromFirst? x ((x₁, y₁) :: rest) := if_neg h

/-- On the first segment. -/
theorem fromFirst?_within (h₁ : x₁ ≤ x) (h₂ : x ≤ x₂) :
    fromFirst? x ((x₁, y₁) :: (x₂, y₂) :: rest) = some (onSegment x x₁ y₁ x₂ y₂) :=
  if_pos ⟨h₁, h₂⟩

/-- Right of the first segment. -/
theorem fromFirst?_beyond (h : ¬ x ≤ x₂) :
    fromFirst? x ((x₁, y₁) :: (x₂, y₂) :: rest) = fromFirst? x ((x₂, y₂) :: rest) :=
  if_neg fun hwithin => h hwithin.2

/-- Right of the points. -/
theorem fromFirst?_after (h : x₁ ≤ x) : fromFirst? x [(x₁, y₁)] = some y₁ := if_pos h

end Search

variable [Exact α] {x a b c : α} {y y₁ y₂ : α} {rest : List (α × α)}

/-- From the first point on there is always a height. -/
theorem exists_fromFirst? (h : a ≤ x) : ∃ v, fromFirst? x ((a, y) :: rest) = some v := by
  induction rest generalizing a y with
  | nil => exact ⟨y, fromFirst?_after h⟩
  | cons point rest ih =>
    obtain ⟨b, y₂⟩ := point
    by_cases hb : x ≤ b
    · exact ⟨_, fromFirst?_within h hb⟩
    · obtain ⟨v, hv⟩ := ih (not_le.mp hb).le
      exact ⟨v, (fromFirst?_beyond hb).trans hv⟩

/-- **A line has a height everywhere.** -/
theorem exists_interpolate? {points : List (α × α)} (h : points ≠ []) (x : α) :
    ∃ v, interpolate? x points = some v := by
  cases points with
  | nil => exact absurd rfl h
  | cons point rest =>
    obtain ⟨a, y⟩ := point
    by_cases ha : x < a
    · exact ⟨y, interpolate?_before ha⟩
    · obtain ⟨v, hv⟩ := exists_fromFirst? (not_lt.mp ha)
      exact ⟨v, (interpolate?_onwards ha).trans hv⟩

/-! ## Heights of a segment -/

theorem onSegment_vertical : onSegment x a y₁ a y₂ = y₂ := if_pos ((Exact.beq_iff a a).mpr rfl)

theorem onSegment_slanted (h : a ≠ b) :
    onSegment x a y₁ b y₂ = y₁ + (x - a) * (y₂ - y₁) / (b - a) :=
  if_neg fun hbeq => h ((Exact.beq_iff b a).mp hbeq).symm

/-- A segment ends at its second point, also where it is vertical. -/
theorem onSegment_end : onSegment b a y₁ b y₂ = y₂ := by
  by_cases h : a = b
  · rw [h, onSegment_vertical]
  · have hdivisor : b - a ≠ 0 := sub_ne_zero.mpr (Ne.symm h)
    rw [onSegment_slanted h, mul_div_cancel_left₀ _ hdivisor, add_sub_cancel]

/-- A segment begins at its first point, unless it is vertical. -/
theorem onSegment_start (h : a ≠ b) : onSegment a a y₁ b y₂ = y₁ := by
  rw [onSegment_slanted h, sub_self, zero_mul, zero_div, add_zero]

theorem onSegment_level : onSegment x a y b y = y := by
  by_cases h : a = b
  · rw [h, onSegment_vertical]
  · rw [onSegment_slanted h, sub_self, mul_zero, zero_div, add_zero]

theorem onSegment_rising (h : a ≠ b) : onSegment x a 0 b 1 = (x - a) / (b - a) := by
  rw [onSegment_slanted h, sub_zero, mul_one, zero_add]

theorem onSegment_falling (h : b ≠ c) : onSegment x b 1 c 0 = (c - x) / (c - b) := by
  have hdivisor : c - b ≠ 0 := sub_ne_zero.mpr (Ne.symm h)
  rw [onSegment_slanted h, eq_div_iff hdivisor, add_mul, div_mul_cancel₀ _ hdivisor]
  ring

/-! ## Sides of a shape -/

/-- Beyond its first segment a line is the line through the other points. -/
theorem interpolate?_skip (hab : a ≤ b) (hb : b < x) :
    interpolate? x ((a, y₁) :: (b, y₂) :: rest) = fromFirst? x ((b, y₂) :: rest) := by
  rw [interpolate?_onwards (hab.trans hb.le).not_gt, fromFirst?_beyond hb.not_ge]

/-- The line left of a point that it rises to from zero. -/
theorem interpolate?_rising (hb : x < b) :
    interpolate? x ((a, 0) :: (b, 1) :: rest) =
      some (if x ≤ a then 0 else (x - a) / (b - a)) := by
  obtain hlt | rfl | hgt := lt_trichotomy x a
  · rw [interpolate?_before hlt, if_pos hlt.le]
  · rw [interpolate?_onwards (lt_irrefl x), fromFirst?_within le_rfl hb.le,
      onSegment_start hb.ne, if_pos le_rfl]
  · rw [interpolate?_onwards hgt.not_gt, fromFirst?_within hgt.le hb.le,
      onSegment_rising (hgt.trans hb).ne, if_neg hgt.not_ge]

/-- The line at a point that it rises to. -/
theorem interpolate?_top (hab : a ≤ b) :
    interpolate? b ((a, y₁) :: (b, y₂) :: rest) = some y₂ := by
  rw [interpolate?_onwards hab.not_gt, fromFirst?_within hab le_rfl, onSegment_end]

/-- The line right of a point that it falls from to zero. -/
theorem fromFirst?_falling (hb : b < x) :
    fromFirst? x [(b, 1), (c, 0)] = some (if c ≤ x then 0 else (c - x) / (c - b)) := by
  obtain hlt | rfl | hgt := lt_trichotomy x c
  · rw [fromFirst?_within hb.le hlt.le, onSegment_falling (hb.trans hlt).ne, if_neg hlt.not_ge]
  · rw [fromFirst?_within hb.le le_rfl, onSegment_end, if_pos le_rfl]
  · rw [fromFirst?_beyond hgt.not_ge, fromFirst?_after hgt.le, if_pos hgt.le]

/-! ## No division by zero -/

section Checked

open Checked

/-- A point with its coordinates as checked numbers. -/
def checkedPoint (p : α × α) : Checked α × Checked α := (number p.1, number p.2)

theorem onSegment_number (x x₁ y₁ x₂ y₂ : α) :
    onSegment (number x) (number x₁) (number y₁) (number x₂) (number y₂) =
      number (onSegment x x₁ y₁ x₂ y₂) := by
  by_cases h : x₁ = x₂
  · rw [h, onSegment_vertical]
    exact if_pos (number_beq_number.mpr rfl)
  · calc onSegment (number x) (number x₁) (number y₁) (number x₂) (number y₂)
        = number y₁ + (number x - number x₁) * (number y₂ - number y₁)
            / (number x₂ - number x₁) :=
          if_neg fun hbeq => h (number_beq_number.mp hbeq).symm
      _ = number (y₁ + (x - x₁) * (y₂ - y₁) / (x₂ - x₁)) := by
          rw [number_sub_number, number_sub_number, number_sub_number, number_mul_number,
            number_div_sub h, number_add_number]
      _ = number (onSegment x x₁ y₁ x₂ y₂) := by rw [onSegment_slanted h]

theorem fromFirst?_number (x : α) : ∀ points : List (α × α),
    fromFirst? (number x) (points.map checkedPoint) = (fromFirst? x points).map number
  | [] => rfl
  | [(x₁, y₁)] => by
    show (if x₁ ≤ x then some (number y₁) else none) =
      (if x₁ ≤ x then some y₁ else none).map number
    split <;> rfl
  | (x₁, y₁) :: (x₂, y₂) :: rest => by
    have hrest := fromFirst?_number x ((x₂, y₂) :: rest)
    show (if x₁ ≤ x ∧ x ≤ x₂ then
        some (onSegment (number x) (number x₁) (number y₁) (number x₂) (number y₂))
      else fromFirst? (number x) (((x₂, y₂) :: rest).map checkedPoint)) =
      (if x₁ ≤ x ∧ x ≤ x₂ then some (onSegment x x₁ y₁ x₂ y₂)
      else fromFirst? x ((x₂, y₂) :: rest)).map number
    rw [onSegment_number, hrest]
    split <;> rfl

/-- **No line divides by zero.** -/
theorem interpolate?_number (x : α) : ∀ points : List (α × α),
    interpolate? (number x) (points.map checkedPoint) = (interpolate? x points).map number
  | [] => rfl
  | (x₁, y₁) :: rest => by
    by_cases h : x < x₁
    · rw [interpolate?_before h]
      exact interpolate?_before h
    · rw [interpolate?_onwards h, ← fromFirst?_number]
      exact interpolate?_onwards h

end Checked

end FuzzyInference.Numeric
