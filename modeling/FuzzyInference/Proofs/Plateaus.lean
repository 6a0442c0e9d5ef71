import FuzzyInference.Proofs.Outlines

/-!
# Plateaus and ramps

A trapezoid has the degree one over its plateau and nowhere else. On either side a
ramp leads down to zero, so on the way there degrees are strictly between the two,
and they neither fall before the plateau ends nor rise after it has begun
(`shapes_have_plateaus`). A triangle is a trapezoid with a plateau of one point.

Both sides are one function, `ramp`: the right one is the left one with the line of
numbers turned round. A ramp is only asked for on its own side of the plateau,
which is why its laws are about numbers before its top. Points that coincide then
need no cases of their own, since between them there is no number to ask about.
-/

namespace FuzzyInference

open Checked
open Set (Icc Iic Ici)

variable {α : Type} [Exact α]

/-- The height over `x` of a side that climbs from zero at `a` to one at `b`. -/
def ramp (a b x : α) : α := if x ≤ a then 0 else (x - a) / (b - a)

/-! ## One side -/

section Ramp

variable {a b x y : α}

theorem ramp_eq_zero (h : x ≤ a) : ramp a b x = 0 := if_pos h

theorem ramp_eq_div (h : a < x) : ramp a b x = (x - a) / (b - a) := if_neg h.not_ge

/-- Between its ends a ramp has left zero, and is not yet at the top. -/
theorem ramp_mem (ha : a < x) (hb : x < b) : ramp a b x ∈ Set.Ioo 0 1 := by
  have hwide : 0 < b - a := sub_pos.mpr (ha.trans hb)
  rw [ramp_eq_div ha]
  exact ⟨div_pos (sub_pos.mpr ha) hwide, (div_lt_one hwide).mpr (sub_lt_sub_right hb a)⟩

theorem ramp_nonneg (hb : x < b) : 0 ≤ ramp a b x := by
  rcases le_or_gt x a with ha | ha
  · exact (ramp_eq_zero ha).ge
  · exact (ramp_mem ha hb).1.le

theorem ramp_lt_one (hb : x < b) : ramp a b x < 1 := by
  rcases le_or_gt x a with ha | ha
  · rw [ramp_eq_zero ha]
    exact zero_lt_one
  · exact (ramp_mem ha hb).2

theorem ramp_eq_zero_iff (hb : x < b) : ramp a b x = 0 ↔ x ≤ a := by
  refine ⟨fun h => not_lt.mp fun ha => ?_, ramp_eq_zero⟩
  exact (ramp_mem ha hb).1.ne' h

theorem ramp_mono (hxy : x ≤ y) (hb : y < b) : ramp a b x ≤ ramp a b y := by
  rcases le_or_gt x a with ha | ha
  · rw [ramp_eq_zero ha]
    exact ramp_nonneg hb
  · have hwide : a < b := (ha.trans_le hxy).trans hb
    rw [ramp_eq_div ha, ramp_eq_div (ha.trans_le hxy)]
    exact div_le_div_of_nonneg_right (sub_le_sub_right hxy a) (sub_pos.mpr hwide).le

end Ramp

/-! ## Both sides -/

/-- Degrees that are one over a plateau from `x₂` to `x₃`, and that do not leave zero before `x₁`
nor after `x₄`. -/
structure HasPlateau (f : α → α) (x₁ x₂ x₃ x₄ : α) : Prop where
  /-- There are no values but degrees. -/
  mem : ∀ x, f x ∈ Icc 0 1
  /-- The plateau is where the degree is one. -/
  eq_one_iff : ∀ x, f x = 1 ↔ x₂ ≤ x ∧ x ≤ x₃
  /-- Off the plateau the degree is zero from the outer points on. -/
  eq_zero_iff : ∀ x, f x = 0 ↔ ¬ (x₂ ≤ x ∧ x ≤ x₃) ∧ (x ≤ x₁ ∨ x₄ ≤ x)
  /-- Degrees do not fall before the plateau ends. -/
  climbs : MonotoneOn f (Iic x₃)
  /-- Degrees do not rise once the plateau has begun. -/
  falls : AntitoneOn f (Ici x₂)

namespace Trapezoid

variable (t : Trapezoid α) {x : α}

/-- The points of a trapezoid make that trapezoid. -/
theorem ofPoints_points : ofPoints t.x₁ t.x₂ t.x₃ t.x₄ = .ok t := dif_pos t.ascending

/-- A number is left of the plateau, on it or right of it. -/
theorem left_or_plateau_or_right (x : α) : x < t.x₂ ∨ (t.x₂ ≤ x ∧ x ≤ t.x₃) ∨ t.x₃ < x := by
  rcases lt_or_ge x t.x₂ with hleft | hleft
  · exact .inl hleft
  · exact .inr ((le_or_gt x t.x₃).imp_left fun hright => ⟨hleft, hright⟩)

theorem value_eq_ramp_left (h : x < t.x₂) : t.value x = ramp t.x₁ t.x₂ x := t.value_left h

theorem value_eq_ramp_right (h : t.x₃ < x) : t.value x = ramp (-t.x₄) (-t.x₃) (-x) := by
  rw [t.value_right h, ramp]
  simp only [neg_le_neg_iff, neg_sub_neg]

theorem value_mem (x : α) : t.value x ∈ Icc 0 1 := by
  rcases t.left_or_plateau_or_right x with h | ⟨h₂, h₃⟩ | h
  · rw [t.value_eq_ramp_left h]
    exact ⟨ramp_nonneg h, (ramp_lt_one h).le⟩
  · rw [t.value_plateau h₂ h₃]
    exact ⟨zero_le_one, le_rfl⟩
  · rw [t.value_eq_ramp_right h]
    exact ⟨ramp_nonneg (neg_lt_neg h), (ramp_lt_one (neg_lt_neg h)).le⟩

theorem value_eq_one_iff (x : α) : t.value x = 1 ↔ t.x₂ ≤ x ∧ x ≤ t.x₃ := by
  refine ⟨fun hone => ?_, fun h => t.value_plateau h.1 h.2⟩
  rcases t.left_or_plateau_or_right x with h | h | h
  · rw [t.value_eq_ramp_left h] at hone
    exact absurd hone (ramp_lt_one h).ne
  · exact h
  · rw [t.value_eq_ramp_right h] at hone
    exact absurd hone (ramp_lt_one (neg_lt_neg h)).ne

theorem value_eq_zero_iff (x : α) :
    t.value x = 0 ↔ ¬ (t.x₂ ≤ x ∧ x ≤ t.x₃) ∧ (x ≤ t.x₁ ∨ t.x₄ ≤ x) := by
  rcases t.left_or_plateau_or_right x with h | h | h
  · -- left of the plateau, the right end is out of reach
    have hoff : ¬ (t.x₂ ≤ x ∧ x ≤ t.x₃) := fun hplateau => h.not_ge hplateau.1
    have hend : ¬ t.x₄ ≤ x :=
      (h.trans_le (t.plateau_le_plateau.trans t.plateau_le_right)).not_ge
    rw [t.value_eq_ramp_left h, ramp_eq_zero_iff h, and_iff_right hoff, or_iff_left hend]
  · rw [t.value_plateau h.1 h.2]
    exact ⟨fun hzero => absurd hzero one_ne_zero, fun hoff => absurd h hoff.1⟩
  · have hoff : ¬ (t.x₂ ≤ x ∧ x ≤ t.x₃) := fun hplateau => h.not_ge hplateau.2
    have hend : ¬ x ≤ t.x₁ :=
      ((t.left_le_plateau.trans t.plateau_le_plateau).trans_lt h).not_ge
    rw [t.value_eq_ramp_right h, ramp_eq_zero_iff (neg_lt_neg h), neg_le_neg_iff,
      and_iff_right hoff, or_iff_right hend]

theorem value_monotoneOn : MonotoneOn t.value (Iic t.x₃) := by
  intro x _ y hy hxy
  rcases lt_or_ge y t.x₂ with h | h
  · rw [t.value_eq_ramp_left (hxy.trans_lt h), t.value_eq_ramp_left h]
    exact ramp_mono hxy h
  · -- whatever comes before the plateau or on it is at most as high
    rw [t.value_plateau h hy]
    exact (t.value_mem x).2

theorem value_antitoneOn : AntitoneOn t.value (Ici t.x₂) := by
  intro x hx y _ hxy
  rcases lt_or_ge t.x₃ x with h | h
  · rw [t.value_eq_ramp_right h, t.value_eq_ramp_right (h.trans_le hxy)]
    exact ramp_mono (neg_le_neg hxy) (neg_lt_neg h)
  · rw [t.value_plateau hx h]
    exact (t.value_mem y).2

theorem hasPlateau : HasPlateau t.value t.x₁ t.x₂ t.x₃ t.x₄ where
  mem := t.value_mem
  eq_one_iff := t.value_eq_one_iff
  eq_zero_iff := t.value_eq_zero_iff
  climbs := t.value_monotoneOn
  falls := t.value_antitoneOn

end Trapezoid

namespace Triangle

variable (t : Triangle α)

/-- The points of a triangle make that triangle. -/
theorem ofPoints_points : ofPoints t.x₁ t.x₂ t.x₃ = .ok t := dif_pos t.ascending

/-- The trapezoid whose plateau is the peak of a triangle. -/
def trapezoid : Trapezoid α :=
  ⟨t.x₁, t.x₂, t.x₂, t.x₃, t.left_le_peak, le_rfl, t.peak_le_right, trivial⟩

/-- **A triangle is a trapezoid whose plateau is one point.** -/
theorem trapezoid_value (x : α) : t.trapezoid.value x = t.value x := by
  rcases lt_trichotomy x t.x₂ with h | rfl | h
  · rw [t.value_left h]
    exact t.trapezoid.value_left h
  · rw [t.value_peak]
    exact t.trapezoid.value_plateau le_rfl le_rfl
  · rw [t.value_right h]
    exact t.trapezoid.value_right h

end Triangle

/-- **Shapes have plateaus.** Whatever points a trapezoid is made of, some of which may coincide,
its values are degrees, one exactly over the plateau and zero exactly from the outer points on where
there is no plateau. They do not fall before the plateau ends nor rise once it has begun, and no
division by zero leads to them. A triangle is the trapezoid whose plateau is its peak. -/
theorem shapes_have_plateaus :
    (∀ t : Trapezoid α,
      Trapezoid.ofPoints t.x₁ t.x₂ t.x₃ t.x₄ = .ok t ∧
      HasPlateau t.value t.x₁ t.x₂ t.x₃ t.x₄ ∧
      ∀ x, t.checked.value (number x) = number (t.value x)) ∧
    ∀ t : Triangle α,
      Triangle.ofPoints t.x₁ t.x₂ t.x₃ = .ok t ∧
      Trapezoid.ofPoints t.x₁ t.x₂ t.x₂ t.x₃ = .ok t.trapezoid ∧
      ∀ x, t.value x = t.trapezoid.value x ∧ t.checked.value (number x) = number (t.value x) := by
  constructor
  · intro t
    exact ⟨t.ofPoints_points, t.hasPlateau, t.checked_value⟩
  · intro t
    exact ⟨t.ofPoints_points, t.trapezoid.ofPoints_points,
      fun x => ⟨(t.trapezoid_value x).symm, t.checked_value x⟩⟩

end FuzzyInference
