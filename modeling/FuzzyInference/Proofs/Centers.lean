import FuzzyInference.Proofs.Panels

/-!
# Centers of gravity move with their functions

A center of gravity belongs to the shape of a function, not to its height nor to
the scale on which places are measured (`center_moves`). For a factor in front of the
function this is so because an integral is linear in it. For a change of scale it
is so because samples are taken at the corresponding places.

A negative factor turns the interval round. Then the same samples are met in the
opposite order. They have the same weights in it, since weights are symmetric
(`weight_flip`), and only the sign of an integral changes, which cancels out in a
quotient of two.
-/

namespace FuzzyInference

open Finset Numeric

-- formulas of this module are about the field, so their numerals are its own
attribute [local instance] instOfNatAtLeastTwo

variable {α : Type} [Exact α]

/-! ## Integrals -/

namespace Numeric

variable {f g : α → α} {a b : α} {parts : Nat}

theorem simpson_const_mul (k : α) (f : α → α) (a b : α) (parts : Nat) :
    simpson (fun x => k * f x) a b parts = k * simpson f a b parts := by
  simp only [simpson_eq_sum, mul_left_comm _ k, ← mul_sum, mul_assoc]

theorem simpson_add (f g : α → α) (a b : α) (parts : Nat) :
    simpson (fun x => f x + g x) a b parts = simpson f a b parts + simpson g a b parts := by
  simp only [simpson_eq_sum, mul_add, sum_add_distrib, add_mul]

/-- Only what a function is on the interval matters. -/
theorem simpson_congr (hab : a ≤ b) (h : ∀ x ∈ Set.Icc a b, f x = g x) (parts : Nat) :
    simpson f a b parts = simpson g a b parts := by
  have hsample : ∀ i ∈ range (2 * parts + 1),
      weight (2 * parts) i * f (sampleAt a b (2 * parts + 1) i)
        = weight (2 * parts) i * g (sampleAt a b (2 * parts + 1) i) := fun i hi => by
    rw [h _ (sampleAt_mem hab (mem_range.mp hi))]
  rw [simpson_eq_sum, simpson_eq_sum, sum_congr rfl hsample]

theorem place_affine (s t a b : α) (parts i : Nat) :
    place (s * a + t) (s * b + t) parts i = s * place a b parts i + t := by
  unfold place
  ring

/-- **Integrals on another scale.** -/
theorem simpson_affine (f : α → α) (s t a b : α) (h : 0 < parts) :
    simpson f (s * a + t) (s * b + t) parts
      = s * simpson (fun x => f (s * x + t)) a b parts := by
  simp only [simpson_eq_sum_places _ _ _ h, place_affine]
  ring

/-- Weights are the same from either end. -/
theorem weight_flip {parts i : Nat} (h : i ≤ 2 * parts) :
    (weight (2 * parts) (2 * parts - i) : α) = weight (2 * parts) i := by
  have hends : 2 * parts - i = 0 ∨ 2 * parts - i = 2 * parts ↔ i = 0 ∨ i = 2 * parts := by omega
  have hmiddle : (2 * parts - i) % 2 = 1 ↔ i % 2 = 1 := by omega
  unfold weight
  simp only [hends, hmiddle]

theorem place_flip (a b : α) (h : 0 < parts) {i : Nat} (hi : i ≤ 2 * parts) :
    place b a parts (2 * parts - i) = place a b parts i := by
  have hparts : ((2 * parts : Nat) : α) ≠ 0 := Nat.cast_ne_zero.mpr (by omega)
  unfold place
  rw [Nat.cast_sub hi]
  field_simp
  ring

/-- **Backwards, an integral has the opposite sign.** -/
theorem simpson_flip (f : α → α) (a b : α) (h : 0 < parts) :
    simpson f b a parts = -simpson f a b parts := by
  have hsum : ∑ i ∈ range (2 * parts + 1), weight (2 * parts) i * f (place b a parts i)
      = ∑ i ∈ range (2 * parts + 1), weight (2 * parts) i * f (place a b parts i) := by
    rw [← sum_flip]
    refine sum_congr rfl fun i hi => ?_
    have hi : i ≤ 2 * parts := Nat.lt_succ_iff.mp (mem_range.mp hi)
    rw [weight_flip hi, place_flip a b h hi]
  rw [simpson_eq_sum_places f b a h, simpson_eq_sum_places f a b h, hsum]
  ring

end Numeric

/-! ## Centers -/

/-- There is an area to find the center of, so a center is not a division by zero. -/
def HasArea (f : α → α) (a b : α) : Prop := simpson f a b centroidParts ≠ 0

section Centers

variable {f g : α → α} {a b s : α}

theorem centroidParts_pos : 0 < centroidParts := by decide

theorem HasArea.const_mul (harea : HasArea f a b) {k : α} (hk : k ≠ 0) :
    HasArea (fun x => k * f x) a b := by
  unfold HasArea
  rw [simpson_const_mul]
  exact mul_ne_zero hk harea

theorem HasArea.flip (harea : HasArea f a b) : HasArea f b a := by
  unfold HasArea
  rw [simpson_flip f a b centroidParts_pos]
  exact neg_ne_zero.mpr harea

theorem centerOfGravity_const_mul {k : α} (hk : k ≠ 0) (f : α → α) (a b : α) :
    centerOfGravity (fun x => k * f x) a b = centerOfGravity f a b := by
  unfold centerOfGravity
  simp only [mul_left_comm _ k, simpson_const_mul]
  exact mul_div_mul_left _ _ hk

theorem centerOfGravity_congr (hab : a ≤ b) (h : ∀ x ∈ Set.Icc a b, f x = g x) :
    centerOfGravity f a b = centerOfGravity g a b := by
  have hmoment : ∀ x ∈ Set.Icc a b, x * f x = x * g x := fun x hx => by rw [h x hx]
  unfold centerOfGravity
  rw [simpson_congr hab h, simpson_congr hab hmoment]

theorem centerOfGravity_flip (f : α → α) (a b : α) :
    centerOfGravity f b a = centerOfGravity f a b := by
  unfold centerOfGravity
  rw [simpson_flip _ a b centroidParts_pos, simpson_flip _ a b centroidParts_pos, neg_div_neg_eq]

/-- A place that is put on another scale and back is where it was. -/
theorem affine_back (hs : s ≠ 0) (t x : α) : (s * x + t - t) / s = x := by
  rw [add_sub_cancel_right, mul_div_cancel_left₀ x hs]

theorem HasArea.affine (harea : HasArea f a b) (hs : s ≠ 0) (t : α) :
    HasArea (fun y => f ((y - t) / s)) (s * a + t) (s * b + t) := by
  unfold HasArea
  rw [simpson_affine _ s t a b centroidParts_pos]
  simp only [affine_back hs]
  exact mul_ne_zero hs harea

/-- **Centers on another scale.** -/
theorem centerOfGravity_affine (hs : s ≠ 0) (t : α) (harea : HasArea f a b) :
    centerOfGravity (fun y => f ((y - t) / s)) (s * a + t) (s * b + t)
      = s * centerOfGravity f a b + t := by
  have hmoment : simpson (fun x => (s * x + t) * f x) a b centroidParts
      = s * simpson (fun x => x * f x) a b centroidParts + t * simpson f a b centroidParts := by
    simp only [add_mul, mul_assoc, simpson_add, simpson_const_mul]
  unfold centerOfGravity
  rw [simpson_affine _ s t a b centroidParts_pos, simpson_affine _ s t a b centroidParts_pos]
  simp only [affine_back hs]
  rw [mul_div_mul_left _ _ hs, hmoment, add_div, mul_div_assoc, mul_div_cancel_right₀ t harea]

/-- On another scale an interval is the one between the images of its ends, in whichever order they
are. -/
theorem image_affine_Icc (hab : a ≤ b) (s t : α) :
    (fun x => s * x + t) '' Set.Icc a b
      = Set.Icc (min (s * a + t) (s * b + t)) (max (s * a + t) (s * b + t)) := by
  have hscaled : (fun x => s * x) '' Set.Icc a b = Set.uIcc (s * a) (s * b) := by
    rw [← Set.uIcc_of_le hab]
    exact Set.image_const_mul_uIcc s a b
  have hshifted : (fun x => x + t) '' Set.uIcc (s * a) (s * b)
      = Set.uIcc (s * a + t) (s * b + t) := Set.image_add_const_uIcc t (s * a) (s * b)
  calc (fun x => s * x + t) '' Set.Icc a b
      = (fun x => x + t) '' ((fun x => s * x) '' Set.Icc a b) :=
        (Set.image_image (fun x => x + t) (fun x => s * x) _).symm
    _ = Set.uIcc (s * a + t) (s * b + t) := by rw [hscaled, hshifted]

/-- It makes no difference which end of an interval is named first. -/
theorem HasArea.min_max (harea : HasArea f a b) :
    HasArea f (min a b) (max a b)
      ∧ centerOfGravity f (min a b) (max a b) = centerOfGravity f a b := by
  rcases le_total a b with hab | hab
  · rw [min_eq_left hab, max_eq_right hab]
    exact ⟨harea, rfl⟩
  · rw [min_eq_right hab, max_eq_left hab]
    exact ⟨harea.flip, centerOfGravity_flip f a b⟩

/-- **The center of what is symmetric is its middle.** Turned round about the middle, the function
is the same, so its center is where it was. -/
theorem centerOfGravity_symmetric (hab : a ≤ b) (harea : HasArea f a b)
    (hsymmetric : ∀ x ∈ Set.Icc a b, f (a + b - x) = f x) :
    centerOfGravity f a b = (a + b) / 2 := by
  have hturned := centerOfGravity_affine (neg_ne_zero.mpr one_ne_zero) (a + b) harea
  have hsame : ∀ y ∈ Set.Icc a b, f ((y - (a + b)) / -1) = f y := fun y hy => by
    rw [← hsymmetric y hy, div_neg, div_one, neg_sub]
  rw [neg_one_mul, neg_one_mul, neg_one_mul, neg_add_cancel_left, neg_add_eq_sub,
    add_sub_cancel_right, centerOfGravity_flip, centerOfGravity_congr hab hsame] at hturned
  rw [eq_div_iff two_ne_zero, mul_two]
  exact eq_neg_add_iff_add_eq.mp hturned

end Centers

/-- **A center of gravity moves with its function.** Where there is an area to find the center of,
there still is one, and the center is the same, if a factor stands in front of the function. On
another scale, which may also run the other way, the center is the one measured on that scale. So
the center of a function that is symmetric is the middle of its interval. -/
theorem center_moves {f : α → α} {a b : α} (hab : a ≤ b) (harea : HasArea f a b) :
    (∀ k ≠ 0, HasArea (fun x => k * f x) a b ∧
      centerOfGravity (fun x => k * f x) a b = centerOfGravity f a b) ∧
    (∀ s ≠ 0, ∀ t,
      let lower := min (s * a + t) (s * b + t)
      let upper := max (s * a + t) (s * b + t)
      (fun x => s * x + t) '' Set.Icc a b = Set.Icc lower upper ∧
      HasArea (fun y => f ((y - t) / s)) lower upper ∧
      centerOfGravity (fun y => f ((y - t) / s)) lower upper = s * centerOfGravity f a b + t) ∧
    ((∀ x ∈ Set.Icc a b, f (a + b - x) = f x) → centerOfGravity f a b = (a + b) / 2) := by
  refine ⟨fun k hk => ⟨harea.const_mul hk, centerOfGravity_const_mul hk f a b⟩, ?_, ?_⟩
  · intro s hs t
    obtain ⟨hmoved, hcenter⟩ := (harea.affine hs t).min_max
    exact ⟨image_affine_Icc hab s t, hmoved, hcenter.trans (centerOfGravity_affine hs t harea)⟩
  · exact centerOfGravity_symmetric hab harea

/-- A hill that is as steep on both sides. -/
def hill (x : ℚ) : ℚ := x * (4 - x)

open RationalNumbers in
/-- The hill, three times as high, and on a scale that is twice as fine and runs the other way. -/
theorem center_moves_hill :
    (0 : ℚ) ≤ 4 ∧ HasArea hill 0 4 ∧ centerOfGravity hill 0 4 = 2
      ∧ centerOfGravity (fun x => 3 * hill x) 0 4 = 2
      ∧ centerOfGravity (fun y => hill ((y - 1) / -2)) (-7) 1 = -3 := by
  have hdomain : (0 : ℚ) ≤ 4 := by decide
  have harea : HasArea hill 0 4 := by
    unfold HasArea
    decide +kernel
  obtain ⟨hscaled, hmoved, hmiddle⟩ := center_moves hdomain harea
  have hcenter : centerOfGravity hill 0 4 = 2 := by
    rw [hmiddle fun x _ => by unfold hill; ring]
    norm_num
  obtain ⟨-, -, hturned⟩ := hmoved (-2) (by decide) 1
  refine ⟨hdomain, harea, hcenter, (hscaled 3 (by decide)).2.trans hcenter, ?_⟩
  rw [hcenter] at hturned
  norm_num at hturned
  exact hturned

end FuzzyInference
