import Mathlib.Analysis.Convex.Combination
import FuzzyInference.Proofs.ExactNumbers
import FuzzyInference.Defuzzification

/-!
# Integrals as weighted sums

By Simpson's rule an integral is a sum of samples with positive weights, which
are the same for every function (`simpson_eq_sum`). So the quotient of two
integrals that makes the center of gravity is a mean of the places where samples
are taken, and all of these are in the interval. Where a function is nowhere
negative its center of gravity is in the interval as well
(`centerOfGravity_mem`), unless there is nothing to divide by.
-/

namespace FuzzyInference.Numeric

open Finset

variable {α : Type} [Exact α]

/-- Where sample `i` of `n` samples is taken. -/
def sampleAt (a b : α) (n i : Nat) : α := a + step a b n * (i : α)

theorem samples_eq_map (a b : α) (n : Nat) :
    samples a b n = (List.range n).map (sampleAt a b n) := by
  refine List.map_congr_left fun i _ => ?_
  unfold sampleAt
  rw [← Exact.ofNat_eq]

/-- **An integral is a weighted sum of samples.** -/
theorem simpson_eq_sum (f : α → α) (a b : α) (parts : Nat) :
    simpson f a b parts
      = (∑ i ∈ range (2 * parts + 1),
          weight (2 * parts) i * f (sampleAt a b (2 * parts + 1) i))
        * ((b - a) / ((2 * parts : Nat) : α) / 3) := by
  have hweighted : ((samples a b (2 * parts + 1)).zipIdx.map fun e =>
        weight (2 * parts) e.2 * f e.1)
      = (List.range (2 * parts + 1)).map fun i =>
          weight (2 * parts) i * f (sampleAt a b (2 * parts + 1) i) := by
    rw [samples_eq_map]
    refine List.ext_getElem (by simp) fun i _ _ => ?_
    simp
  unfold simpson
  show List.foldl _ _ (List.map (fun e : α × Nat => weight (2 * parts) e.2 * f e.1) _) * _ / _ = _
  rw [hweighted, Exact.numeral_eq 0, Exact.numeral_eq 3, Exact.ofNat_eq, Nat.cast_zero,
    ← List.sum_eq_foldl, mul_div_assoc]
  rfl

theorem weight_pos (n i : Nat) : 0 < (weight n i : α) := by
  unfold weight
  split
  · rw [Exact.numeral_eq]
    exact Nat.cast_pos.mpr Nat.one_pos
  · split
    · rw [Exact.numeral_eq]
      exact Nat.cast_pos.mpr (by decide)
    · rw [Exact.numeral_eq]
      exact Nat.cast_pos.mpr (by decide)

/-- **All samples are taken within the interval.** -/
theorem sampleAt_mem {a b : α} (hab : a ≤ b) {n i : Nat} (hi : i < n) :
    sampleAt a b n i ∈ Set.Icc a b := by
  have hlength : 0 ≤ b - a := sub_nonneg.mpr hab
  unfold sampleAt step
  split
  · rename_i hn
    have hlast : 0 < ((n - 1 : Nat) : α) := Nat.cast_pos.mpr (by omega)
    have hle : (i : α) ≤ ((n - 1 : Nat) : α) := Nat.cast_le.mpr (by omega)
    have hstep : 0 ≤ (b - a) / ((n - 1 : Nat) : α) := div_nonneg hlength hlast.le
    have hfar : (b - a) / ((n - 1 : Nat) : α) * (i : α) ≤ b - a :=
      calc (b - a) / ((n - 1 : Nat) : α) * (i : α)
          ≤ (b - a) / ((n - 1 : Nat) : α) * ((n - 1 : Nat) : α) :=
            mul_le_mul_of_nonneg_left hle hstep
        _ = b - a := div_mul_cancel₀ _ hlast.ne'
    rw [Exact.ofNat_eq]
    exact ⟨le_add_of_nonneg_right (mul_nonneg hstep (Nat.cast_nonneg i)),
      le_sub_iff_add_le'.mp hfar⟩
  · rw [Exact.numeral_eq, Nat.cast_zero, zero_mul, add_zero]
    exact ⟨le_rfl, hab⟩

/-- **A center of gravity is a mean of the places of samples.** -/
theorem simpson_div_simpson (f : α → α) (a b : α) {parts : Nat} (h : simpson f a b parts ≠ 0) :
    simpson (fun x => x * f x) a b parts / simpson f a b parts
      = (range (2 * parts + 1)).centerMass
          (fun i => weight (2 * parts) i * f (sampleAt a b (2 * parts + 1) i))
          (sampleAt a b (2 * parts + 1)) := by
  rw [simpson_eq_sum] at h
  have hmoment : ∑ i ∈ range (2 * parts + 1), weight (2 * parts) i
        * (sampleAt a b (2 * parts + 1) i * f (sampleAt a b (2 * parts + 1) i))
      = ∑ i ∈ range (2 * parts + 1), (weight (2 * parts) i
        * f (sampleAt a b (2 * parts + 1) i)) • sampleAt a b (2 * parts + 1) i := by
    refine sum_congr rfl fun i _ => ?_
    rw [smul_eq_mul]
    ring
  rw [simpson_eq_sum, simpson_eq_sum, hmoment, mul_div_mul_right _ _ (right_ne_zero_of_mul h),
    div_eq_inv_mul]
  rfl

/-- **Where a function is not negative, its center of gravity is in the interval.** -/
theorem simpson_div_simpson_mem {f : α → α} {a b : α} (hab : a ≤ b)
    (hf : ∀ x ∈ Set.Icc a b, 0 ≤ f x) {parts : Nat} (h : simpson f a b parts ≠ 0) :
    simpson (fun x => x * f x) a b parts / simpson f a b parts ∈ Set.Icc a b := by
  rw [simpson_div_simpson f a b h]
  have hsample : ∀ i ∈ range (2 * parts + 1), sampleAt a b (2 * parts + 1) i ∈ Set.Icc a b :=
    fun i hi => sampleAt_mem hab (mem_range.mp hi)
  have hmass : ∀ i ∈ range (2 * parts + 1),
      0 ≤ weight (2 * parts) i * f (sampleAt a b (2 * parts + 1) i) :=
    fun i hi => mul_nonneg (weight_pos _ i).le (hf _ (hsample i hi))
  have htotal : 0 < ∑ i ∈ range (2 * parts + 1),
      weight (2 * parts) i * f (sampleAt a b (2 * parts + 1) i) := by
    rw [simpson_eq_sum] at h
    exact (sum_nonneg hmass).lt_of_ne' (left_ne_zero_of_mul h)
  exact (convex_Icc a b).centerMass_mem hmass htotal hsample

end FuzzyInference.Numeric
