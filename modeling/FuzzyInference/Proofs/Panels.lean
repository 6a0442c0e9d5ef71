import Mathlib.Analysis.Calculus.Deriv.Polynomial
import Mathlib.MeasureTheory.Integral.IntervalIntegral.FundThmCalculus
import Mathlib.Topology.Algebra.Polynomial
import FuzzyInference.Proofs.Simpson

/-!
# Simpson's rule part by part

An integral is computed in one pass over all samples, which counts them once, four
times or twice by their number. That is the same as going through the parts and
taking from each its two ends and four times its middle: an end that two parts
share is counted for both (`sum_weight_mul`).

One part has the exact integral of a polynomial up to degree three, which is how
much an antiderivative grows over that part. Over all parts the growth adds up, so
the rule is exact on the whole interval (`simpson_exact`).
-/

namespace FuzzyInference.Numeric

open Finset Polynomial

-- formulas of this module are about the field, so their numerals are its own
attribute [local instance] instOfNatAtLeastTwo

variable {α : Type} [Exact α]

/-! ## From samples to parts -/

theorem weight_first (n : Nat) : (weight n 0 : α) = 1 := by
  unfold weight
  rw [if_pos (.inl rfl), Exact.numeral_eq, Nat.cast_one]

theorem weight_last (n : Nat) : (weight n n : α) = 1 := by
  unfold weight
  rw [if_pos (.inr rfl), Exact.numeral_eq, Nat.cast_one]

/-- The middle of a part. -/
theorem weight_middle (parts k : Nat) : (weight (2 * parts) (2 * k + 1) : α) = 4 := by
  unfold weight
  rw [if_neg (by omega), if_pos (by omega), Exact.numeral_eq 4, Nat.cast_ofNat]

/-- An end that two parts share. -/
theorem weight_shared {parts k : Nat} (h₀ : 0 < k) (h : k < parts) :
    (weight (2 * parts) (2 * k) : α) = 2 := by
  unfold weight
  rw [if_neg (by omega), if_neg (by omega), Exact.numeral_eq 2, Nat.cast_ofNat]

/-- Another part changes no weight but that of the end to which it is attached. -/
theorem weight_succ {parts i : Nat} (h : i < 2 * parts) :
    (weight (2 * (parts + 1)) i : α) = weight (2 * parts) i := by
  have hends : i = 0 ∨ i = 2 * (parts + 1) ↔ i = 0 ∨ i = 2 * parts := by omega
  unfold weight
  simp only [hends]

/-- **Weights count the ends of every part once and its middle four times.** -/
theorem sum_weight_mul (g : Nat → α) {parts : Nat} (h : 0 < parts) :
    ∑ i ∈ range (2 * parts + 1), weight (2 * parts) i * g i
      = ∑ k ∈ range parts, (g (2 * k) + 4 * g (2 * k + 1) + g (2 * k + 2)) := by
  induction parts, h using Nat.le_induction with
  | base =>
    rw [sum_range_one, sum_range_succ, sum_range_succ, sum_range_one, weight_first, weight_last,
      weight_middle 1 0, one_mul, one_mul]
  | succ parts h ih =>
    -- the last part adds its middle and its end, and its beginning counts once more
    have hbefore : ∑ i ∈ range (2 * parts), weight (2 * (parts + 1)) i * g i
        = ∑ i ∈ range (2 * parts), weight (2 * parts) i * g i :=
      sum_congr rfl fun i hi => by rw [weight_succ (mem_range.mp hi)]
    rw [sum_range_succ, weight_last, one_mul] at ih
    calc ∑ i ∈ range (2 * (parts + 1) + 1), weight (2 * (parts + 1)) i * g i
        = ∑ i ∈ range (2 * parts + 1 + 1), weight (2 * (parts + 1)) i * g i
            + g (2 * parts + 2) := by
          rw [sum_range_succ, weight_last, one_mul]
          rfl
      _ = ∑ i ∈ range (2 * parts), weight (2 * parts) i * g i
            + 2 * g (2 * parts) + 4 * g (2 * parts + 1) + g (2 * parts + 2) := by
          rw [sum_range_succ, sum_range_succ, hbefore, weight_middle,
            weight_shared h (Nat.lt_succ_self parts)]
      _ = ∑ k ∈ range (parts + 1), (g (2 * k) + 4 * g (2 * k + 1) + g (2 * k + 2)) := by
          rw [sum_range_succ, ← ih]
          ring

/-- Place `i` of an interval in parts. Even places are ends of parts, and odd ones are middles. -/
def place (a b : α) (parts i : Nat) : α := a + i * ((b - a) / (2 * parts : Nat))

theorem place_zero (a b : α) (parts : Nat) : place a b parts 0 = a := by
  unfold place
  rw [Nat.cast_zero, zero_mul, add_zero]

theorem place_last (a b : α) {parts : Nat} (h : 0 < parts) : place a b parts (2 * parts) = b := by
  have hparts : ((2 * parts : Nat) : α) ≠ 0 := Nat.cast_ne_zero.mpr (by omega)
  unfold place
  rw [mul_div_cancel₀ _ hparts, add_sub_cancel]

/-- These are the places where samples are taken. -/
theorem sampleAt_eq_place (a b : α) {parts : Nat} (h : 0 < parts) (i : Nat) :
    sampleAt a b (2 * parts + 1) i = place a b parts i := by
  unfold sampleAt step place
  rw [if_pos (by omega), Nat.add_sub_cancel, Exact.ofNat_eq, mul_comm]

/-- An integral in terms of places. -/
theorem simpson_eq_sum_places (f : α → α) (a b : α) {parts : Nat} (h : 0 < parts) :
    simpson f a b parts
      = (∑ i ∈ range (2 * parts + 1), weight (2 * parts) i * f (place a b parts i))
        * ((b - a) / (2 * parts : Nat)) / 3 := by
  have hplaces : ∀ i, f (sampleAt a b (2 * parts + 1) i) = f (place a b parts i) :=
    fun i => congrArg f (sampleAt_eq_place a b h i)
  simp only [simpson_eq_sum, hplaces]
  rw [Exact.numeral_eq 3, Nat.cast_ofNat, mul_div_assoc]

/-- **An integral is a sum over the parts.** -/
theorem simpson_eq_sum_parts (f : α → α) (a b : α) {parts : Nat} (h : 0 < parts) :
    simpson f a b parts
      = ∑ k ∈ range parts, (f (place a b parts (2 * k)) + 4 * f (place a b parts (2 * k + 1))
          + f (place a b parts (2 * k + 2))) * ((b - a) / (2 * parts : Nat)) / 3 := by
  rw [simpson_eq_sum_places f a b h, sum_weight_mul (fun i => f (place a b parts i)) h,
    sum_mul, sum_div]

/-! ## Exact up to degree three -/

/-- A polynomial whose derivative is the given one. -/
noncomputable def antiderivative (p : α[X]) : α[X] :=
  ∑ i ∈ range (p.natDegree + 1), monomial (i + 1) (p.coeff i / (i + 1))

theorem derivative_antiderivative (p : α[X]) : derivative (antiderivative p) = p := by
  have hterm : ∀ i,
      derivative (monomial (i + 1) (p.coeff i / (i + 1))) = monomial i (p.coeff i) := by
    intro i
    rw [derivative_monomial, Nat.add_sub_cancel, Nat.cast_add_one,
      div_mul_cancel₀ _ (Nat.cast_add_one_ne_zero i)]
  unfold antiderivative
  rw [derivative_sum, sum_congr rfl fun i _ => hterm i, ← as_sum_range]

/-- **One part is exact.** The coefficients of a polynomial are those of its antiderivative, so this
is an equation of its places. -/
theorem part_exact {F : α[X]} (hdegree : (derivative F).natDegree ≤ 3) (x h : α) :
    ((derivative F).eval x + 4 * (derivative F).eval (x + h) + (derivative F).eval (x + 2 * h))
        * h / 3 = F.eval (x + 2 * h) - F.eval x := by
  have hF : F.natDegree < 5 := by
    rw [natDegree_derivative] at hdegree
    omega
  simp only [eval_eq_sum_range' (Nat.lt_succ_of_le hdegree), eval_eq_sum_range' hF,
    sum_range_succ, sum_range_zero, coeff_derivative]
  push_cast
  ring

/-- **The rule is exact for polynomials up to degree three.** -/
theorem simpson_exact {F : α[X]} (hdegree : (derivative F).natDegree ≤ 3) (a b : α) {parts : Nat}
    (h : 0 < parts) :
    simpson (fun x => (derivative F).eval x) a b parts = F.eval b - F.eval a := by
  have hstep : ∀ i j,
      place a b parts (i + j) = place a b parts i + j * ((b - a) / (2 * parts : Nat)) := by
    intro i j
    unfold place
    rw [Nat.cast_add, add_mul, add_assoc]
  calc simpson (fun x => (derivative F).eval x) a b parts
      = ∑ k ∈ range parts, (F.eval (place a b parts (2 * (k + 1)))
          - F.eval (place a b parts (2 * k))) := by
        rw [simpson_eq_sum_parts _ a b h]
        refine sum_congr rfl fun k _ => ?_
        have hnext : place a b parts (2 * (k + 1)) = place a b parts (2 * k + 2) := rfl
        rw [hnext, hstep _ 1, hstep _ 2, Nat.cast_one, one_mul, Nat.cast_ofNat, part_exact hdegree]
    _ = F.eval (place a b parts (2 * parts)) - F.eval (place a b parts (2 * 0)) :=
        sum_range_sub (fun k => F.eval (place a b parts (2 * k))) parts
    _ = F.eval b - F.eval a := by rw [place_last a b h, Nat.mul_zero, place_zero]

/-- What a polynomial gains is the integral of its derivative. -/
theorem integral_derivative (F : ℝ[X]) (a b : ℝ) :
    ∫ x in a..b, (derivative F).eval x = F.eval b - F.eval a :=
  intervalIntegral.integral_eq_sub_of_hasDerivAt (fun x _ => F.hasDerivAt x)
    ((derivative F).continuous.intervalIntegrable a b)

/-- **Simpson's rule says what it is and is exact for cubics.** Whichever way the interval runs, an
integral takes from every part its two ends and four times its middle, and the last part ends where
the interval does. Of a polynomial up to degree three it is what an antiderivative gains over the
interval, and so the integral in real numbers. -/
theorem simpson_sums_parts (a b : α) {parts : Nat} (h : 0 < parts) :
    (∀ f, simpson f a b parts
      = ∑ k ∈ range parts, (f (place a b parts (2 * k)) + 4 * f (place a b parts (2 * k + 1))
          + f (place a b parts (2 * k + 2))) * ((b - a) / (2 * parts : Nat)) / 3) ∧
    place a b parts (2 * parts) = b ∧
    ∀ p : α[X], p.natDegree ≤ 3 →
      (∀ F, derivative F = p → simpson (fun x => p.eval x) a b parts = F.eval b - F.eval a) ∧
      ∀ φ : α →+* ℝ, φ (simpson (fun x => p.eval x) a b parts)
        = ∫ x in φ a..φ b, (p.map φ).eval x := by
  refine ⟨fun f => simpson_eq_sum_parts f a b h, place_last a b h, fun p hp => ⟨?_, fun φ => ?_⟩⟩
  · rintro F rfl
    exact simpson_exact hp a b h
  · obtain ⟨F, rfl⟩ : ∃ F, derivative F = p := ⟨_, derivative_antiderivative p⟩
    rw [simpson_exact hp a b h, ← derivative_map, integral_derivative, eval_map_apply,
      eval_map_apply, map_sub]

open RationalNumbers in
/-- The cube, integrated from right to left over three parts. -/
theorem simpson_sums_parts_cube :
    0 < 3 ∧ (X ^ 3 : ℚ[X]).natDegree ≤ 3
      ∧ simpson (fun x => (X ^ 3 : ℚ[X]).eval x) 2 (-1) 3 = -15 / 4
      ∧ ∫ x in (2 : ℝ)..(-1), x ^ 3 = -15 / 4 := by
  obtain ⟨-, -, hexact⟩ := simpson_sums_parts (2 : ℚ) (-1) three_pos
  have hdegree : (X ^ 3 : ℚ[X]).natDegree ≤ 3 := natDegree_X_pow_le 3
  obtain ⟨hgain, hreal⟩ := hexact (X ^ 3) hdegree
  have hderivative : derivative (monomial 4 (1 / 4 : ℚ)) = X ^ 3 := by
    rw [derivative_monomial, X_pow_eq_monomial]
    norm_num
  have hvalue : simpson (fun x => (X ^ 3 : ℚ[X]).eval x) 2 (-1) 3 = -15 / 4 := by
    rw [hgain _ hderivative, eval_monomial, eval_monomial]
    norm_num
  refine ⟨three_pos, hdegree, hvalue, ?_⟩
  have hintegral := hreal (Rat.castHom ℝ)
  rw [hvalue, map_div₀, map_neg, map_neg, map_one, map_ofNat, map_ofNat, map_ofNat,
    Polynomial.map_pow, map_X] at hintegral
  simp only [eval_pow, eval_X] at hintegral
  exact hintegral.symm

end FuzzyInference.Numeric
