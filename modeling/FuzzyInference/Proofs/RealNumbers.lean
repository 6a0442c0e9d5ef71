import Mathlib.Analysis.SpecialFunctions.Pow.Real
import FuzzyInference.Proofs.ExactNumbers

/-!
# Real numbers

Real numbers are exact, and unlike rational ones they have the roots that hedges
ask for. So whatever is assumed of roots elsewhere can be met, and not only by
functions that are no roots (`monotoneRoots`).
-/

namespace FuzzyInference.RealNumbers

open Set (Icc)

noncomputable scoped instance : Exact ℝ where
  beq u v := decide (u = v)
  decidableLE := inferInstance
  decidableLT := inferInstance
  ofNat n := n
  nan := 0
  lesser := min
  greater := max
  sqrt := Real.sqrt
  cbrt v := v ^ (1 / 3 : ℝ)
  exp := Real.exp
  ofNat_cast := fun _ => rfl
  beq_iff := fun _ _ => decide_eq_true_iff
  lesser_min := fun _ _ => rfl
  greater_max := fun _ _ => rfl

/-- **True roots take degrees to degrees, and greater ones to greater ones.** -/
theorem monotoneRoots : MonotoneRoots ℝ where
  sqrt := fun v hv => ⟨Real.sqrt_nonneg v, Real.sqrt_le_one.mpr hv.2⟩
  cbrt := fun v hv => ⟨Real.rpow_nonneg hv.1 _, Real.rpow_le_one hv.1 hv.2 (by norm_num)⟩
  sqrt_mono := fun _ _ _ _ huv => Real.sqrt_le_sqrt huv
  cbrt_mono := fun _ hu _ _ huv => Real.rpow_le_rpow hu.1 huv (by norm_num)

end FuzzyInference.RealNumbers
