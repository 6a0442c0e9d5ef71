import Mathlib.Algebra.Field.Rat
import Mathlib.Algebra.Order.Field.Basic
import Mathlib.Algebra.Order.Interval.Set.Instances
import Mathlib.Algebra.Order.Ring.Rat
import Mathlib.Tactic.Ring
import FuzzyInference.Proofs.Fuzzification

/-!
# Exact numbers

Nothing is assumed of numbers in general. Here the operations are taken to be
what they are named after, those of an ordered field (`Exact`), so that formulas
mean what they say. Roots are left open, since a field need not have them.

Then degrees stay degrees: if terms are true to degrees between zero and one, so
are conditions, whatever they are made of and by whatever methods
(`truthAt_mem`). All that has to be known of roots is that they do not lead out
of this interval (`RootsOfDegrees`).
-/

namespace FuzzyInference

open Set (Icc)

/-- An ordered field with its own operations as those of fuzzy inference. -/
class Exact (α : Type) extends Field α, LinearOrder α, IsStrictOrderedRing α, Scalar α where
  ofNat_cast : ∀ n : Nat, ofNat n = (n : α)
  beq_iff : ∀ u v : α, (u == v) = true ↔ u = v
  lesser_min : ∀ u v : α, lesser u v = min u v
  greater_max : ∀ u v : α, greater u v = max u v

/-- Roots of degrees are degrees. -/
structure RootsOfDegrees (α : Type) [Exact α] : Prop where
  sqrt : ∀ v ∈ Icc (0 : α) 1, Scalar.sqrt v ∈ Icc (0 : α) 1
  cbrt : ∀ v ∈ Icc (0 : α) 1, Scalar.cbrt v ∈ Icc (0 : α) 1

/-- Roots of degrees are degrees, and greater degrees have roots that are no less. -/
structure MonotoneRoots (α : Type) [Exact α] : Prop extends RootsOfDegrees α where
  sqrt_mono : MonotoneOn (Scalar.sqrt : α → α) (Icc 0 1)
  cbrt_mono : MonotoneOn (Scalar.cbrt : α → α) (Icc 0 1)

variable {α : Type} [Exact α]

namespace Exact

theorem ofNat_eq (n : Nat) : (Scalar.ofNat n : α) = (n : α) := ofNat_cast n

/-- Numerals of formulas are those of the field. -/
theorem numeral_eq (n : Nat) : @OfNat.ofNat α n (Scalar.numeral n) = (n : α) := ofNat_eq n

/-- The zero that a sum starts with changes nothing. -/
theorem sum_eq (vs : List α) : Scalar.sum vs = vs.sum := by
  unfold Scalar.sum
  rw [numeral_eq, Nat.cast_zero, neg_zero, List.sum_eq_foldl]

/-- There is always an answer. -/
theorem isNaN_eq_false (v : α) : Scalar.isNaN v = false := by
  unfold Scalar.isNaN
  rw [(beq_iff v v).mpr rfl]
  rfl

theorem apply_min (u v : α) : CompositionMethod.min.apply u v = min u v := by
  show (if Scalar.isNaN u || Scalar.isNaN v then Scalar.nan else Scalar.lesser u v) = min u v
  rw [isNaN_eq_false, isNaN_eq_false]
  exact lesser_min u v

theorem apply_max (u v : α) : CompositionMethod.max.apply u v = max u v := by
  show (if Scalar.isNaN u || Scalar.isNaN v then Scalar.nan else Scalar.greater u v) = max u v
  rw [isNaN_eq_false, isNaN_eq_false]
  exact greater_max u v

theorem and_min (u v : α) : AndMethod.min.apply u v = min u v := apply_min u v

theorem or_max (u v : α) : OrMethod.max.apply u v = max u v := apply_max u v

/-- One is as false as both are together. -/
theorem or_probOr (u v : α) : OrMethod.probOr.apply u v = 1 - (1 - u) * (1 - v) := by
  show u + v - u * v = 1 - (1 - u) * (1 - v)
  ring

end Exact

/-! ## Degrees -/

variable {u v : α}

theorem mul_mem_degrees (hu : u ∈ Icc (0 : α) 1) (hv : v ∈ Icc (0 : α) 1) :
    u * v ∈ Icc (0 : α) 1 :=
  ⟨mul_nonneg hu.1 hv.1, mul_le_one₀ hu.2 hv.1 hv.2⟩

theorem negateIf_true (v : α) : negateIf true v = 1 - v := by
  unfold negateIf
  rw [if_pos rfl, Exact.numeral_eq, Nat.cast_one]

theorem negateIf_mem (negated : Bool) (hv : v ∈ Icc (0 : α) 1) :
    negateIf negated v ∈ Icc (0 : α) 1 := by
  cases negated with
  | false => exact hv
  | true =>
    rw [negateIf_true]
    exact Set.Icc.one_sub_mem hv

theorem Hedge.applyTo_mem (hroots : RootsOfDegrees α) (hedge : Option Hedge)
    (hv : v ∈ Icc (0 : α) 1) : Hedge.applyTo hedge v ∈ Icc (0 : α) 1 := by
  have hsquare : v * v ∈ Icc (0 : α) 1 := mul_mem_degrees hv hv
  cases hedge with
  | none => exact hv
  | some hedge =>
    cases hedge with
    | slightly => exact hroots.cbrt v hv
    | somewhat => exact hroots.sqrt v hv
    | very => exact hsquare
    | extremely => exact mul_mem_degrees hsquare hv

theorem AndMethod.apply_mem (method : AndMethod) (hu : u ∈ Icc (0 : α) 1)
    (hv : v ∈ Icc (0 : α) 1) : method.apply u v ∈ Icc (0 : α) 1 := by
  cases method with
  | min =>
    rw [Exact.and_min]
    exact ⟨le_min hu.1 hv.1, (min_le_left u v).trans hu.2⟩
  | prod => exact mul_mem_degrees hu hv

theorem OrMethod.apply_mem (method : OrMethod) (hu : u ∈ Icc (0 : α) 1)
    (hv : v ∈ Icc (0 : α) 1) : method.apply u v ∈ Icc (0 : α) 1 := by
  cases method with
  | max =>
    rw [Exact.or_max]
    exact ⟨hu.1.trans (le_max_left u v), max_le hu.2 hv.2⟩
  | probOr =>
    rw [Exact.or_probOr]
    exact Set.Icc.one_sub_mem
      (mul_mem_degrees (Set.Icc.one_sub_mem hu) (Set.Icc.one_sub_mem hv))

theorem Link.apply_mem (connectives : Connectives) (link : Link) (hu : u ∈ Icc (0 : α) 1)
    (hv : v ∈ Icc (0 : α) 1) : link.apply connectives u v ∈ Icc (0 : α) 1 := by
  cases link with
  | and => exact connectives.andMethod.apply_mem hu hv
  | or => exact connectives.orMethod.apply_mem hu hv

/-! ## Truths -/

namespace Condition

variable {connectives : Connectives} {membership : Proposition → α}

mutual

/-- **A condition is true to a degree if its propositions have degrees.** -/
theorem evaluate_mem (hroots : RootsOfDegrees α) : ∀ {c : Condition},
    (∀ p ∈ c.propositions, membership p ∈ Icc (0 : α) 1) →
    c.evaluate connectives membership ∈ Icc (0 : α) 1
  | .single p, h => by
    rw [evaluate]
    exact negateIf_mem _ (Hedge.applyTo_mem hroots _ (h p List.mem_cons_self))
  | .combination link negated first rest, h => by
    have hfirst := evaluate_mem hroots fun p hp => h p (List.mem_append_left _ hp)
    rw [evaluate]
    exact negateIf_mem _
      (evaluateRest_mem hroots hfirst fun p hp => h p (List.mem_append_right _ hp))

theorem evaluateRest_mem (hroots : RootsOfDegrees α) {link : Link} : ∀ {cs : List Condition}
    {before : α}, before ∈ Icc (0 : α) 1 →
    (∀ p ∈ propositionsOf cs, membership p ∈ Icc (0 : α) 1) →
    evaluateRest connectives membership link before cs ∈ Icc (0 : α) 1
  | [], _, hbefore, _ => hbefore
  | c :: cs, before, hbefore, h => by
    have hc := evaluate_mem hroots fun p hp => h p (List.mem_append_left _ hp)
    rw [evaluateRest]
    exact evaluateRest_mem hroots (link.apply_mem connectives hbefore hc)
      fun p hp => h p (List.mem_append_right _ hp)

end

end Condition

namespace InputSide

/-- Every term of an input has degrees. -/
def HasDegrees (s : InputSide α) : Prop :=
  ∀ term e, s.table.termAt? term = some e → e.owner ∈ s.inputs →
    ∀ x, e.membership x ∈ Icc (0 : α) 1

/-- **An admitted condition is true to a degree.** -/
theorem truthAt_mem {s : InputSide α} (hroots : RootsOfDegrees α) (hdegrees : s.HasDegrees)
    {c : Condition} (hadmits : s.Admits c) (readings : Readings α) :
    s.truthAt readings c ∈ Icc (0 : α) 1 := by
  refine Condition.evaluate_mem hroots fun p hp => ?_
  obtain ⟨hinput, e, he, howner⟩ := hadmits p hp
  unfold VariableTable.membershipOf
  rw [he]
  exact hdegrees p.term e he (howner ▸ hinput) _

end InputSide

/-! ## Rational numbers -/

namespace RationalNumbers

/-- Rational numbers are exact. Few of them have rational roots, so roots answer their argument. -/
scoped instance : Exact ℚ where
  beq u v := decide (u = v)
  decidableLE := inferInstance
  decidableLT := inferInstance
  ofNat n := n
  nan := 0
  lesser := min
  greater := max
  sqrt := id
  cbrt := id
  exp := id
  ofNat_cast := fun _ => rfl
  beq_iff := fun _ _ => decide_eq_true_iff
  lesser_min := fun _ _ => rfl
  greater_max := fun _ _ => rfl

theorem rootsOfDegrees : RootsOfDegrees ℚ where
  sqrt := fun _ hv => hv
  cbrt := fun _ hv => hv

/-- Memberships of terms that are less true the greater their number is. -/
def fading (p : Proposition) : ℚ := 1 / (p.term.number + 1)

end RationalNumbers

end FuzzyInference
