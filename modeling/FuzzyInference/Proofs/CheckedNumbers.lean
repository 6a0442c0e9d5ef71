import FuzzyInference.Proofs.ExactNumbers

/-!
# Numbers whose divisions are checked

A field has a quotient by zero like any other quotient, so an equation between
numbers does not tell whether something was divided by zero on the way to them.
Checked numbers do tell: there a quotient by zero is undefined, and so is
everything that is calculated from what is undefined. A calculation with checked
numbers that arrives at a number has not divided by zero.
-/

namespace FuzzyInference

/-- A number, or what comes of a division by zero. -/
inductive Checked (α : Type) where
  | number (v : α)
  | undefined

namespace Checked

variable {α : Type}

/-- What comes of an operation on numbers that are defined. -/
def lift (f : α → α) : Checked α → Checked α
  | number v => number (f v)
  | undefined => undefined

/-- What comes of an operation on two numbers that may fail itself. -/
def lift₂ (f : α → α → Checked α) : Checked α → Checked α → Checked α
  | number u, number v => f u v
  | _, _ => undefined

/-- Numbers compare as they did; what is undefined does not compare. -/
def Related (r : α → α → Prop) : Checked α → Checked α → Prop
  | number u, number v => r u v
  | _, _ => False

/-- Whether two checked numbers compare can be decided if it can for numbers. -/
instance decidableRelated (r : α → α → Prop) [DecidableRel r] : DecidableRel (Related r)
  | number u, number v => inferInstanceAs (Decidable (r u v))
  | number _, undefined => isFalse id
  | undefined, _ => isFalse id

variable [Exact α]

/-- Calculations with checked numbers. A missing answer is undefined as well. -/
instance : Scalar (Checked α) where
  add := lift₂ fun u v => number (u + v)
  sub := lift₂ fun u v => number (u - v)
  mul := lift₂ fun u v => number (u * v)
  div := lift₂ fun u v => if v = 0 then undefined else number (u / v)
  neg := lift fun v => -v
  le := Related (· ≤ ·)
  lt := Related (· < ·)
  beq u v := decide (Related (· = ·) u v)
  decidableLE := decidableRelated (· ≤ ·)
  decidableLT := decidableRelated (· < ·)
  ofNat n := number (Scalar.ofNat n)
  nan := undefined
  lesser := lift₂ fun u v => number (Scalar.lesser u v)
  greater := lift₂ fun u v => number (Scalar.greater u v)
  sqrt := lift Scalar.sqrt
  cbrt := lift Scalar.cbrt
  exp := lift Scalar.exp

variable {u v : α}

@[simp] theorem number_le_number : number u ≤ number v ↔ u ≤ v := Iff.rfl

@[simp] theorem number_lt_number : number u < number v ↔ u < v := Iff.rfl

@[simp] theorem number_beq_number : (number u == number v) = true ↔ u = v := decide_eq_true_iff

@[simp] theorem number_add_number : number u + number v = number (u + v) := rfl

@[simp] theorem number_sub_number : number u - number v = number (u - v) := rfl

@[simp] theorem number_mul_number : number u * number v = number (u * v) := rfl

theorem numeral_eq (n : Nat) : @OfNat.ofNat (Checked α) n (Scalar.numeral n) = number (n : α) :=
  congrArg number (Exact.ofNat_eq n)

/-- **A quotient is a number only if its divisor is one other than zero.** -/
theorem div_eq_number_iff {p q : Checked α} {w : α} :
    p / q = number w ↔ ∃ u v, p = number u ∧ q = number v ∧ v ≠ 0 ∧ u / v = w := by
  constructor
  · intro h
    match p, q, h with
    | number u, number v, h =>
      by_cases hv : v = 0
      · rw [show number u / number v = undefined from if_pos hv] at h
        cases h
      · rw [show number u / number v = number (u / v) from if_neg hv] at h
        exact ⟨u, v, rfl, rfl, hv, number.inj h⟩
  · rintro ⟨u, v, rfl, rfl, hv, rfl⟩
    exact if_neg hv

/-- Distances between different numbers divide. -/
theorem number_div_sub {w : α} (h : u ≠ v) :
    number w / number (v - u) = number (w / (v - u)) :=
  div_eq_number_iff.mpr ⟨w, v - u, rfl, rfl, sub_ne_zero.mpr h.symm, rfl⟩

end Checked

end FuzzyInference
