/-!
# Outcomes

A sequence of steps that may fail succeeds if every step does, and it fails where one of them does.
-/

namespace FuzzyInference

variable {ε α β γ : Type}

/-- Two steps succeed if the first does, and the second does with what the first gave. -/
theorem bind_eq_ok_iff {x : Except ε α} {f : α → Except ε β} {b : β} :
    x >>= f = .ok b ↔ ∃ a, x = .ok a ∧ f a = .ok b := by
  cases x with
  | error e => simp [bind, Except.bind]
  | ok a => simp [bind, Except.bind]

@[simp] theorem map_eq_ok_iff {x : Except ε α} {f : α → β} {b : β} :
    x.map f = .ok b ↔ ∃ a, x = .ok a ∧ f a = b := by
  cases x <;> simp [Except.map]

@[simp] theorem ok_bind (a : α) (f : α → Except ε β) : (Except.ok a >>= f) = f a := rfl

@[simp] theorem error_bind (e : ε) (f : α → Except ε β) : (Except.error e >>= f) = .error e := rfl

/-! ## A step for each member of a list -/

/-- Steps that all succeed give what each gives. -/
theorem mapM_eq_ok {l : List γ} {f : γ → Except ε β} {g : γ → β} (h : ∀ a ∈ l, f a = .ok (g a)) :
    l.mapM f = .ok (l.map g) := by
  induction l with
  | nil => rfl
  | cons a l ih =>
    obtain ⟨ha, hl⟩ := List.forall_mem_cons.mp h
    rw [List.mapM_cons, ha, ok_bind, ih hl]
    rfl

/-- Steps that would all fail alike fail at the first. -/
theorem mapM_eq_error {l : List γ} {f : γ → Except ε β} {e : ε} (hl : l ≠ [])
    (h : ∀ a ∈ l, f a = .error e) : l.mapM f = .error e := by
  cases l with
  | nil => exact absurd rfl hl
  | cons a l => rw [List.mapM_cons, h a List.mem_cons_self, error_bind]

end FuzzyInference
