import FuzzyInference.Proofs.Outcome
import Mathlib.Data.List.Forall2

/-!
# The first failure

Steps for the members of a list are taken one after the other, and the first that
fails is the last that is taken. So of all the faults that there may be, the one
that is reported is the first in the order of the list, whatever comes after it.

`IsFirst` says which member that is. All refusals that name one of several things
are explained by it.
-/

namespace FuzzyInference

variable {ε β γ : Type}

/-- A member of a list with a property that no member before it has. -/
def IsFirst (p : γ → Prop) (l : List γ) (a : γ) : Prop :=
  ∃ before after, l = before ++ a :: after ∧ p a ∧ ∀ b ∈ before, ¬ p b

/-- A step does not succeed. -/
def Fails (x : Except ε β) : Prop := ∃ e, x = .error e

theorem not_fails_iff {x : Except ε β} : ¬ Fails x ↔ ∃ b, x = .ok b := by
  cases x <;> simp [Fails]

theorem fails_iff_ne_ok {x : Except ε Unit} : Fails x ↔ x ≠ .ok () := by
  cases x <;> simp [Fails]

variable {p : γ → Prop} {l : List γ} {a b : γ} {e : ε}

/-! ## Which one is first -/

theorem IsFirst.holds (h : IsFirst p l a) : p a := by
  obtain ⟨_, _, -, ha, -⟩ := h
  exact ha

theorem IsFirst.mem (h : IsFirst p l a) : a ∈ l := by
  obtain ⟨before, after, rfl, -, -⟩ := h
  exact List.mem_append_right before List.mem_cons_self

theorem not_isFirst_nil : ¬ IsFirst p [] a := by
  intro h
  exact absurd h.mem List.not_mem_nil

/-- The member at the head is first, or it has not got the property and plays no part. -/
theorem isFirst_cons_iff : IsFirst p (a :: l) b ↔ p a ∧ b = a ∨ ¬ p a ∧ IsFirst p l b := by
  refine ⟨fun h => ?_, fun h => ?_⟩
  · obtain ⟨before, after, hl, hb, hbefore⟩ := h
    cases before with
    | nil =>
      cases hl
      exact Or.inl ⟨hb, rfl⟩
    | cons c before =>
      cases hl
      obtain ⟨ha, hbefore⟩ := List.forall_mem_cons.mp hbefore
      exact Or.inr ⟨ha, before, after, rfl, hb, hbefore⟩
  · rcases h with ⟨ha, rfl⟩ | ⟨ha, before, after, rfl, hb, hbefore⟩
    · exact ⟨[], l, rfl, ha, fun c hc => absurd hc List.not_mem_nil⟩
    · exact ⟨a :: before, after, rfl, hb, List.forall_mem_cons.mpr ⟨ha, hbefore⟩⟩

/-- Searching a list finds the first of those that pass the test. -/
theorem find?_eq_some_iff_isFirst {test : γ → Bool} :
    l.find? test = some a ↔ IsFirst (fun c => test c = true) l a := by
  rw [List.find?_eq_some_iff_append]
  refine ⟨fun h => ?_, fun h => ?_⟩
  · obtain ⟨ha, before, after, hl, hbefore⟩ := h
    exact ⟨before, after, hl, ha, fun c hc => by simpa using hbefore c hc⟩
  · obtain ⟨before, after, hl, ha, hbefore⟩ := h
    exact ⟨ha, before, after, hl, fun c hc => by simpa using hbefore c hc⟩

/-! ## Steps in a row -/

/-- Two steps fail if the first does, or if the second does with what the first gave. -/
theorem bind_eq_error_iff {x : Except ε β} {f : β → Except ε γ} :
    x >>= f = .error e ↔ x = .error e ∨ ∃ b, x = .ok b ∧ f b = .error e := by
  cases x with
  | error e' => simp
  | ok b => simp

/-- The first step that fails is the one at the head, or the first of the others if that one
succeeds. -/
theorem exists_isFirst_fails_cons_iff {f : γ → Except ε β} {c : γ} :
    (∃ a, IsFirst (fun c => Fails (f c)) (c :: l) a ∧ f a = .error e)
      ↔ f c = .error e
        ∨ (∃ b, f c = .ok b) ∧ ∃ a, IsFirst (fun c => Fails (f c)) l a ∧ f a = .error e := by
  simp only [isFirst_cons_iff, not_fails_iff]
  refine ⟨fun h => ?_, fun h => ?_⟩
  · obtain ⟨a, ⟨-, rfl⟩ | ⟨hok, hfirst⟩, ha⟩ := h
    · exact Or.inl ha
    · exact Or.inr ⟨hok, a, hfirst, ha⟩
  · rcases h with hc | ⟨hok, a, hfirst, ha⟩
    · exact ⟨c, Or.inl ⟨⟨e, hc⟩, rfl⟩, hc⟩
    · exact ⟨a, Or.inr ⟨hok, hfirst⟩, ha⟩

/-- **Checks in a row fail where the first of them does.** -/
theorem forM_eq_error_iff {check : γ → Except ε Unit} :
    l.forM check = .error e ↔ ∃ a, IsFirst (fun c => Fails (check c)) l a ∧ check a = .error e := by
  induction l with
  | nil => simp [not_isFirst_nil, pure, Except.pure]
  | cons c l ih =>
    show (check c >>= fun _ => l.forM check) = .error e ↔ _
    rw [bind_eq_error_iff, exists_isFirst_fails_cons_iff, ih, exists_and_right]

/-- **Steps in a row fail where the first of them does.** -/
theorem mapM_eq_error_iff {f : γ → Except ε β} :
    l.mapM f = .error e ↔ ∃ a, IsFirst (fun c => Fails (f c)) l a ∧ f a = .error e := by
  induction l with
  | nil => simp [not_isFirst_nil, pure, Except.pure]
  | cons c l ih =>
    have hrest : ∀ b, (l.mapM f >>= fun bs => pure (b :: bs)) = .error e ↔ l.mapM f = .error e := by
      intro b
      rw [bind_eq_error_iff]
      simp [pure, Except.pure]
    rw [List.mapM_cons, bind_eq_error_iff, exists_isFirst_fails_cons_iff, ← ih]
    simp only [hrest, exists_and_right]

/-- If a property is what makes a step fail, the first that fails is the first that has it. -/
theorem exists_isFirst_fails_iff {f : γ → Except ε β} {g : γ → ε}
    (h : ∀ c e, f c = .error e ↔ p c ∧ e = g c) :
    (∃ a, IsFirst (fun c => Fails (f c)) l a ∧ f a = .error e) ↔ ∃ a, IsFirst p l a ∧ e = g a := by
  have hfails : (fun c => Fails (f c)) = p := by
    funext c
    simp only [Fails, h, exists_and_left, exists_eq, and_true]
  rw [hfails]
  refine exists_congr fun a => and_congr_right fun hfirst => ?_
  rw [h a, and_iff_right hfirst.holds]

/-- The error of checks in a row is about the first that has the property. -/
theorem forM_eq_error_iff_isFirst {check : γ → Except ε Unit} {g : γ → ε}
    (h : ∀ c e, check c = .error e ↔ p c ∧ e = g c) :
    l.forM check = .error e ↔ ∃ a, IsFirst p l a ∧ e = g a := by
  rw [forM_eq_error_iff, exists_isFirst_fails_iff h]

/-- The error of steps in a row is about the first that has the property. -/
theorem mapM_eq_error_iff_isFirst {f : γ → Except ε β} {g : γ → ε}
    (h : ∀ c e, f c = .error e ↔ p c ∧ e = g c) :
    l.mapM f = .error e ↔ ∃ a, IsFirst p l a ∧ e = g a := by
  rw [mapM_eq_error_iff, exists_isFirst_fails_iff h]

/-- **Steps in a row succeed if each does**, and then they give what each gives. -/
theorem mapM_eq_ok_iff {f : γ → Except ε β} {bs : List β} :
    l.mapM f = .ok bs ↔ List.Forall₂ (fun c b => f c = .ok b) l bs := by
  induction l generalizing bs with
  | nil => simp [pure, Except.pure, eq_comm]
  | cons c l ih =>
    rw [List.mapM_cons, bind_eq_ok_iff, List.forall₂_cons_left_iff]
    refine exists_congr fun b => ?_
    rw [bind_eq_ok_iff]
    simp only [ih]
    refine ⟨fun h => ?_, fun h => ?_⟩
    · obtain ⟨hc, bs', hl, hbs⟩ := h
      cases hbs
      exact ⟨bs', hc, hl, rfl⟩
    · obtain ⟨bs', hc, hl, rfl⟩ := h
      exact ⟨hc, bs', hl, rfl⟩

/-- Steps in a row fail only if one of them does. -/
theorem exists_mapM_eq_ok {f : γ → Except ε β} (h : ∀ c ∈ l, ∃ b, f c = .ok b) :
    ∃ bs, l.mapM f = .ok bs := by
  rw [← not_fails_iff]
  intro hfails
  obtain ⟨e, he⟩ := hfails
  obtain ⟨a, hfirst, -⟩ := mapM_eq_error_iff.mp he
  exact not_fails_iff.mpr (h a hfirst.mem) hfirst.holds

end FuzzyInference
