import FuzzyInference.Proofs.ExactNumbers
import Mathlib.Algebra.Order.Group.MinMax

/-!
# Duality

A condition can be denied in two ways: as a whole, or by denying every
proposition in it and exchanging `and` and `or`. With exact numbers both come to
the same (`evaluate_dual`), provided that the methods for `and` and `or` are a
pair in which one is the other seen from falsehood: the smaller with the larger,
the product with the sum less the product.

A denied proposition is about the same term. So the membership that it is given
must not depend on whether it is negated.
-/

namespace FuzzyInference

/-! ## Pairs of methods -/

/-- The method for `or` that joins falsehoods as this one joins truths. -/
def AndMethod.dual : AndMethod → OrMethod
  | .min => .max
  | .prod => .probOr

/-- A method for `and` with its dual for `or`. -/
def AndMethod.paired (method : AndMethod) : Connectives := ⟨method, method.dual⟩

/-- `or` for `and`, and `and` for `or`. -/
def Link.dual : Link → Link
  | .and => .or
  | .or => .and

/-- The denied proposition. -/
def Proposition.not (p : Proposition) : Proposition := { p with negated := !p.negated }

section Exact

variable {α : Type} [Exact α]

theorem negateIf_not (negated : Bool) (v : α) :
    negateIf (!negated) v = 1 - negateIf negated v := by
  cases negated with
  | false => exact negateIf_true v
  | true =>
    rw [negateIf_true, sub_sub_cancel]
    rfl

theorem negateIf_one_sub (negated : Bool) (v : α) :
    negateIf negated (1 - v) = 1 - negateIf negated v := by
  cases negated with
  | false => rfl
  | true => rw [negateIf_true, negateIf_true]

theorem AndMethod.apply_one_sub (method : AndMethod) (u v : α) :
    method.apply (1 - u) (1 - v) = 1 - method.dual.apply u v := by
  cases method with
  | min =>
    show AndMethod.min.apply (1 - u) (1 - v) = 1 - OrMethod.max.apply u v
    rw [Exact.and_min, Exact.or_max]
    exact min_sub_sub_left 1 u v
  | prod =>
    show (1 - u) * (1 - v) = 1 - OrMethod.probOr.apply u v
    rw [Exact.or_probOr, sub_sub_cancel]

/-- **Falsehoods are joined by the dual link as truths are by the link itself.** -/
theorem Link.apply_dual (method : AndMethod) (link : Link) (u v : α) :
    link.dual.apply method.paired (1 - u) (1 - v) = 1 - link.apply method.paired u v := by
  cases link with
  | and =>
    -- seen from the other side
    show method.dual.apply (1 - u) (1 - v) = 1 - method.apply u v
    have hand := method.apply_one_sub (1 - u) (1 - v)
    rw [sub_sub_cancel, sub_sub_cancel] at hand
    rw [hand, sub_sub_cancel]
  | or => exact method.apply_one_sub u v

end Exact

namespace Condition

/-! ## The dual of a condition -/

mutual

/-- Every proposition denied, and `and` and `or` exchanged. Negated combinations stay negated. -/
def dual : Condition → Condition
  | .single p => .single p.not
  | .combination link negated first rest =>
    .combination link.dual negated first.dual (duals rest)

/-- The dual of each of some conditions. -/
def duals : List Condition → List Condition
  | [] => []
  | c :: cs => c.dual :: duals cs

end

mutual

theorem propositions_dual :
    ∀ c : Condition, c.dual.propositions = c.propositions.map Proposition.not
  | .single _ => rfl
  | .combination _ _ first rest => by
    rw [dual, propositions, propositions, List.map_append, propositions_dual first,
      propositionsOf_duals rest]

theorem propositionsOf_duals : ∀ cs : List Condition,
    propositionsOf (duals cs) = (propositionsOf cs).map Proposition.not
  | [] => rfl
  | c :: cs => by
    rw [duals, propositionsOf, propositionsOf, List.map_append, propositions_dual c,
      propositionsOf_duals cs]

end

/-- **Denying twice takes the denial back.** -/
theorem not_not (c : Condition) : c.not.not = c := by
  cases c with
  | single p =>
    show Condition.single { p with negated := !!p.negated } = .single p
    rw [Bool.not_not]
  | combination link negated first rest =>
    show Condition.combination link (!!negated) first rest = _
    rw [Bool.not_not]

section Evaluation

variable {α : Type} [Exact α] {membership : Proposition → α}

/-- A denied proposition is as false as the proposition is true. -/
theorem truth_not (hmembership : ∀ p, membership p.not = membership p) (p : Proposition) :
    p.not.truth (membership p.not) = 1 - p.truth (membership p) := by
  rw [hmembership p]
  exact negateIf_not p.negated _

theorem evaluate_not (connectives : Connectives)
    (hmembership : ∀ p, membership p.not = membership p) (c : Condition) :
    c.not.evaluate connectives membership = 1 - c.evaluate connectives membership := by
  cases c with
  | single p =>
    rw [evaluate]
    exact truth_not hmembership p
  | combination link negated first rest =>
    rw [evaluate]
    exact negateIf_not negated _

mutual

/-- **The dual of a condition is as false as the condition is true.** -/
theorem evaluate_dual (method : AndMethod) (hmembership : ∀ p, membership p.not = membership p) :
    ∀ c : Condition,
      c.dual.evaluate method.paired membership = 1 - c.evaluate method.paired membership
  | .single p => by
    rw [dual, evaluate, evaluate]
    exact truth_not hmembership p
  | .combination link negated first rest => by
    rw [dual, evaluate, evaluate, evaluate_dual method hmembership first,
      evaluateRest_duals method hmembership rest, negateIf_one_sub]

theorem evaluateRest_duals (method : AndMethod)
    (hmembership : ∀ p, membership p.not = membership p) {link : Link} :
    ∀ (cs : List Condition) {before : α},
      evaluateRest method.paired membership link.dual (1 - before) (duals cs)
        = 1 - evaluateRest method.paired membership link before cs
  | [], _ => rfl
  | c :: cs, before => by
    rw [duals, evaluateRest, evaluateRest, evaluate_dual method hmembership c, Link.apply_dual,
      evaluateRest_duals method hmembership cs]

end

end Evaluation

end Condition

/-! ## In a system -/

namespace InputSide

variable {α : Type} [Exact α] {s : InputSide α} {fuzzified : Fuzzified α}

/-- What a proposition needs a degree for. -/
def about (p : Proposition) : VariableKey × TermKey := (p.subject, p.term)

/-- **Conditions about the same terms are evaluated alike**: either both are refused for the same
variable, or their truths are related as their values are. -/
theorem evaluate_eq_map {c d : Condition} {f : α → α}
    (habout : d.propositions.map about = c.propositions.map about)
    (hvalue : d.evaluate s.connectives (degreeIn fuzzified)
      = f (c.evaluate s.connectives (degreeIn fuzzified))) :
    s.evaluate fuzzified d = (s.evaluate fuzzified c).map f := by
  have hfind : ∀ c : Condition,
      (c.propositions.find? fun p => !fuzzified.contains (p.subject, p.term)).map about
        = (c.propositions.map about).find? fun k => !fuzzified.contains k := by
    intro c
    rw [List.find?_map]
    rfl
  have hmissing := hfind d
  rw [habout, ← hfind c] at hmissing
  unfold evaluate
  cases hc : c.propositions.find? fun p => !fuzzified.contains (p.subject, p.term) with
  | none =>
    rw [hc, Option.map_none, Option.map_eq_none_iff] at hmissing
    rw [hmissing]
    exact congrArg Except.ok hvalue
  | some p =>
    rw [hc] at hmissing
    obtain ⟨q, hq, habout⟩ := Option.map_eq_some_iff.mp hmissing
    have hsubject : q.subject = p.subject := congrArg Prod.fst habout
    rw [hq]
    show Except.error (Error.foreignTerm (s.table.nameOf q.subject)) = _
    rw [hsubject]
    rfl

theorem map_about_dual (c : Condition) :
    c.dual.propositions.map about = c.propositions.map about := by
  rw [Condition.propositions_dual, List.map_map]
  rfl

theorem map_about_not (c : Condition) :
    c.not.propositions.map about = c.propositions.map about := by
  cases c with
  | single p => rfl
  | combination link negated first rest => rfl

end InputSide

/-- **A denied condition is as false as the condition is true, and so is its dual.** This is so for
both pairs of methods, for whatever memberships terms have, and for what a system evaluates or
refuses to evaluate. Denying twice takes the denial back. -/
theorem dual_evaluates_as_negation {α : Type} [Exact α] (c : Condition) (method : AndMethod) :
    c.not.not = c
      ∧ (∀ membership : Proposition → α, (∀ p, membership p.not = membership p) →
          c.dual.evaluate method.paired membership = c.not.evaluate method.paired membership
          ∧ c.not.evaluate method.paired membership = 1 - c.evaluate method.paired membership)
      ∧ ∀ (s : InputSide α) (fuzzified : Fuzzified α), s.connectives = method.paired →
          s.evaluate fuzzified c.dual = s.evaluate fuzzified c.not
          ∧ s.evaluate fuzzified c.not
            = (s.evaluate fuzzified c).map fun truth => 1 - truth := by
  have hvalues : ∀ membership : Proposition → α, (∀ p, membership p.not = membership p) →
      c.dual.evaluate method.paired membership = 1 - c.evaluate method.paired membership
      ∧ c.not.evaluate method.paired membership = 1 - c.evaluate method.paired membership :=
    fun membership h => ⟨c.evaluate_dual method h, c.evaluate_not method.paired h⟩
  refine ⟨c.not_not, fun membership h => ?_, fun s fuzzified hs => ?_⟩
  · obtain ⟨hdual, hnot⟩ := hvalues membership h
    exact ⟨hdual.trans hnot.symm, hnot⟩
  · obtain ⟨hdual, hnot⟩ := hvalues (InputSide.degreeIn fuzzified) fun _ => rfl
    rw [← hs] at hdual hnot
    have hevaluated := InputSide.evaluate_eq_map (InputSide.map_about_not c) hnot
    have hevaluated' := InputSide.evaluate_eq_map (InputSide.map_about_dual c) hdual
    exact ⟨hevaluated'.trans hevaluated.symm, hevaluated⟩

/-- It is not both cold and very windy, or it is not raining. -/
def tolerable : Condition :=
  .combination .or false
    (.combination .and true (.single ⟨⟨1⟩, ⟨1⟩, false, none⟩)
      [.single ⟨⟨2⟩, ⟨2⟩, false, some .very⟩])
    [.single ⟨⟨3⟩, ⟨3⟩, true, none⟩]

open RationalNumbers in
theorem dual_evaluates_as_negation_tolerable :
    tolerable.not.not = tolerable
      ∧ tolerable.evaluate AndMethod.prod.paired fading = 71 / 72
      ∧ tolerable.not.evaluate AndMethod.prod.paired fading = 1 / 72
      ∧ tolerable.dual.evaluate AndMethod.prod.paired fading = 1 / 72
      ∧ ∀ fuzzified : Fuzzified ℚ, ∀ truth,
        InputSide.evaluate { connectives := AndMethod.prod.paired } fuzzified tolerable
          = .ok truth →
        InputSide.evaluate { connectives := AndMethod.prod.paired } fuzzified tolerable.dual
          = .ok (1 - truth) := by
  obtain ⟨hnot, hvalues, hsystems⟩ := dual_evaluates_as_negation (α := ℚ) tolerable .prod
  obtain ⟨hdual, hdenied⟩ := hvalues fading fun _ => rfl
  have htrue : tolerable.evaluate AndMethod.prod.paired fading = 71 / 72 := by decide +kernel
  have hfalse : tolerable.not.evaluate AndMethod.prod.paired fading = 1 / 72 := by
    rw [hdenied, htrue]
    norm_num
  refine ⟨hnot, htrue, hfalse, hdual.trans hfalse, fun fuzzified truth h => ?_⟩
  obtain ⟨hdual, hdenied⟩ := hsystems { connectives := AndMethod.prod.paired } fuzzified rfl
  rw [hdual, hdenied, h]
  rfl

end FuzzyInference
