import Mathlib.Algebra.Group.Nat.Even
import FuzzyInference.Proofs.Condition
import FuzzyInference.Proofs.RealNumbers

/-!
# Which way a condition goes

A proposition can be negated where it stands, and so can every combination
around it. What counts in the end is how often (`occurrences`): the truth of a
condition goes along with a membership that is negated an even number of times,
and against one that is negated an odd number of times (`evaluate_le`).

This is not to be had without the bounds on degrees. A product of degrees grows
with its factors because they are not negative, and the sum less the product
grows because they are not above one. So every step needs to know as well that
what was evaluated before it is a degree (`evaluate_mem`).
-/

namespace FuzzyInference

open Set (Icc)

/-! ## Greater degrees -/

section Degrees

variable {α : Type} [Exact α] {u u' v v' : α}

theorem Hedge.applyTo_le (hroots : MonotoneRoots α) (hedge : Option Hedge)
    (hu : u ∈ Icc (0 : α) 1) (hu' : u' ∈ Icc (0 : α) 1) (h : u ≤ u') :
    Hedge.applyTo hedge u ≤ Hedge.applyTo hedge u' := by
  have hsquare : u * u ≤ u' * u' := mul_le_mul h h hu.1 hu'.1
  cases hedge with
  | none => exact h
  | some hedge =>
    cases hedge with
    | slightly => exact hroots.cbrt_mono hu hu' h
    | somewhat => exact hroots.sqrt_mono hu hu' h
    | very => exact hsquare
    | extremely => exact mul_le_mul hsquare h hu.1 (mul_nonneg hu'.1 hu'.1)

theorem AndMethod.apply_le (method : AndMethod) (hu' : u' ∈ Icc (0 : α) 1)
    (hv : v ∈ Icc (0 : α) 1) (huu' : u ≤ u') (hvv' : v ≤ v') :
    method.apply u v ≤ method.apply u' v' := by
  cases method with
  | min =>
    rw [Exact.and_min, Exact.and_min]
    exact min_le_min huu' hvv'
  | prod => exact mul_le_mul huu' hvv' hv.1 hu'.1

theorem OrMethod.apply_le (method : OrMethod) (hu : u ∈ Icc (0 : α) 1)
    (hv' : v' ∈ Icc (0 : α) 1) (huu' : u ≤ u') (hvv' : v ≤ v') :
    method.apply u v ≤ method.apply u' v' := by
  cases method with
  | max =>
    rw [Exact.or_max, Exact.or_max]
    exact max_le_max huu' hvv'
  | probOr =>
    rw [Exact.or_probOr, Exact.or_probOr]
    -- both together get no truer in being false
    have hfalse : (1 - u') * (1 - v') ≤ (1 - u) * (1 - v) :=
      mul_le_mul (sub_le_sub_left huu' 1) (sub_le_sub_left hvv' 1) (sub_nonneg.mpr hv'.2)
        (sub_nonneg.mpr hu.2)
    exact sub_le_sub_left hfalse 1

theorem Link.apply_le (connectives : Connectives) (link : Link) (hu : u ∈ Icc (0 : α) 1)
    (hu' : u' ∈ Icc (0 : α) 1) (hv : v ∈ Icc (0 : α) 1) (hv' : v' ∈ Icc (0 : α) 1)
    (huu' : u ≤ u') (hvv' : v ≤ v') :
    link.apply connectives u v ≤ link.apply connectives u' v' := by
  cases link with
  | and => exact connectives.andMethod.apply_le hu' hv huu' hvv'
  | or => exact connectives.orMethod.apply_le hu hv' huu' hvv'

end Degrees

namespace Condition

/-! ## Negations on the way to a proposition -/

/-- Counts one more negation for each of some propositions, if there is one. -/
def countNegation (negated : Bool) (counted : List (Proposition × Nat)) :
    List (Proposition × Nat) :=
  counted.map fun e => (e.1, e.2 + negated.toNat)

mutual

/-- The propositions of a condition from left to right, each with the number of negations on the way
to it, its own included. -/
def occurrences : Condition → List (Proposition × Nat)
  | .single p => countNegation p.negated [(p, 0)]
  | .combination _ negated first rest =>
    countNegation negated (first.occurrences ++ occurrencesOf rest)

/-- The same for conditions from left to right. -/
def occurrencesOf : List Condition → List (Proposition × Nat)
  | [] => []
  | c :: cs => c.occurrences ++ occurrencesOf cs

end

theorem map_fst_countNegation (negated : Bool) (counted : List (Proposition × Nat)) :
    (countNegation negated counted).map Prod.fst = counted.map Prod.fst := by
  unfold countNegation
  rw [List.map_map]
  rfl

mutual

/-- Every proposition is counted once, where it stands. -/
theorem map_fst_occurrences : ∀ c : Condition, c.occurrences.map Prod.fst = c.propositions
  | .single p => by
    rw [occurrences, map_fst_countNegation, propositions]
    rfl
  | .combination _ negated first rest => by
    rw [occurrences, map_fst_countNegation, List.map_append, map_fst_occurrences first,
      map_fst_occurrencesOf rest, propositions]

theorem map_fst_occurrencesOf :
    ∀ cs : List Condition, (occurrencesOf cs).map Prod.fst = propositionsOf cs
  | [] => rfl
  | c :: cs => by
    rw [occurrencesOf, List.map_append, map_fst_occurrences c, map_fst_occurrencesOf cs,
      propositionsOf]

end

/-- No less where it is negated an even number of times, and no more where it is negated an odd
number of times. -/
def Favors {α : Type} [LE α] (membership membership' : Proposition → α)
    (counted : List (Proposition × Nat)) : Prop :=
  ∀ p n, (p, n) ∈ counted →
    (Even n → membership p ≤ membership' p) ∧ (Odd n → membership' p ≤ membership p)

section Favors

variable {α : Type} [LE α] {membership membership' : Proposition → α}
  {counted counted' : List (Proposition × Nat)}

theorem favors_append_iff : Favors membership membership' (counted ++ counted')
    ↔ Favors membership membership' counted ∧ Favors membership membership' counted' := by
  refine ⟨fun h => ⟨fun p n hp => h p n (List.mem_append_left _ hp),
    fun p n hp => h p n (List.mem_append_right _ hp)⟩, fun h p n hp => ?_⟩
  rcases List.mem_append.mp hp with hp | hp
  · exact h.1 p n hp
  · exact h.2 p n hp

theorem Favors.of_not_negated (h : Favors membership membership' (countNegation false counted)) :
    Favors membership membership' counted :=
  fun p n hp => h p n (List.mem_map.mpr ⟨(p, n), hp, rfl⟩)

/-- **One more negation turns the direction around.** -/
theorem Favors.of_negated (h : Favors membership membership' (countNegation true counted)) :
    Favors membership' membership counted := by
  intro p n hp
  obtain ⟨heven, hodd⟩ := h p (n + 1) (List.mem_map.mpr ⟨(p, n), hp, rfl⟩)
  exact ⟨fun hn => hodd hn.add_one, fun hn => heven hn.add_one⟩

end Favors

/-! ## Greater truths -/

variable {α : Type} [Exact α] {connectives : Connectives}

/-- What goes along with the memberships goes along with them when it is negated, too, if the
negation is counted. -/
theorem Favors.negateIf_le {membership membership' : Proposition → α} {negated : Bool}
    {counted : List (Proposition × Nat)} {u u' : α}
    (hfavors : Favors membership membership' (countNegation negated counted))
    (hle : Favors membership membership' counted → u ≤ u')
    (hge : Favors membership' membership counted → u' ≤ u) :
    negateIf negated u ≤ negateIf negated u' := by
  cases negated with
  | false => exact hle hfavors.of_not_negated
  | true =>
    rw [negateIf_true, negateIf_true]
    exact sub_le_sub_left (hge hfavors.of_negated) 1

mutual

/-- **Memberships that are greater where it favors a condition, and less where it does not, make it
truer.** -/
theorem evaluate_le (hroots : MonotoneRoots α) :
    ∀ (c : Condition) {membership membership' : Proposition → α},
    (∀ p ∈ c.propositions, membership p ∈ Icc (0 : α) 1) →
    (∀ p ∈ c.propositions, membership' p ∈ Icc (0 : α) 1) →
    Favors membership membership' c.occurrences →
    c.evaluate connectives membership ≤ c.evaluate connectives membership'
  | .single p, membership, membership', hm, hm', hfavors => by
    have hp : membership p ∈ Icc (0 : α) 1 := hm p List.mem_cons_self
    have hp' : membership' p ∈ Icc (0 : α) 1 := hm' p List.mem_cons_self
    have hmem : (p, 0) ∈ [(p, 0)] := List.mem_singleton_self _
    rw [evaluate, evaluate]
    refine hfavors.negateIf_le (fun h => ?_) (fun h => ?_)
    · exact Hedge.applyTo_le hroots _ hp hp' ((h p 0 hmem).1 Even.zero)
    · exact Hedge.applyTo_le hroots _ hp' hp ((h p 0 hmem).1 Even.zero)
  | .combination link negated first rest, membership, membership', hm, hm', hfavors => by
    have hchildren : ∀ {m m' : Proposition → α},
        (∀ p ∈ first.propositions ++ propositionsOf rest, m p ∈ Icc (0 : α) 1) →
        (∀ p ∈ first.propositions ++ propositionsOf rest, m' p ∈ Icc (0 : α) 1) →
        Favors m m' (first.occurrences ++ occurrencesOf rest) →
        evaluateRest connectives m link (first.evaluate connectives m) rest
          ≤ evaluateRest connectives m' link (first.evaluate connectives m') rest := by
      intro m m' hm hm' h
      obtain ⟨hfirst, hrest⟩ := List.forall_mem_append.mp hm
      obtain ⟨hfirst', hrest'⟩ := List.forall_mem_append.mp hm'
      obtain ⟨hfavorsFirst, hfavorsRest⟩ := favors_append_iff.mp h
      have hle := evaluate_le hroots first hfirst hfirst' hfavorsFirst
      exact evaluateRest_le hroots rest (evaluate_mem hroots.toRootsOfDegrees hfirst)
        (evaluate_mem hroots.toRootsOfDegrees hfirst') hle hrest hrest' hfavorsRest
    rw [evaluate, evaluate]
    exact hfavors.negateIf_le (hchildren hm hm') (hchildren hm' hm)

theorem evaluateRest_le (hroots : MonotoneRoots α) {link : Link} :
    ∀ (cs : List Condition) {before before' : α} {membership membership' : Proposition → α},
    before ∈ Icc (0 : α) 1 → before' ∈ Icc (0 : α) 1 → before ≤ before' →
    (∀ p ∈ propositionsOf cs, membership p ∈ Icc (0 : α) 1) →
    (∀ p ∈ propositionsOf cs, membership' p ∈ Icc (0 : α) 1) →
    Favors membership membership' (occurrencesOf cs) →
    evaluateRest connectives membership link before cs
      ≤ evaluateRest connectives membership' link before' cs
  | [], _, _, _, _, _, _, hle, _, _, _ => hle
  | c :: cs, _, _, membership, membership', hbefore, hbefore', hle, hm, hm', hfavors => by
    obtain ⟨hc, hcs⟩ := List.forall_mem_append.mp hm
    obtain ⟨hc', hcs'⟩ := List.forall_mem_append.mp hm'
    obtain ⟨hfavorsC, hfavorsCs⟩ := favors_append_iff.mp hfavors
    have hcmem : c.evaluate connectives membership ∈ Icc (0 : α) 1 :=
      evaluate_mem hroots.toRootsOfDegrees hc
    have hcmem' : c.evaluate connectives membership' ∈ Icc (0 : α) 1 :=
      evaluate_mem hroots.toRootsOfDegrees hc'
    have hcle := evaluate_le hroots c hc hc' hfavorsC
    rw [evaluateRest, evaluateRest]
    exact evaluateRest_le hroots cs (link.apply_mem connectives hbefore hcmem)
      (link.apply_mem connectives hbefore' hcmem')
      (link.apply_le connectives hbefore hbefore' hcmem hcmem' hle hcle) hcs hcs' hfavorsCs

end

/-- **A condition is true to a degree, and which way its truth goes is a matter of counting
negations.** Whatever the methods for `and` and `or`, and however the condition is built, degrees
for the terms make it true to a degree. Other degrees do not make it less true, if they are no less
for every proposition that is negated an even number of times and no more for every other. -/
theorem evaluate_bounded_and_monotone (hroots : MonotoneRoots α) (connectives : Connectives)
    (c : Condition) (membership membership' : Proposition → α)
    (hdegrees : ∀ p ∈ c.propositions, membership p ∈ Icc (0 : α) 1)
    (hdegrees' : ∀ p ∈ c.propositions, membership' p ∈ Icc (0 : α) 1) :
    c.evaluate connectives membership ∈ Icc (0 : α) 1
      ∧ c.occurrences.map Prod.fst = c.propositions
      ∧ (Favors membership membership' c.occurrences →
          c.evaluate connectives membership ≤ c.evaluate connectives membership') :=
  ⟨evaluate_mem hroots.toRootsOfDegrees hdegrees, map_fst_occurrences c,
    fun hfavors => evaluate_le hroots c hdegrees hdegrees' hfavors⟩

/-- It is not so that there is wind and it is not somewhat warm. -/
def calmOrWarm : Condition :=
  .combination .and true (.single ⟨⟨1⟩, ⟨1⟩, false, none⟩)
    [.single ⟨⟨2⟩, ⟨2⟩, true, some .somewhat⟩]

/-- Degrees of wind and of warmth. -/
def weather (wind warmth : ℝ) (p : Proposition) : ℝ :=
  if p.subject = ⟨1⟩ then wind else warmth

theorem weather_mem {wind warmth : ℝ} (hwind : wind ∈ Icc (0 : ℝ) 1)
    (hwarmth : warmth ∈ Icc (0 : ℝ) 1) (p : Proposition) :
    weather wind warmth p ∈ Icc (0 : ℝ) 1 := by
  unfold weather
  split
  · exact hwind
  · exact hwarmth

/-- The wind, which is negated once, gives way to warmth, which is negated twice. -/
theorem favors_weather {wind wind' warmth warmth' : ℝ} (hwind : wind' ≤ wind)
    (hwarmth : warmth ≤ warmth') :
    Favors (weather wind warmth) (weather wind' warmth') calmOrWarm.occurrences := by
  intro p n hp
  rcases List.mem_pair.mp hp with heq | heq
  · cases heq
    exact ⟨fun heven => absurd heven Nat.not_even_one, fun _ => hwind⟩
  · cases heq
    exact ⟨fun _ => hwarmth, fun hodd => absurd even_two (Nat.not_even_iff_odd.mpr hodd)⟩

/-- There is some wind, and it is rather cold. -/
noncomputable def fresh : Proposition → ℝ := weather (1 / 2) (1 / 4)

/-- There is less wind, and it is not so cold. -/
noncomputable def mild : Proposition → ℝ := weather (1 / 4) (1 / 2)

theorem fresh_mem (p : Proposition) : fresh p ∈ Icc (0 : ℝ) 1 :=
  weather_mem ⟨by norm_num, by norm_num⟩ ⟨by norm_num, by norm_num⟩ p

theorem mild_mem (p : Proposition) : mild p ∈ Icc (0 : ℝ) 1 :=
  weather_mem ⟨by norm_num, by norm_num⟩ ⟨by norm_num, by norm_num⟩ p

theorem favors_mild : Favors fresh mild calmOrWarm.occurrences :=
  favors_weather (by norm_num) (by norm_num)

open RealNumbers in
theorem evaluate_bounded_and_monotone_calm_or_warm :
    calmOrWarm.occurrences.map Prod.snd = [1, 2]
      ∧ calmOrWarm.evaluate ⟨.prod, .max⟩ fresh ∈ Icc (0 : ℝ) 1
      ∧ calmOrWarm.evaluate ⟨.prod, .max⟩ fresh ≤ calmOrWarm.evaluate ⟨.prod, .max⟩ mild := by
  obtain ⟨hmem, -, hle⟩ := evaluate_bounded_and_monotone monotoneRoots ⟨.prod, .max⟩ calmOrWarm
    fresh mild (fun p _ => fresh_mem p) (fun p _ => mild_mem p)
  exact ⟨rfl, hmem, hle favors_mild⟩

end Condition

end FuzzyInference
