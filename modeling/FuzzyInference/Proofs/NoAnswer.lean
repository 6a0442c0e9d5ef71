import FuzzyInference.Proofs.Calculation

/-!
# No answer is not taken for one

A membership function may have no answer for a reading. Then whatever is made of
it has none either, up to the number for the output: every stage of a calculation
is strict in this sense (`Strict`).

Operations on numbers are taken to be strict, and what is no answer to equal
nothing, not even itself (`SpreadsNaN`). The smaller and the larger of two
numbers need not be strict, and on machine numbers they are not. They would pass
off the other operand as the answer; that is why `CompositionMethod.apply` does
not leave it to them. The mean of a Sugeno system compares its weight with zero
before it divides, and what equals nothing is not zero.
-/

namespace FuzzyInference

open Scalar

/-- No answer in, no answer out. -/
def Strict {α : Type} [Scalar α] (op : α → α → α) : Prop :=
  ∀ u v, isNaN u ∨ isNaN v → isNaN (op u v)

/-- Numbers on which operations are strict, and where what is no answer equals nothing. -/
class SpreadsNaN (α : Type) [Scalar α] : Prop where
  nan : isNaN (nan : α)
  add : Strict fun u v : α => u + v
  sub : Strict fun u v : α => u - v
  mul : Strict fun u v : α => u * v
  div : Strict fun u v : α => u / v
  sqrt : ∀ v : α, isNaN v → isNaN (sqrt v)
  cbrt : ∀ v : α, isNaN v → isNaN (cbrt v)
  beq : ∀ u v : α, isNaN u → (u == v) = false

variable {α : Type} [Scalar α]

/-- **A fold by a strict operation has no answer if one of its operands has none.** -/
theorem Strict.foldl {op : α → α → α} (h : Strict op) {l : List α} {init : α}
    (hnan : isNaN init ∨ ∃ v ∈ l, isNaN v) : isNaN (l.foldl op init) := by
  induction l generalizing init with
  | nil =>
    rcases hnan with hinit | ⟨v, hv, -⟩
    · exact hinit
    · exact absurd hv List.not_mem_nil
  | cons w l ih =>
    rw [List.foldl_cons]
    rcases hnan with hinit | ⟨v, hv, hnan⟩
    · exact ih (Or.inl (h _ _ (Or.inl hinit)))
    · rcases List.mem_cons.mp hv with rfl | hv
      · exact ih (Or.inl (h _ _ (Or.inr hnan)))
      · exact ih (Or.inr ⟨v, hv, hnan⟩)

/-- The same for what is folded from the first of some operands. -/
theorem Strict.foldl_cons {op : α → α → α} (h : Strict op) {first : α} {rest : List α}
    (hnan : ∃ v ∈ first :: rest, isNaN v) : isNaN (rest.foldl op first) := by
  obtain ⟨v, hv, hnan⟩ := hnan
  rcases List.mem_cons.mp hv with rfl | hv
  · exact h.foldl (Or.inl hnan)
  · exact h.foldl (Or.inr ⟨v, hv, hnan⟩)

section Spreads

variable [SpreadsNaN α]

/-! ## Methods -/

/-- **Whichever way degrees are composed, it is strict.** -/
theorem CompositionMethod.strict (method : CompositionMethod) :
    Strict (method.apply : α → α → α) := by
  intro u v h
  have hguard : (isNaN u || isNaN v) = true := by simpa using h
  cases method with
  | min =>
    show isNaN (if isNaN u || isNaN v then nan else lesser u v)
    rw [if_pos hguard]
    exact SpreadsNaN.nan
  | max =>
    show isNaN (if isNaN u || isNaN v then nan else greater u v)
    rw [if_pos hguard]
    exact SpreadsNaN.nan
  | prod => exact SpreadsNaN.mul u v h
  | sum => exact SpreadsNaN.add u v h

theorem AndMethod.strict (method : AndMethod) : Strict (method.apply : α → α → α) := by
  cases method with
  | min => exact CompositionMethod.min.strict
  | prod => exact CompositionMethod.prod.strict

theorem OrMethod.strict (method : OrMethod) : Strict (method.apply : α → α → α) := by
  cases method with
  | max => exact CompositionMethod.max.strict
  | probOr =>
    intro u v h
    exact SpreadsNaN.sub _ _ (Or.inl (SpreadsNaN.add u v h))

theorem Link.strict (connectives : Connectives) (link : Link) :
    Strict (link.apply connectives : α → α → α) := by
  cases link with
  | and => exact connectives.andMethod.strict
  | or => exact connectives.orMethod.strict

/-! ## Conditions -/

theorem Hedge.isNaN_applyTo (hedge : Option Hedge) {v : α} (h : isNaN v) :
    isNaN (Hedge.applyTo hedge v) := by
  have hsquare : isNaN (v * v) := SpreadsNaN.mul v v (Or.inl h)
  cases hedge with
  | none => exact h
  | some hedge =>
    cases hedge with
    | slightly => exact SpreadsNaN.cbrt v h
    | somewhat => exact SpreadsNaN.sqrt v h
    | very => exact hsquare
    | extremely => exact SpreadsNaN.mul _ _ (Or.inl hsquare)

theorem isNaN_negateIf (negated : Bool) {v : α} (h : isNaN v) : isNaN (negateIf negated v) := by
  cases negated with
  | false => exact h
  | true => exact SpreadsNaN.sub 1 v (Or.inr h)

namespace Condition

variable {connectives : Connectives} {membership : Proposition → α}

mutual

/-- **A condition has no truth if a proposition in it has no membership**, however deep it is. -/
theorem isNaN_evaluate : ∀ {c : Condition}, (∃ p ∈ c.propositions, isNaN (membership p)) →
    isNaN (c.evaluate connectives membership)
  | .single p, h => by
    obtain ⟨q, hq, hnan⟩ := h
    rw [List.mem_singleton.mp hq] at hnan
    rw [evaluate]
    exact isNaN_negateIf _ (Hedge.isNaN_applyTo _ hnan)
  | .combination link negated first rest, h => by
    obtain ⟨p, hp, hnan⟩ := h
    rw [evaluate]
    refine isNaN_negateIf _ (isNaN_evaluateRest ?_)
    rcases List.mem_append.mp hp with hp | hp
    · exact Or.inl (isNaN_evaluate ⟨p, hp, hnan⟩)
    · exact Or.inr ⟨p, hp, hnan⟩

theorem isNaN_evaluateRest {link : Link} : ∀ {cs : List Condition} {before : α},
    (isNaN before ∨ ∃ p ∈ propositionsOf cs, isNaN (membership p)) →
    isNaN (evaluateRest connectives membership link before cs)
  | [], _, h => by
    rcases h with h | ⟨p, hp, -⟩
    · exact h
    · exact absurd hp List.not_mem_nil
  | c :: cs, before, h => by
    rw [evaluateRest]
    refine isNaN_evaluateRest ?_
    rcases h with h | ⟨p, hp, hnan⟩
    · exact Or.inl (link.strict connectives _ _ (Or.inl h))
    · rcases List.mem_append.mp hp with hp | hp
      · exact Or.inl (link.strict connectives _ _ (Or.inr (isNaN_evaluate ⟨p, hp, hnan⟩)))
      · exact Or.inr ⟨p, hp, hnan⟩

end

end Condition

/-! ## Truths -/

omit [SpreadsNaN α] in
/-- A condition is about a term that has no answer for the reading of its variable. -/
def InputSide.MeetsNaN (s : InputSide α) (readings : Readings α) (c : Condition) : Prop :=
  ∃ p ∈ c.propositions, ∃ term x, s.table.termAt? p.term = some term
    ∧ readings.get? p.subject = some x ∧ isNaN (term.membership x)

theorem InputSide.MeetsNaN.isNaN_truthAt {s : InputSide α} {readings : Readings α} {c : Condition}
    (h : s.MeetsNaN readings c) : isNaN (s.truthAt readings c) := by
  obtain ⟨p, hp, term, x, hterm, hx, hnan⟩ := h
  refine Condition.isNaN_evaluate ⟨p, hp, ?_⟩
  unfold VariableTable.membershipOf InputSide.reading
  rw [hterm, hx]
  exact hnan

/-! ## Mamdani systems -/

open Numeric in
/-- A function without answers has no integral. -/
theorem isNaN_simpson {f : α → α} (h : ∀ x, isNaN (f x)) (a b : α) (parts : Nat) :
    isNaN (simpson f a b parts) := by
  have hsum : isNaN (((samples a b (2 * parts + 1)).zipIdx.map fun e =>
      weight (2 * parts) e.2 * f e.1).foldl (· + ·) 0) := by
    refine SpreadsNaN.add.foldl (Or.inr ?_)
    have hne : (samples a b (2 * parts + 1)).zipIdx ≠ [] := by simp [samples]
    obtain ⟨e, he⟩ := List.exists_mem_of_ne_nil _ hne
    exact ⟨_, List.mem_map_of_mem he, SpreadsNaN.mul _ _ (Or.inr (h e.1))⟩
  exact SpreadsNaN.div _ _ (Or.inl (SpreadsNaN.mul _ _ (Or.inl hsum)))

namespace Mamdani.System

variable {s : System α} {readings : Readings α}

/-- **An output has no degree anywhere if one of its rules has no truth**, whatever the others. -/
theorem isNaN_mergedAt {truths : List α} {o : VariableKey} {e : Rule α × α}
    (he : e ∈ s.concluding truths o) (hnan : isNaN e.2) (y : α) :
    isNaN (s.mergedAt truths o y) := by
  have hlimited : ∃ v ∈ (s.concluding truths o).map fun e => s.limitedAt e.1 e.2 y, isNaN v :=
    ⟨_, List.mem_map_of_mem he, s.implication.composition.strict _ _ (Or.inl hnan)⟩
  unfold mergedAt
  split
  · rename_i hnil
    rw [hnil] at hlimited
    obtain ⟨v, hv, -⟩ := hlimited
    exact absurd hv List.not_mem_nil
  · rename_i first rest hcons
    rw [hcons] at hlimited
    exact s.aggregation.composition.strict.foldl_cons hlimited

theorem isNaN_centerOver (o : VariableKey) {membership : α → α} (h : ∀ y, isNaN (membership y)) :
    isNaN (s.centerOver o membership) := by
  unfold centerOver
  split
  · exact SpreadsNaN.div _ _ (Or.inl
      (isNaN_simpson (fun y => SpreadsNaN.mul _ _ (Or.inr (h y))) _ _ _))
  · exact SpreadsNaN.nan

/-- **The number for an output is no answer if one of its rules has no truth.** -/
theorem Consistent.isNaN_number (hc : s.Consistent) {numbers : OrderedMap VariableKey α}
    (h : s.calculate readings = .ok numbers) {rule : Rule α} (hrule : rule ∈ s.rules)
    (hnan : isNaN (s.inputSide.truthAt readings rule.condition)) :
    ∃ x, numbers.get? rule.conclusion.subject = some x ∧ isNaN x := by
  refine ⟨_, hc.get?_of_calculate h (hc.rules rule hrule).subject, ?_⟩
  refine isNaN_centerOver _ fun y => ?_
  rw [value_merged]
  exact isNaN_mergedAt (InputSide.mem_concludingOf_truthsOf hrule) hnan y

end Mamdani.System

/-! ## Sugeno systems -/

namespace Sugeno.System

/-- **There is no mean if one of the rules has no truth**, and it is not zero either. -/
theorem isNaN_mean {s : System α} {readings : Readings α} {truths : List α} {o : OutputKey}
    {e : Rule × α} (he : e ∈ s.concluding truths o) (hnan : isNaN e.2) :
    isNaN (mean (s.sumsAt readings truths o)) := by
  have hweight : isNaN (s.sumsAt readings truths o).2 := by
    unfold sumsAt
    rw [foldl_countIn]
    exact SpreadsNaN.add.foldl (Or.inr ⟨e.2, List.mem_map_of_mem he, hnan⟩)
  unfold mean
  rw [SpreadsNaN.beq _ _ hweight]
  exact SpreadsNaN.div _ _ (Or.inr hweight)

/-- **The number for an output is no answer if one of its rules has no truth.** -/
theorem Consistent.isNaN_number {s : System α} {readings : Readings α} (hc : s.Consistent)
    {numbers : OrderedMap OutputKey α} (h : s.calculate readings = .ok numbers) {rule : Rule}
    (hrule : rule ∈ s.rules) (hnan : isNaN (s.inputSide.truthAt readings rule.condition)) :
    ∃ x, numbers.get? rule.conclusion.subject = some x ∧ isNaN x := by
  have houtput := Registry.mem_keys_iff.mpr (hc.rules rule hrule).subject
  refine ⟨_, hc.get?_of_calculate h houtput, ?_⟩
  exact isNaN_mean (InputSide.mem_concludingOf_truthsOf hrule) hnan

end Sugeno.System

/-! ## Both kinds -/

/-- **A rule that meets a term without an answer has no truth, and the output that it concludes no
number.** This is so in every reachable system, of either kind and with whatever methods, and
whatever the other rules and terms answer. -/
theorem reachable_nan :
    (∀ (s : Mamdani.System α) (readings : Readings α) numbers, Mamdani.Reachable s →
        s.calculate readings = .ok numbers →
        ∃ fuzzified truths, s.inputSide.fuzzify readings = .ok fuzzified
          ∧ s.truths fuzzified = .ok truths
          ∧ ∀ (i : Nat) rule, s.rules[i]? = some rule →
              s.inputSide.MeetsNaN readings rule.condition →
              (∃ truth, truths[i]? = some truth ∧ isNaN truth)
                ∧ ∃ x, numbers.get? rule.conclusion.subject = some x ∧ isNaN x)
      ∧ ∀ (s : Sugeno.System α) (readings : Readings α) numbers, Sugeno.Reachable s →
        s.calculate readings = .ok numbers →
        ∃ fuzzified truths, s.inputSide.fuzzify readings = .ok fuzzified
          ∧ s.truths fuzzified = .ok truths
          ∧ ∀ (i : Nat) rule, s.rules[i]? = some rule →
              s.inputSide.MeetsNaN readings rule.condition →
              (∃ truth, truths[i]? = some truth ∧ isNaN truth)
                ∧ ∃ x, numbers.get? rule.conclusion.subject = some x ∧ isNaN x := by
  constructor
  · intro s readings numbers h hnumbers
    have hc := h.consistent
    obtain ⟨-, hcheck, -⟩ := (hc.answers readings).accepted hnumbers
    refine ⟨_, s.truthsAt readings, InputSide.fuzzify_of_checkReadings hcheck,
      hc.inputSide.truths_eq_ok hc.conditions, fun i rule hi hmeets => ?_⟩
    have hnan := hmeets.isNaN_truthAt
    exact ⟨⟨_, InputSide.getElem?_truthsOf hi, hnan⟩,
      hc.isNaN_number hnumbers (List.mem_of_getElem? hi) hnan⟩
  · intro s readings numbers h hnumbers
    have hc := h.consistent
    obtain ⟨-, hcheck, -⟩ := (hc.answers readings).accepted hnumbers
    refine ⟨_, s.truthsAt readings, InputSide.fuzzify_of_checkReadings hcheck,
      hc.inputSide.truths_eq_ok hc.conditions, fun i rule hi hmeets => ?_⟩
    have hnan := hmeets.isNaN_truthAt
    exact ⟨⟨_, InputSide.getElem?_truthsOf hi, hnan⟩,
      hc.isNaN_number hnumbers (List.mem_of_getElem? hi) hnan⟩

end Spreads

/-! ## Whole numbers, unless they are unknown -/

/-- A whole number, or none. -/
inductive Measured where
  | number (n : Int)
  | unknown

namespace Measured

/-- An operation on whole numbers, strictly. -/
def strictly (op : Int → Int → Int) : Measured → Measured → Measured
  | number m, number n => number (op m n)
  | _, _ => unknown

/-- One of two whole numbers. Next to an unknown one it is the known one, whichever is asked for. -/
def choose (op : Int → Int → Int) : Measured → Measured → Measured
  | number m, number n => number (op m n)
  | unknown, v => v
  | u, unknown => u

/-- A comparison of whole numbers, which an unknown one never passes. -/
def compare (test : Int → Int → Bool) : Measured → Measured → Bool
  | number m, number n => test m n
  | _, _ => false

scoped instance : Scalar Measured where
  add := strictly (· + ·)
  sub := strictly (· - ·)
  mul := strictly (· * ·)
  div := strictly (· / ·)
  neg := strictly (· - ·) (number 0)
  le u v := compare (· ≤ ·) u v = true
  lt u v := compare (· < ·) u v = true
  beq := compare (· == ·)
  decidableLE := fun u v => inferInstanceAs (Decidable (compare (· ≤ ·) u v = true))
  decidableLT := fun u v => inferInstanceAs (Decidable (compare (· < ·) u v = true))
  ofNat n := number n
  nan := unknown
  lesser := choose min
  greater := choose max
  sqrt := id
  cbrt := id
  exp := id

theorem strict_strictly (op : Int → Int → Int) : Strict (strictly op) := by
  intro u v h
  cases u with
  | unknown => rfl
  | number m =>
    cases v with
    | unknown => rfl
    | number n =>
      -- both are known and equal to themselves
      rcases h with h | h <;> simp [isNaN, BEq.beq, compare] at h

scoped instance : SpreadsNaN Measured where
  nan := rfl
  add := strict_strictly _
  sub := strict_strictly _
  mul := strict_strictly _
  div := strict_strictly _
  sqrt := fun _ h => h
  cbrt := fun _ h => h
  beq := by
    intro u v h
    cases u with
    | unknown => rfl
    | number m => simp [isNaN, BEq.beq, compare] at h

end Measured

open Measured in
/-- An alarm for a full tank whose gauge may be out of order. -/
def alarming : List (Mamdani.Request Measured) :=
  [.addInput "level" 0 10, .addTerm ⟨1⟩ "high" id, .addTerm ⟨1⟩ "rising" fun _ => unknown,
   .addOutput "alarm" 0 10, .addTerm ⟨2⟩ "loud" id,
   .addRule ⟨⟨.combination .or false (.single ⟨⟨1⟩, ⟨1⟩, false, none⟩)
    [.single ⟨⟨1⟩, ⟨2⟩, true, some .very⟩], ⟨⟨2⟩, ⟨3⟩⟩⟩, 1⟩]

open Measured in
/-- A valve for the same tank. -/
def draining : List (Sugeno.Request Measured) :=
  [.addInput "level" 0 10, .addTerm ⟨1⟩ "high" id, .addTerm ⟨1⟩ "rising" fun _ => unknown,
   .addOutput "valve", .addFunction ⟨1⟩ "open" ⟨{}, 1⟩,
   .addRule ⟨.combination .or false (.single ⟨⟨1⟩, ⟨1⟩, false, none⟩)
    [.single ⟨⟨1⟩, ⟨2⟩, true, some .very⟩], ⟨⟨1⟩, ⟨1⟩⟩⟩]

open Measured in
theorem reachable_nan_alarming_and_draining :
    (∃ numbers, (Mamdani.run alarming (.ofSettings {})).calculate ⟨[(⟨1⟩, 7)]⟩ = .ok numbers
        ∧ ∃ x, numbers.get? ⟨2⟩ = some x ∧ isNaN x)
      ∧ ∃ numbers, (Sugeno.run draining (.ofSettings {})).calculate ⟨[(⟨1⟩, 7)]⟩ = .ok numbers
        ∧ ∃ x, numbers.get? ⟨1⟩ = some x ∧ isNaN x := by
  obtain ⟨hmamdani, hsugeno⟩ := reachable_nan (α := Measured)
  constructor
  · have h := Mamdani.reachable_run alarming (.start {})
    obtain ⟨numbers, hnumbers, -⟩ :=
      (h.consistent.answers ⟨[(⟨1⟩, 7)]⟩).numbers (by decide) rfl rfl
    obtain ⟨_, _, -, -, hnan⟩ := hmamdani _ _ numbers h hnumbers
    have hmeets := hnan 0 _ rfl ⟨⟨⟨1⟩, ⟨2⟩, true, some .very⟩, by decide, _, _, rfl, rfl, rfl⟩
    exact ⟨numbers, hnumbers, hmeets.2⟩
  · have h := Sugeno.reachable_run draining (.start {})
    obtain ⟨numbers, hnumbers, -⟩ :=
      (h.consistent.answers ⟨[(⟨1⟩, 7)]⟩).numbers (by decide) rfl rfl
    obtain ⟨_, _, -, -, hnan⟩ := hsugeno _ _ numbers h hnumbers
    have hmeets := hnan 0 _ rfl ⟨⟨⟨1⟩, ⟨2⟩, true, some .very⟩, by decide, _, _, rfl, rfl, rfl⟩
    exact ⟨numbers, hnumbers, hmeets.2⟩

end FuzzyInference
