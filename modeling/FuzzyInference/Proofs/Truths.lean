import FuzzyInference.Proofs.Additions
import Mathlib.Data.List.Perm.Basic

/-!
# The truths of rules

Both kinds of system go the same way from readings to the truths of their rules,
and both ask for an output which of the rules conclude it. For that it does not
matter what rules are and what they conclude, as long as each has a condition and
is about an output. So all this is said here once, for lists of whatever has a
condition and a subject.

A calculation goes on from the truths in the way of its kind (`calculateBy`).
Readings that are accepted lead it to the truths that the rules have at these
readings, with no more to be said of what comes in between
(`Consistent.calculateBy_eq`).
-/

namespace FuzzyInference

variable {ρ ω γ : Type}

/-! ## Rules with their truths -/

/-- The rules that have a truth and conclude an output, with their truths. -/
def concludingOf [DecidableEq ω] (subject : ρ → ω) (rules : List ρ) (truths : List γ) (o : ω) :
    List (ρ × γ) :=
  (rules.zip truths).filter fun e => subject e.1 = o

/-- Rules with what is made of each, for one output, are the rules for this output. -/
theorem concludingOf_map [DecidableEq ω] (subject : ρ → ω) (rules : List ρ) (f : ρ → γ) (o : ω) :
    concludingOf subject rules (rules.map f) o
      = (rules.filter (subject · = o)).map fun rule => (rule, f rule) := by
  unfold concludingOf
  rw [← List.map_prod_left_eq_zip, List.filter_map]
  rfl

/-- A member at some position comes first in some order, and the others follow. -/
theorem exists_cons_eraseIdx_perm {l : List ρ} {f : ρ → γ} {i : Nat} {v : γ}
    (h : (l.map f)[i]? = some v) : ∃ a, f a = v ∧ (a :: l.eraseIdx i).Perm l := by
  rw [List.getElem?_map] at h
  obtain ⟨a, ha, hv⟩ := Option.map_eq_some_iff.mp h
  obtain ⟨hlt, rfl⟩ := List.getElem?_eq_some_iff.mp ha
  exact ⟨l[i], hv, List.getElem_cons_eraseIdx_perm hlt⟩

/-- If there are two members at least, one can be left out. -/
theorem eraseIdx_eq_nil_iff_eq_nil {l : List ρ} (h : 2 ≤ l.length) (i : Nat) :
    l.eraseIdx i = [] ↔ l = [] :=
  List.eraseIdx_eq_nil_iff.trans (or_iff_left fun hone => by omega)

namespace InputSide

variable {α : Type} [Scalar α] {s t : InputSide α} {condition : ρ → Condition}
  {rules rules' more : List ρ} {readings : Readings α}

/-- The truth of every rule at some readings. -/
def truthsOf (s : InputSide α) (condition : ρ → Condition) (rules : List ρ)
    (readings : Readings α) : List α :=
  rules.map fun rule => s.truthAt readings (condition rule)

theorem getElem?_truthsOf {i : Nat} {rule : ρ} (h : rules[i]? = some rule) :
    (s.truthsOf condition rules readings)[i]? = some (s.truthAt readings (condition rule)) := by
  unfold truthsOf
  rw [List.getElem?_map, h]
  rfl

/-- **Rules with admitted conditions have truths, and these come from the readings**, one for each
rule and in the same order. -/
theorem Consistent.truths_eq_ok (hc : s.Consistent)
    (hadmits : ∀ rule ∈ rules, s.Admits (condition rule)) :
    s.truths (OrderedMap.ofList (s.degrees readings)) (rules.map condition)
      = .ok (s.truthsOf condition rules readings) := by
  have hevaluate : ∀ c ∈ rules.map condition,
      s.evaluate (OrderedMap.ofList (s.degrees readings)) c = .ok (s.truthAt readings c) := by
    intro c hmem
    obtain ⟨rule, hrule, rfl⟩ := List.mem_map.mp hmem
    exact hc.evaluate_of_admits (hadmits rule hrule)
  unfold truths
  rw [mapM_eq_ok hevaluate, List.map_map]
  rfl

section Concluding

variable [DecidableEq ω] {subject : ρ → ω} {o : ω}

/-- At the readings, rules have the truths of their conditions. -/
theorem concludingOf_truthsOf :
    concludingOf subject rules (s.truthsOf condition rules readings) o
      = (rules.filter (subject · = o)).map fun rule =>
          (rule, s.truthAt readings (condition rule)) :=
  concludingOf_map ..

theorem mem_concludingOf_truthsOf {rule : ρ} (h : rule ∈ rules) :
    (rule, s.truthAt readings (condition rule))
      ∈ concludingOf subject rules (s.truthsOf condition rules readings) (subject rule) := by
  rw [concludingOf_truthsOf]
  exact List.mem_map_of_mem (List.mem_filter.mpr ⟨h, decide_eq_true rfl⟩)

/-- **The rules of an output are as true as they were**, and there are no others unless new ones
conclude it. -/
theorem Keeps.concludingOf_eq (h : s.Keeps t) (hrules : rules' = rules ++ more)
    (hadmits : ∀ rule ∈ rules, s.Admits (condition rule))
    (hmore : ∀ rule ∈ more, subject rule ≠ o) :
    concludingOf subject rules' (t.truthsOf condition rules' readings) o
      = concludingOf subject rules (s.truthsOf condition rules readings) o := by
  have hnone : more.filter (subject · = o) = [] := by
    refine List.filter_eq_nil_iff.mpr fun rule hrule => ?_
    rw [decide_eq_true_iff]
    exact hmore rule hrule
  rw [concludingOf_truthsOf, concludingOf_truthsOf, hrules, List.filter_append, hnone,
    List.append_nil]
  refine List.map_congr_left fun rule hrule => ?_
  rw [h.truthAt (hadmits rule (List.mem_of_mem_filter hrule))]

end Concluding

/-! ## Calculations -/

variable {finish : List α → Except (Error α) γ}

/-- A calculation that makes something of the truths of rules, if there are any. -/
def calculateBy (s : InputSide α) (condition : ρ → Condition) (rules : List ρ)
    (finish : List α → Except (Error α) γ) (readings : Readings α) : Except (Error α) γ :=
  if rules.isEmpty then .error .noRules
  else do
    let fuzzified ← s.fuzzify readings
    let truths ← s.truths fuzzified (rules.map condition)
    finish truths

theorem calculateBy_noRules (hrules : rules = []) :
    s.calculateBy condition rules finish readings = .error .noRules := by
  rw [hrules]
  rfl

theorem calculateBy_of_ne_nil (hrules : rules ≠ []) :
    s.calculateBy condition rules finish readings
      = s.fuzzify readings >>= fun fuzzified =>
          s.truths fuzzified (rules.map condition) >>= finish := by
  unfold calculateBy
  rw [if_neg (fun h => hrules (List.isEmpty_iff.mp h))]

theorem calculateBy_refused (hrules : rules ≠ []) {e : Error α}
    (h : s.checkReadings readings = .error e) :
    s.calculateBy condition rules finish readings = .error e := by
  rw [calculateBy_of_ne_nil hrules, fuzzify, h]
  rfl

/-- **From accepted readings a calculation goes on with the truths at these readings.** -/
theorem Consistent.calculateBy_eq (hc : s.Consistent)
    (hadmits : ∀ rule ∈ rules, s.Admits (condition rule)) (hrules : rules ≠ [])
    (h : s.checkReadings readings = .ok ()) :
    s.calculateBy condition rules finish readings
      = finish (s.truthsOf condition rules readings) := by
  rw [calculateBy_of_ne_nil hrules, fuzzify_of_checkReadings h, ok_bind,
    hc.truths_eq_ok hadmits, ok_bind]

end InputSide

end FuzzyInference
