import FuzzyInference.Proofs.Mamdani.Consistency
import FuzzyInference.Proofs.Truths

/-!
# What a Mamdani system calculates

A calculation goes through stages, and what one stage hands to the next are maps,
and lists that have to be in step with the rules. The result can be said without
any of it. At each number, an output is a member to the degree that is folded
from those rules that conclude it (`mergedAt`); the number for the output is the
center of gravity of that.

What makes the two agree is that a map that is changed for one rule after the
other has, for one output, been changed for the rules that conclude it
(`get?_aggregate`). No stage looks at the order in which a map lists its entries
(`Consistent.calculateIn_agree`).
-/

namespace FuzzyInference

/-- Functions that are folded in one after the other are listed in that order. -/
theorem Composite.foldl_push {α γ : Type} (l : List γ) (f : γ → α → α) (c : Composite α) :
    l.foldl (fun c a => c.push (f a)) c = { c with functions := c.functions ++ l.map f } := by
  induction l generalizing c with
  | nil => rw [List.foldl_nil, List.map_nil, List.append_nil]
  | cons a l ih =>
    rw [List.foldl_cons, ih]
    unfold Composite.push
    rw [List.map_cons, List.append_assoc, List.singleton_append]

/-- A list stays in step with what is made of it and of a second list. -/
theorem zip_map_zip {β γ δ : Type} (l : List β) (m : List γ) (f : β × γ → δ) :
    l.zip ((l.zip m).map f) = (l.zip m).map fun e => (e.1, f e) := by
  induction l generalizing m with
  | nil => rfl
  | cons b l ih =>
    cases m with
    | nil => rfl
    | cons c m => rw [List.zip_cons_cons, List.map_cons, List.zip_cons_cons, ih, List.map_cons]

namespace Mamdani

variable {α : Type}

namespace System

variable [Scalar α] {s : System α} {readings : Readings α}

/-! ## Without stages -/

/-- The truth of every rule at some readings. -/
def truthsAt (s : System α) (readings : Readings α) : List α :=
  s.inputSide.truthsOf (·.condition) s.rules readings

/-- The rules that have a truth and conclude an output, with their truths. -/
def concluding (s : System α) (truths : List α) (o : VariableKey) : List (Rule α × α) :=
  concludingOf (·.conclusion.subject) s.rules truths o

/-- The degree at `y` of the term that a rule concludes, limited by a truth. -/
def limitedAt (s : System α) (rule : Rule α) (truth y : α) : α :=
  s.implication.composition.apply truth (s.table.membershipOf rule.conclusion.value y)

/-- The degree at `y` that the rules which conclude an output come to, in the order of the rules,
and zero if there are none. -/
def mergedAt (s : System α) (truths : List α) (o : VariableKey) (y : α) : α :=
  match (s.concluding truths o).map fun e => s.limitedAt e.1 e.2 y with
  | [] => 0
  | first :: rest => rest.foldl s.aggregation.composition.apply first

/-! ## Limited terms -/

/-- The term that a rule concludes, limited by a truth, as a function. -/
def limited (s : System α) (rule : Rule α) (truth : α) : Composite α :=
  ⟨s.implication.composition, [fun _ => truth, s.table.membershipOf rule.conclusion.value]⟩

/-- The limited terms of the rules that have a truth, in the order of the rules. -/
def limitedTerms (s : System α) (truths : List α) : List (Composite α) :=
  (s.rules.zip truths).map fun e => s.limited e.1 e.2

/-- **Each rule that has a truth gets its limited term.** -/
theorem Consistent.implicate_eq_ok (hc : s.Consistent) (truths : List α) :
    s.implicate truths = .ok (s.limitedTerms truths) := by
  refine mapM_eq_ok fun e he => ?_
  obtain ⟨rule, truth⟩ := e
  have hrule : rule ∈ s.rules := (List.of_mem_zip he).1
  obtain ⟨term, hterm, -⟩ := (hc.rules rule hrule).value
  show s.limit rule truth = .ok (s.limited rule truth)
  unfold limit limited VariableTable.membershipOf
  rw [hterm]

/-! ## Merged terms -/

/-- What outputs start with before any rule is counted. -/
def unmerged (s : System α) : Composite α := { method := s.aggregation.composition }

theorem Consistent.aggregate_eq (hc : s.Consistent) (implicated : List (Composite α)) :
    s.aggregate implicated
      = (s.rules.zip implicated).foldl
          (fun m e => m.modify e.1.conclusion.subject (·.push e.2.value))
          ⟨s.outputs.map fun o => (o, s.unmerged)⟩ := by
  have hstart : OrderedMap.ofList (s.outputs.map fun o => (o, s.unmerged))
      = ⟨s.outputs.map fun o => (o, s.unmerged)⟩ := by
    refine OrderedMap.ofList_of_nodup ?_
    rw [List.map_map]
    exact (List.map_id s.outputs).symm ▸ hc.outputs_nodup
  rw [← hstart]
  rfl

/-- **Every output has a merged term, and nothing else has one.** -/
theorem Consistent.keys_aggregate (hc : s.Consistent) (implicated : List (Composite α)) :
    (s.aggregate implicated).keys = s.outputs := by
  rw [hc.aggregate_eq]
  exact (OrderedMap.keys_foldl_modify ..).trans (OrderedMap.keys_tabulate _ _)

/-- The limited terms of the rules that conclude an output, merged. -/
def merged (s : System α) (truths : List α) (o : VariableKey) : Composite α :=
  ⟨s.aggregation.composition, (s.concluding truths o).map fun e => (s.limited e.1 e.2).value⟩

theorem value_merged (truths : List α) (o : VariableKey) (y : α) :
    (s.merged truths o).value y = s.mergedAt truths o y := by
  unfold merged Composite.value mergedAt
  rw [List.map_map]
  rfl

/-- **The merged term of an output comes from the rules that conclude it**, each with the truth in
its place. -/
theorem Consistent.get?_aggregate (hc : s.Consistent) (truths : List α) {o : VariableKey}
    (ho : o ∈ s.outputs) :
    (s.aggregate (s.limitedTerms truths)).get? o = some (s.merged truths o) := by
  have hget := OrderedMap.get?_foldl_modify
    ((s.rules.zip truths).map fun e => (e.1, s.limited e.1 e.2))
    (fun e => e.1.conclusion.subject) (fun c e => c.push e.2.value)
    ⟨s.outputs.map fun o => (o, s.unmerged)⟩ o
  rw [OrderedMap.get?_tabulate ho, Option.map_some, Composite.foldl_push, List.filter_map,
    List.map_map] at hget
  rw [hc.aggregate_eq, limitedTerms, zip_map_zip]
  exact hget

/-! ## Numbers -/

/-- The center of gravity of a membership over the domain of a variable. -/
def centerOver (s : System α) (o : VariableKey) (membership : α → α) : α :=
  match s.table.variableAt? o with
  | some v => centerOfGravity membership v.min v.max
  | none => Scalar.nan

/-- **An output gets a center of gravity, or the method is not available.** -/
theorem Consistent.crisp_eq (hc : s.Consistent) {o : VariableKey} (ho : o ∈ s.outputs)
    (merged : Composite α) :
    s.crisp o merged
      = if s.defuzzification = .centroid then .ok (s.centerOver o merged.value)
        else .error (.unsupportedDefuzzification s.defuzzification) := by
  obtain ⟨v, hv⟩ := hc.exists_output ho
  unfold crisp centerOver
  rw [hv]
  cases s.defuzzification <;> rfl

variable {aggregated : OrderedMap VariableKey (Composite α)}

theorem Consistent.defuzzify_centroid (hc : s.Consistent) (hmethod : s.defuzzification = .centroid)
    (hkeys : ∀ o ∈ aggregated.keys, o ∈ s.outputs) :
    s.defuzzify aggregated
      = .ok ⟨aggregated.entries.map fun e => (e.1, s.centerOver e.1 e.2.value)⟩ := by
  unfold defuzzify
  show (aggregated.entries.mapM _ >>= _) = _
  rw [mapM_eq_ok (g := fun e => (e.1, s.centerOver e.1 e.2.value)) ?_]
  · rfl
  · intro e he
    obtain ⟨o, merged⟩ := e
    have ho : o ∈ s.outputs := hkeys o (OrderedMap.mem_keys_of_mem he)
    show (s.crisp o merged >>= _) = _
    rw [hc.crisp_eq ho, if_pos hmethod, ok_bind]

theorem Consistent.defuzzify_unsupported (hc : s.Consistent)
    (hmethod : s.defuzzification ≠ .centroid) (hne : aggregated.keys ≠ [])
    (hkeys : ∀ o ∈ aggregated.keys, o ∈ s.outputs) :
    s.defuzzify aggregated = .error (.unsupportedDefuzzification s.defuzzification) := by
  have hentries : aggregated.entries ≠ [] := by
    intro h
    rw [OrderedMap.keys, h] at hne
    exact hne rfl
  unfold defuzzify
  show (aggregated.entries.mapM _ >>= _) = _
  rw [mapM_eq_error (e := .unsupportedDefuzzification s.defuzzification) hentries ?_, error_bind]
  intro e he
  obtain ⟨o, merged⟩ := e
  have ho : o ∈ s.outputs := hkeys o (OrderedMap.mem_keys_of_mem he)
  show (s.crisp o merged >>= _) = _
  rw [hc.crisp_eq ho, if_neg hmethod, error_bind]

/-! ## The calculation -/

/-- A calculation limits and merges terms by the truths of rules, and makes numbers of them. -/
theorem calculate_eq_calculateBy (s : System α) (readings : Readings α) :
    s.calculate readings
      = s.inputSide.calculateBy (·.condition) s.rules
          (fun truths => s.implicate truths >>= fun implicated =>
            s.defuzzify (s.aggregate implicated))
          readings := rfl

/-- **From accepted readings the last stage gets what the rules come to at these readings.** -/
theorem Consistent.calculate_eq (hc : s.Consistent) (hrules : s.rules ≠ [])
    (h : s.inputSide.checkReadings readings = .ok ()) :
    s.calculate readings
      = s.defuzzify (s.aggregate (s.limitedTerms (s.truthsAt readings))) := by
  rw [calculate_eq_calculateBy, hc.inputSide.calculateBy_eq hc.conditions hrules h,
    hc.implicate_eq_ok, ok_bind]
  rfl

/-- **Every output gets the center of gravity of what the rules come to.** -/
theorem Consistent.calculate_centroid (hc : s.Consistent) (hrules : s.rules ≠ [])
    (h : s.inputSide.checkReadings readings = .ok ()) (hmethod : s.defuzzification = .centroid) :
    ∃ numbers, s.calculate readings = .ok numbers ∧ numbers.keys = s.outputs
      ∧ ∀ o ∈ s.outputs, numbers.get? o
          = some (s.centerOver o (s.merged (s.truthsAt readings) o).value) := by
  have hkeys := hc.keys_aggregate (s.limitedTerms (s.truthsAt readings))
  have hdefuzzify := hc.defuzzify_centroid hmethod (fun o ho => hkeys ▸ ho)
  let number : VariableKey → Composite α → α := fun o merged => s.centerOver o merged.value
  refine ⟨_, (hc.calculate_eq hrules h).trans hdefuzzify, ?_, fun o ho => ?_⟩
  · exact (OrderedMap.keys_map_entries number _).trans hkeys
  · rw [OrderedMap.get?_map_entries number, hc.get?_aggregate _ ho]
    rfl

/-- The centers of gravity, written out. -/
theorem Consistent.calculate_centers (hc : s.Consistent) (hrules : s.rules ≠ [])
    (h : s.inputSide.checkReadings readings = .ok ()) (hmethod : s.defuzzification = .centroid) :
    ∃ numbers, s.calculate readings = .ok numbers ∧ numbers.keys = s.outputs
      ∧ ∀ o ∈ s.outputs, ∃ v, s.table.variableAt? o = some v
          ∧ numbers.get? o = some
              (Numeric.simpson (fun y => y * s.mergedAt (s.truthsAt readings) o y) v.min v.max 50
                / Numeric.simpson (s.mergedAt (s.truthsAt readings) o) v.min v.max 50) := by
  obtain ⟨numbers, hcalculate, hkeys, hget⟩ := hc.calculate_centroid hrules h hmethod
  refine ⟨numbers, hcalculate, hkeys, fun o ho => ?_⟩
  obtain ⟨v, hv⟩ := hc.exists_output ho
  have hmerged : (s.merged (s.truthsAt readings) o).value = s.mergedAt (s.truthsAt readings) o :=
    funext (value_merged _ o)
  have hcenter := hget o ho
  rw [centerOver, hv, hmerged] at hcenter
  exact ⟨v, hv, hcenter⟩

theorem Consistent.outputs_ne_nil (hc : s.Consistent) (hrules : s.rules ≠ []) : s.outputs ≠ [] := by
  obtain ⟨rule, hrule⟩ := List.exists_mem_of_ne_nil s.rules hrules
  exact List.ne_nil_of_mem (hc.rules rule hrule).subject

theorem Consistent.calculate_unsupported (hc : s.Consistent) (hrules : s.rules ≠ [])
    (h : s.inputSide.checkReadings readings = .ok ()) (hmethod : s.defuzzification ≠ .centroid) :
    s.calculate readings = .error (.unsupportedDefuzzification s.defuzzification) := by
  have hkeys := hc.keys_aggregate (s.limitedTerms (s.truthsAt readings))
  rw [hc.calculate_eq hrules h]
  refine hc.defuzzify_unsupported hmethod ?_ fun o ho => hkeys ▸ ho
  rw [hkeys]
  exact hc.outputs_ne_nil hrules

/-! ## The order of entries -/

/-- An order for each map of a calculation, in which it lists its entries. -/
structure Orders (α : Type) where
  readings : Readings α → Readings α
  degrees : Fuzzified α → Fuzzified α
  merged : OrderedMap VariableKey (Composite α) → OrderedMap VariableKey (Composite α)
  readings_perm : ∀ m, (readings m).entries.Perm m.entries
  degrees_perm : ∀ m, (degrees m).entries.Perm m.entries
  merged_perm : ∀ m, (merged m).entries.Perm m.entries

/-- Every map backwards. -/
def Orders.backwards : Orders α where
  readings m := ⟨m.entries.reverse⟩
  degrees m := ⟨m.entries.reverse⟩
  merged m := ⟨m.entries.reverse⟩
  readings_perm := fun m => m.entries.reverse_perm
  degrees_perm := fun m => m.entries.reverse_perm
  merged_perm := fun m => m.entries.reverse_perm

/-- The calculation with each map in an order of its own before it is used. -/
def calculateIn (orders : Orders α) (s : System α) (readings : Readings α) :
    Except (Error α) (OrderedMap VariableKey α) :=
  if s.rules.isEmpty then .error .noRules
  else do
    let fuzzified ← s.inputSide.fuzzify (orders.readings readings)
    let truths ← s.truths (orders.degrees fuzzified)
    let implicated ← s.implicate truths
    s.defuzzify (orders.merged (s.aggregate implicated))

/-- The same refusal, or the same numbers, in whatever order they are listed. -/
inductive Agree : Except (Error α) (OrderedMap VariableKey α) →
    Except (Error α) (OrderedMap VariableKey α) → Prop
  | refused (e : Error α) : Agree (.error e) (.error e)
  | numbers {m m' : OrderedMap VariableKey α} (h : m'.entries.Perm m.entries) :
      Agree (.ok m') (.ok m)

theorem Consistent.defuzzify_perm (hc : s.Consistent)
    {aggregated' : OrderedMap VariableKey (Composite α)}
    (hkeys : ∀ o ∈ aggregated.keys, o ∈ s.outputs)
    (hp : aggregated'.entries.Perm aggregated.entries) :
    Agree (s.defuzzify aggregated') (s.defuzzify aggregated) := by
  have hpkeys : aggregated'.keys.Perm aggregated.keys := hp.map Prod.fst
  have hkeys' : ∀ o ∈ aggregated'.keys, o ∈ s.outputs :=
    fun o ho => hkeys o (hpkeys.mem_iff.mp ho)
  by_cases hmethod : s.defuzzification = .centroid
  · rw [hc.defuzzify_centroid hmethod hkeys, hc.defuzzify_centroid hmethod hkeys']
    exact .numbers (hp.map _)
  · by_cases hne : aggregated.keys = []
    · -- without outputs both maps are empty
      have hentries : aggregated.entries = [] := List.map_eq_nil_iff.mp hne
      have hentries' : aggregated'.entries = [] := List.Perm.eq_nil (hentries ▸ hp)
      unfold defuzzify OrderedMap.toList
      rw [hentries, hentries']
      exact .numbers (.refl _)
    · have hne' : aggregated'.keys ≠ [] := fun h => hne (List.Perm.eq_nil (h ▸ hpkeys.symm))
      rw [hc.defuzzify_unsupported hmethod hne hkeys, hc.defuzzify_unsupported hmethod hne' hkeys']
      exact .refused _

/-- **The order in which maps list their entries changes no number.** -/
theorem Consistent.calculateIn_agree (hc : s.Consistent) (orders : Orders α)
    (hnodup : readings.keys.Nodup) :
    Agree (s.calculateIn orders readings) (s.calculate readings) := by
  have hreadings := orders.readings_perm readings
  have hfuzzify : s.inputSide.fuzzify (orders.readings readings) = s.inputSide.fuzzify readings :=
    InputSide.fuzzify_congr hreadings.length_eq
      fun k => OrderedMap.get?_eq_of_perm hnodup hreadings
  unfold calculateIn calculate
  split
  · exact .refused _
  rw [hfuzzify]
  cases hdegrees : s.inputSide.fuzzify readings with
  | error e => exact .refused e
  | ok fuzzified =>
    have htruths : s.truths (orders.degrees fuzzified) = s.truths fuzzified :=
      InputSide.truths_congr
        (fun k => OrderedMap.get?_eq_of_perm (InputSide.nodup_keys_of_fuzzify hdegrees)
          (orders.degrees_perm fuzzified)) _
    rw [ok_bind, ok_bind, htruths]
    cases s.truths fuzzified with
    | error e => exact .refused e
    | ok truths =>
      rw [ok_bind, ok_bind, hc.implicate_eq_ok, ok_bind, ok_bind]
      refine hc.defuzzify_perm (fun o ho => ?_) (orders.merged_perm _)
      rwa [hc.keys_aggregate] at ho

end System

/-! ## Reachable systems -/

variable [Scalar α]

open Numeric in
/-- **A calculation is what its rules say.** For whatever truths, an output is a member, at each
number, to the degree that is folded from the rules that conclude it. From accepted readings every
output gets the center of gravity of that, for the truths that its rules have at the readings
themselves. And nothing depends on the order in which maps list their entries. -/
theorem reachable_centers_of_gravity {s : System α} (h : Reachable s) :
    (∀ truths, ∃ implicated, s.implicate truths = .ok implicated
        ∧ (s.aggregate implicated).keys = s.outputs
        ∧ ∀ o ∈ s.outputs, ∃ merged, (s.aggregate implicated).get? o = some merged
            ∧ ∀ y, merged.value y = s.mergedAt truths o y)
      ∧ (∀ readings, s.rules ≠ [] → s.defuzzification = .centroid →
          s.inputSide.checkReadings readings = .ok () →
          ∃ numbers, s.calculate readings = .ok numbers ∧ numbers.keys = s.outputs
            ∧ ∀ o ∈ s.outputs, ∃ v, s.table.variableAt? o = some v
                ∧ numbers.get? o = some
                    (simpson (fun y => y * s.mergedAt (s.truthsAt readings) o y) v.min v.max 50
                      / simpson (s.mergedAt (s.truthsAt readings) o) v.min v.max 50))
      ∧ ∀ (orders : System.Orders α) (readings : Readings α), readings.keys.Nodup →
          System.Agree (s.calculateIn orders readings) (s.calculate readings) := by
  have hc := h.consistent
  refine ⟨fun truths => ?_,
    fun readings hrules hmethod hcheck => hc.calculate_centers hrules hcheck hmethod,
    fun orders readings hnodup => hc.calculateIn_agree orders hnodup⟩
  refine ⟨_, hc.implicate_eq_ok truths, hc.keys_aggregate _, fun o ho => ?_⟩
  exact ⟨_, hc.get?_aggregate truths ho, System.value_merged truths o⟩

open WholeNumbers in
/-- A system that turns up a fan, and has a lamp that no rule is about. -/
def ventilating : List (Request Int) :=
  [.addInput "temperature" 0 40, .addTerm ⟨1⟩ "warm" id, .addOutput "fan" 0 300,
   .addTerm ⟨2⟩ "fast" id, .addOutput "lamp" 0 300,
   .addRule ⟨⟨.single ⟨⟨1⟩, ⟨1⟩, false, none⟩, ⟨⟨2⟩, ⟨2⟩⟩⟩, 1⟩]

open WholeNumbers in
theorem reachable_centers_of_gravity_ventilating :
    ∃ numbers, (run ventilating (.ofSettings {})).calculate ⟨[(⟨1⟩, 30)]⟩ = .ok numbers
      ∧ numbers.get? ⟨2⟩ = some 157
      ∧ System.Agree ((run ventilating (.ofSettings {})).calculateIn .backwards ⟨[(⟨1⟩, 30)]⟩)
          (.ok numbers) := by
  obtain ⟨-, hcalculate, horders⟩ :=
    reachable_centers_of_gravity (reachable_run ventilating (.start {}))
  obtain ⟨numbers, h, -, hget⟩ := hcalculate ⟨[(⟨1⟩, 30)]⟩ (by decide) rfl rfl
  obtain ⟨v, hv, hnumber⟩ := hget ⟨2⟩ (by decide)
  cases hv
  have hvalue := hnumber.trans (by decide +kernel : _ = some (157 : Int))
  exact ⟨numbers, h, hvalue, h ▸ horders .backwards ⟨[(⟨1⟩, 30)]⟩ (by decide)⟩

end Mamdani

end FuzzyInference
