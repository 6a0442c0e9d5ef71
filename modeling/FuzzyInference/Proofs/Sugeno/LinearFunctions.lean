import Mathlib.Algebra.BigOperators.Group.Finset.Basic
import FuzzyInference.Proofs.ExactNumbers
import FuzzyInference.Proofs.FirstFailure
import FuzzyInference.Proofs.Sugeno.Growth

/-!
# Linear functions

A system makes a linear function from pairs of variables and coefficients, or from
a list of numbers that go with its inputs in their order. The second way comes to
the first (`System.linearFunction_of_list`), and since no input is listed twice,
each number of the list stays with its input (`System.coefficient_of_list`).

What a function adds up are the entries of a map, which need neither be for all
inputs nor in their order. With exact numbers that makes no difference: an input
without an entry has the coefficient zero. So the sum can be taken over any
variables among which those of the entries are
(`LinearFunction.sumsOver_of_subset`), and inputs that a system gets later are just
more of them.
-/

namespace FuzzyInference.Sugeno

variable {α : Type}

/-! ## Functions of pairs -/

namespace LinearFunction

variable [Scalar α] {f : LinearFunction α}

/-- A variable without an entry has the coefficient zero. -/
theorem coefficient_eq_zero {key : VariableKey} (h : key ∉ f.coefficients.keys) :
    f.coefficient key = 0 := by
  unfold coefficient
  rw [OrderedMap.get?_eq_none_iff.mpr h]
  rfl

theorem coefficient_eq {key : VariableKey} {value : α}
    (h : f.coefficients.get? key = some value) : f.coefficient key = value := by
  unfold coefficient
  rw [h]
  rfl

end LinearFunction

namespace System

variable {s : System α} {pairs : List (VariableKey × α)} {constant : α} {f : LinearFunction α}

theorem checkInput_eq_ok_iff {key : VariableKey} :
    s.checkInput key = .ok () ↔ key ∈ s.inputSide.inputs := by
  unfold checkInput InputSide.isInput
  by_cases hinput : key ∈ s.inputSide.inputs
  · simp [hinput]
  · simp [hinput]

theorem checkInput_eq_error_iff {key : VariableKey} {e : Error α} :
    s.checkInput key = .error e
      ↔ key ∉ s.inputSide.inputs ∧ e = .foreignVariable (s.inputSide.table.nameOf key) := by
  unfold checkInput InputSide.isInput
  by_cases hinput : key ∈ s.inputSide.inputs
  · simp [hinput]
  · simp [hinput, eq_comm]

/-- **Pairs make a function if they are for inputs**, and it is as they say. -/
theorem linearFunction_eq_ok_iff :
    s.linearFunction pairs constant = .ok f
      ↔ (∀ e ∈ pairs, e.1 ∈ s.inputSide.inputs) ∧ f = ⟨.ofList pairs, constant⟩ := by
  have hchecks : (pairs.forM fun e => s.checkInput e.1) = .ok ()
      ↔ ∀ e ∈ pairs, e.1 ∈ s.inputSide.inputs := by
    simp only [InputSide.forM_eq_ok_iff, checkInput_eq_ok_iff]
  unfold linearFunction
  rw [bind_eq_ok_iff, ← hchecks]
  refine ⟨fun h => ?_, fun h => ?_⟩
  · obtain ⟨_, hok, h⟩ := h
    cases h
    exact ⟨hok, rfl⟩
  · obtain ⟨hok, rfl⟩ := h
    exact ⟨(), hok, rfl⟩

/-- **Otherwise the first pair that is not for an input is at fault.** -/
theorem linearFunction_eq_error_iff {e : Error α} :
    s.linearFunction pairs constant = .error e
      ↔ ∃ pair, IsFirst (fun pair => pair.1 ∉ s.inputSide.inputs) pairs pair
        ∧ e = .foreignVariable (s.inputSide.table.nameOf pair.1) := by
  unfold linearFunction
  rw [bind_eq_error_iff, forM_eq_error_iff_isFirst fun _ _ => checkInput_eq_error_iff]
  simp only [reduceCtorEq, and_false, exists_false, or_false]

theorem fails_linearFunction_iff :
    Fails (s.linearFunction pairs constant) ↔ ∃ e ∈ pairs, e.1 ∉ s.inputSide.inputs := by
  rw [← not_iff_not, not_fails_iff]
  simp only [linearFunction_eq_ok_iff, exists_and_left, exists_eq, and_true]
  push Not
  rfl

theorem keys_linearFunction (h : s.linearFunction pairs constant = .ok f) :
    f.coefficients.keys ⊆ s.inputSide.inputs := by
  obtain ⟨hinputs, rfl⟩ := linearFunction_eq_ok_iff.mp h
  intro key hkey
  obtain ⟨e, he, rfl⟩ := List.mem_map.mp (OrderedMap.mem_keys_ofList_iff.mp hkey)
  exact hinputs e he

/-! ## Functions of lists -/

variable [Scalar α] {values : List α}

/-- **A list makes a function if it is as long as the inputs, or longer by the constant.** -/
theorem linearFunctionOfList_eq (s : System α) (values : List α) :
    s.linearFunctionOfList values
      = if values.length = s.inputSide.inputs.length
          ∨ values.length = s.inputSide.inputs.length + 1 then
          .ok ⟨.ofList (s.inputSide.inputs.zip values),
            values[s.inputSide.inputs.length]?.getD 0⟩
        else .error (.coefficientCount s.inputSide.inputs.length values.length) := by
  have hlast : values[s.inputSide.inputs.length]? = (values.drop s.inputSide.inputs.length).head? :=
    List.head?_drop.symm
  have hlength : (values.drop s.inputSide.inputs.length).length
      = values.length - s.inputSide.inputs.length := List.length_drop
  unfold linearFunctionOfList
  rw [hlast]
  dsimp only
  -- how much longer the list is says which way is taken
  cases hdrop : values.drop s.inputSide.inputs.length with
  | nil =>
    rw [hdrop, List.length_nil] at hlength
    by_cases heq : values.length = s.inputSide.inputs.length
    · rw [if_pos heq, if_pos (Or.inl heq)]
      rfl
    · have hshort : ¬ (values.length = s.inputSide.inputs.length
          ∨ values.length = s.inputSide.inputs.length + 1) := by omega
      rw [if_neg heq, if_neg hshort]
  | cons last rest =>
    rw [hdrop, List.length_cons] at hlength
    cases rest with
    | nil =>
      have hone : values.length = s.inputSide.inputs.length + 1 := by
        rw [List.length_nil] at hlength
        omega
      rw [if_pos (Or.inr hone)]
      rfl
    | cons _ _ =>
      have hlong : ¬ (values.length = s.inputSide.inputs.length
          ∨ values.length = s.inputSide.inputs.length + 1) := by
        rw [List.length_cons] at hlength
        omega
      rw [if_neg hlong]

theorem linearFunctionOfList_eq_ok_iff :
    s.linearFunctionOfList values = .ok f
      ↔ (values.length = s.inputSide.inputs.length
          ∨ values.length = s.inputSide.inputs.length + 1)
        ∧ f = ⟨.ofList (s.inputSide.inputs.zip values),
            values[s.inputSide.inputs.length]?.getD 0⟩ := by
  rw [linearFunctionOfList_eq]
  split
  · rename_i hlength
    rw [Except.ok.injEq, and_iff_right hlength]
    exact eq_comm
  · rename_i hlength
    simp [hlength]

theorem linearFunctionOfList_eq_error_iff {e : Error α} :
    s.linearFunctionOfList values = .error e
      ↔ ¬ (values.length = s.inputSide.inputs.length
          ∨ values.length = s.inputSide.inputs.length + 1)
        ∧ e = .coefficientCount s.inputSide.inputs.length values.length := by
  rw [linearFunctionOfList_eq]
  split
  · rename_i hlength
    simp [hlength]
  · rename_i hlength
    rw [Except.error.injEq, and_iff_right hlength]
    exact eq_comm

/-- **A list comes to the pairs of inputs and numbers.** -/
theorem linearFunction_of_list (h : s.linearFunctionOfList values = .ok f) :
    s.linearFunction (s.inputSide.inputs.zip values)
      (values[s.inputSide.inputs.length]?.getD 0) = .ok f :=
  linearFunction_eq_ok_iff.mpr
    ⟨fun _ he => (List.of_mem_zip he).1, (linearFunctionOfList_eq_ok_iff.mp h).2⟩

/-- **Each number of a list is the coefficient of the input in its place.** No input is listed
again further on, where another number would replace it. -/
theorem coefficient_of_list (hnodup : s.inputSide.inputs.Nodup)
    (h : s.linearFunctionOfList values = .ok f) {i : Nat} {key : VariableKey} {value : α}
    (hkey : s.inputSide.inputs[i]? = some key) (hvalue : values[i]? = some value) :
    f.coefficient key = value := by
  obtain ⟨hlength, rfl⟩ := linearFunctionOfList_eq_ok_iff.mp h
  have hpairs : ((s.inputSide.inputs.zip values).map Prod.fst).Nodup := by
    rw [List.map_fst_zip (by omega)]
    exact hnodup
  have hmem : (key, value) ∈ s.inputSide.inputs.zip values :=
    List.mem_of_getElem? (List.getElem?_zip_eq_some.mpr ⟨hkey, hvalue⟩)
  refine LinearFunction.coefficient_eq
    ((OrderedMap.get?_eq_some_iff (OrderedMap.nodup_keys_ofList _)).mpr ?_)
  rw [OrderedMap.ofList_of_nodup hpairs]
  exact hmem

/-- A function that a system makes, in either way. -/
def Makes (s : System α) (f : LinearFunction α) : Prop :=
  (∃ pairs constant, s.linearFunction pairs constant = .ok f)
    ∨ ∃ values, s.linearFunctionOfList values = .ok f

theorem Makes.exists_pairs (h : s.Makes f) :
    ∃ pairs constant, s.linearFunction pairs constant = .ok f := by
  rcases h with hpairs | ⟨values, hlist⟩
  · exact hpairs
  · exact ⟨_, _, linearFunction_of_list hlist⟩

theorem Makes.nodup_keys (h : s.Makes f) : f.coefficients.keys.Nodup := by
  obtain ⟨pairs, _, hpairs⟩ := h.exists_pairs
  obtain ⟨-, rfl⟩ := linearFunction_eq_ok_iff.mp hpairs
  exact OrderedMap.nodup_keys_ofList pairs

theorem Makes.keys_subset (h : s.Makes f) : f.coefficients.keys ⊆ s.inputSide.inputs := by
  obtain ⟨_, _, hpairs⟩ := h.exists_pairs
  exact keys_linearFunction hpairs

/-- How a system makes linear functions. -/
structure MakesFunctions (s : System α) : Prop where
  /-- A list is taken exactly if it has a number for each input, or one more. -/
  list_taken : ∀ values : List α, (∃ f, s.linearFunctionOfList values = .ok f)
    ↔ values.length = s.inputSide.inputs.length ∨ values.length = s.inputSide.inputs.length + 1
  list_refused : ∀ (values : List α) (e : Error α), s.linearFunctionOfList values = .error e →
    e = .coefficientCount s.inputSide.inputs.length values.length
  /-- The function of a list is that of the pairs, and the constant is the number that is left. -/
  list_pairs : ∀ (values : List α) (f : LinearFunction α), s.linearFunctionOfList values = .ok f →
    s.linearFunction (s.inputSide.inputs.zip values)
      (values[s.inputSide.inputs.length]?.getD 0) = .ok f
  /-- No number of a list is lost or goes with another input. -/
  list_coefficient : ∀ (values : List α) (f : LinearFunction α),
    s.linearFunctionOfList values = .ok f → ∀ (i : Nat) (key : VariableKey) (value : α),
      s.inputSide.inputs[i]? = some key → values[i]? = some value → f.coefficient key = value
  /-- Pairs are refused exactly if one of them is not for an input. -/
  pairs_refused : ∀ (pairs : List (VariableKey × α)) (constant : α),
    (∃ e, s.linearFunction pairs constant = .error e)
      ↔ ∃ pair ∈ pairs, pair.1 ∉ s.inputSide.inputs
  /-- The first that is not for an input is named. -/
  pairs_fault : ∀ (pairs : List (VariableKey × α)) (constant : α) (e : Error α),
    s.linearFunction pairs constant = .error e ↔
      ∃ pair, IsFirst (fun pair => pair.1 ∉ s.inputSide.inputs) pairs pair
        ∧ e = .foreignVariable (s.inputSide.table.nameOf pair.1)
  pairs_constant : ∀ (pairs : List (VariableKey × α)) (constant : α) (f : LinearFunction α),
    s.linearFunction pairs constant = .ok f → f.constant = constant
  /-- Of several coefficients for an input the last counts. -/
  pairs_last : ∀ (before after : List (VariableKey × α)) (key : VariableKey) (value constant : α)
    (f : LinearFunction α), s.linearFunction (before ++ (key, value) :: after) constant = .ok f →
      key ∉ after.map Prod.fst → f.coefficient key = value
  /-- What has not been given a coefficient has the coefficient zero. -/
  pairs_other : ∀ (pairs : List (VariableKey × α)) (constant : α) (f : LinearFunction α),
    s.linearFunction pairs constant = .ok f → ∀ key ∉ pairs.map Prod.fst, f.coefficient key = 0

theorem makesFunctions (hnodup : s.inputSide.inputs.Nodup) : s.MakesFunctions where
  list_taken := fun values => by
    simp only [linearFunctionOfList_eq_ok_iff, exists_and_left, exists_eq, and_true]
  list_refused := fun _ _ h => (linearFunctionOfList_eq_error_iff.mp h).2
  list_pairs := fun _ _ => linearFunction_of_list
  list_coefficient := fun _ _ h _ _ _ => coefficient_of_list hnodup h
  pairs_refused := fun _ _ => fails_linearFunction_iff
  pairs_fault := fun _ _ _ => linearFunction_eq_error_iff
  pairs_constant := fun _ _ _ h => by rw [(linearFunction_eq_ok_iff.mp h).2]
  pairs_last := fun before after key value constant f h hlast => by
    rw [(linearFunction_eq_ok_iff.mp h).2]
    exact LinearFunction.coefficient_eq (OrderedMap.get?_ofList_of_last hlast)
  pairs_other := fun pairs constant f h key hkey => by
    rw [(linearFunction_eq_ok_iff.mp h).2]
    refine LinearFunction.coefficient_eq_zero fun hmem => hkey ?_
    exact OrderedMap.mem_keys_ofList_iff.mp hmem

end System

/-! ## What functions come to -/

section Values

variable [Exact α]

/-- **A sum over the entries of a map is one over keys**, over any keys among which those of the map
are. The others have no value and count for nothing. -/
theorem sum_entries_eq_sum_keys {κ : Type} [DecidableEq κ] {m : OrderedMap κ α} {keys : List κ}
    (hm : m.keys.Nodup) (hkeys : keys.Nodup) (hsubset : m.keys ⊆ keys) (g : κ → α) :
    (m.entries.map fun e => e.2 * g e.1).sum
      = (keys.map fun k => (m.get? k).getD 0 * g k).sum := by
  have hentries : (m.entries.map fun e => e.2 * g e.1)
      = m.keys.map fun k => (m.get? k).getD 0 * g k := by
    unfold OrderedMap.keys
    rw [List.map_map]
    refine List.map_congr_left fun e he => ?_
    rw [Function.comp_apply, (OrderedMap.get?_eq_some_iff hm).mpr he]
    rfl
  rw [hentries, ← List.sum_toFinset _ hm, ← List.sum_toFinset _ hkeys]
  refine Finset.sum_subset (fun k hk => ?_) fun k _ hk => ?_
  · exact List.mem_toFinset.mpr (hsubset (List.mem_toFinset.mp hk))
  · rw [List.mem_toFinset] at hk
    rw [OrderedMap.get?_eq_none_iff.mpr hk, Option.getD_none, zero_mul]

namespace LinearFunction

variable {f : LinearFunction α}

/-- The value of a function is the sum, over some variables, of the products of their coefficients
and readings, and of the constant. What has no reading counts as zero. -/
def SumsOver (f : LinearFunction α) (keys : List VariableKey) : Prop :=
  ∀ readings : Readings α, f.evaluate readings
    = (keys.map fun key => f.coefficient key * (readings.get? key).getD 0).sum + f.constant

/-- **A function may be summed over any variables among which its own are.** -/
theorem sumsOver_of_subset (hf : f.coefficients.keys.Nodup) {keys : List VariableKey}
    (hkeys : keys.Nodup) (hsubset : f.coefficients.keys ⊆ keys) : f.SumsOver keys := by
  intro readings
  have hsum := sum_entries_eq_sum_keys hf hkeys hsubset fun key => (readings.get? key).getD 0
  unfold evaluate OrderedMap.toList coefficient
  simp only [Exact.numeral_eq, Nat.cast_zero, Exact.sum_eq]
  rw [hsum]

/-- The order of the entries does not show. -/
theorem evaluate_of_perm {g : LinearFunction α} (hconstant : g.constant = f.constant)
    (hentries : g.coefficients.entries.Perm f.coefficients.entries) (readings : Readings α) :
    g.evaluate readings = f.evaluate readings := by
  unfold evaluate OrderedMap.toList
  rw [Exact.sum_eq, Exact.sum_eq, (hentries.map _).sum_eq, hconstant]

end LinearFunction

end Values

/-! ## Reachable systems -/

/-- **The two ways to make a linear function agree, and the function means what it says.** This is
about every reachable system, and about any numbers as far as making goes. With exact numbers, the
value of a function that a system has made is the sum over its inputs, and the sum over those that
it has after any further requests. Inputs that are new then count for nothing, and it makes no
difference in which order the map of a function lists its entries. -/
theorem reachable_linear_functions :
    (∀ (α : Type) [Scalar α] (s : System α), Reachable s → s.MakesFunctions)
      ∧ ∀ (α : Type) [Exact α] (s : System α), Reachable s → ∀ f, s.Makes f →
        f.SumsOver s.inputSide.inputs
        ∧ (∀ requests : List (Request α), f.SumsOver (run requests s).inputSide.inputs)
        ∧ (∀ key ∉ s.inputSide.inputs, f.coefficient key = 0)
        ∧ ∀ g : LinearFunction α, g.constant = f.constant →
            g.coefficients.entries.Perm f.coefficients.entries →
            ∀ readings, g.evaluate readings = f.evaluate readings := by
  refine ⟨fun α _ s h => System.makesFunctions h.consistent.inputs_nodup, fun α _ s h f hf => ?_⟩
  have hlater : ∀ requests : List (Request α),
      f.SumsOver (run requests s).inputSide.inputs := by
    intro requests
    have hc := (reachable_run requests h).consistent
    exact LinearFunction.sumsOver_of_subset hf.nodup_keys hc.inputs_nodup
      (List.Subset.trans hf.keys_subset (extends_run requests s).inputs)
  refine ⟨hlater [], hlater, fun key hkey => ?_, fun g hconstant hentries =>
    LinearFunction.evaluate_of_perm hconstant hentries⟩
  rw [LinearFunction.coefficient_eq_zero fun hmem => hkey (hf.keys_subset hmem), Exact.numeral_eq,
    Nat.cast_zero]

section Steadying

open RationalNumbers

/-- A system with inputs for an error and for its rate of change. -/
def steadying : System ℚ :=
  run [.addInput "error" (-20) 20, .addInput "rate" (-10) 10] (.ofSettings {})

/-- Twice the error less the rate, and one half more. -/
def damp : LinearFunction ℚ := ⟨⟨[(⟨1⟩, 2), (⟨2⟩, -1)]⟩, 1 / 2⟩

/-- A list makes the function, and so do its pairs; of two coefficients for the error the second
counts. A list that is too short is refused, and so is a load, as long as it is no input. Once it is
one, the function is worth neither more nor less. -/
theorem reachable_linear_functions_steadying :
    steadying.linearFunctionOfList [2, -1, 1 / 2] = .ok damp
      ∧ steadying.linearFunction [(⟨1⟩, 2), (⟨2⟩, -1)] (1 / 2) = .ok damp
      ∧ (∃ f, steadying.linearFunction [(⟨1⟩, 9), (⟨2⟩, -1), (⟨1⟩, 2)] (1 / 2) = .ok f
          ∧ f.coefficient ⟨1⟩ = 2)
      ∧ (¬ ∃ f, steadying.linearFunctionOfList [1] = .ok f)
      ∧ steadying.linearFunction [(⟨1⟩, 2), (⟨3⟩, 5)] 0
          = .error (.foreignVariable (steadying.inputSide.table.nameOf ⟨3⟩))
      ∧ (run [.addInput "load" 0 9] steadying).inputSide.inputs = [⟨1⟩, ⟨2⟩, ⟨3⟩]
      ∧ damp.evaluate ⟨[(⟨3⟩, 7), (⟨1⟩, 3 / 2)]⟩ = 7 / 2 := by
  have hreachable : Reachable steadying := reachable_run _ (.start {})
  have hlist : steadying.linearFunctionOfList [2, -1, 1 / 2] = .ok damp := rfl
  obtain ⟨hmaking, hvalues⟩ := reachable_linear_functions
  have hmakes := hmaking ℚ steadying hreachable
  obtain ⟨-, hlater, -⟩ := hvalues ℚ steadying hreachable damp (Or.inr ⟨_, hlist⟩)
  refine ⟨hlist, hmakes.list_pairs _ _ hlist, ⟨_, rfl, ?_⟩, ?_, ?_, rfl, ?_⟩
  · exact hmakes.pairs_last [(⟨1⟩, 9), (⟨2⟩, -1)] [] ⟨1⟩ 2 (1 / 2) _ rfl List.not_mem_nil
  · exact fun htaken => absurd ((hmakes.list_taken [1]).mp htaken) (by decide)
  · refine (hmakes.pairs_fault _ _ _).mpr ⟨(⟨3⟩, 5), ?_, rfl⟩
    exact ⟨[(⟨1⟩, 2)], [], rfl, by decide, by decide⟩
  · exact (hlater [.addInput "load" 0 9] _).trans (by decide +kernel)

end Steadying

end FuzzyInference.Sugeno
