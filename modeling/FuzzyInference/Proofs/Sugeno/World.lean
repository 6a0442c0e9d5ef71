import FuzzyInference.Proofs.Sugeno.LinearFunctions
import Mathlib.Logic.Function.Basic

/-!
# Systems side by side

Linear functions are values. A system that is asked for one checks that its
coefficients are for inputs, and gives it away; nothing keeps it from being
attached to an output of another system, which has other inputs. Keys do not
tell: they are numbers, and another system may have a variable of this number or
none at all.

So several systems are looked at together (`World`), with a record of which of
them has made which function. What follows from the check is about the maker: an
attached function has been made by one of the systems, and has coefficients for
inputs of that one (`World.Reachable.sound`). It says nothing of the system that
the function is attached to (`not_forall_attached_own`), since the coefficients
are not looked at then (`System.map_addFunction_eq`).
-/

namespace FuzzyInference.Sugeno

variable {α : Type} [Scalar α]

/-! ## Making functions -/

/-- A function that comes out of a request is one that the system makes. -/
theorem makes_of_outcome {s t : System α} {request : Request α} {f : LinearFunction α}
    (h : request.outcome s = .ok (.function f, t)) : s.Makes f := by
  cases request with
  | linearFunction coefficients constant =>
    obtain ⟨_, hmade, h⟩ := map_eq_ok_iff.mp h
    cases h
    exact Or.inl ⟨coefficients, constant, hmade⟩
  | linearFunctionOfList values =>
    obtain ⟨_, hmade, h⟩ := map_eq_ok_iff.mp h
    cases h
    exact Or.inr ⟨values, hmade⟩
  | set setting => cases h
  | _ =>
    -- all other requests are answered with something else
    obtain ⟨_, -, h⟩ := map_eq_ok_iff.mp h
    cases h

/-- **A function has coefficients for inputs of the system that makes it.** -/
theorem keys_subset_of_outcome {s t : System α} {request : Request α} {f : LinearFunction α}
    (h : request.outcome s = .ok (.function f, t)) :
    f.coefficients.keys ⊆ s.inputSide.inputs :=
  (makes_of_outcome h).keys_subset

/-! ## Attaching functions -/

omit [Scalar α] in
/-- **Whether a function is taken has nothing to do with the function.** -/
theorem System.map_addFunction_eq (s : System α) (key : OutputKey) (name : String)
    (f g : LinearFunction α) :
    (s.addFunction key name f).map Prod.fst = (s.addFunction key name g).map Prod.fst := by
  unfold addFunction
  cases (Name.check name : Except (Error α) Unit) with
  | error e => rfl
  | ok _ =>
    rw [ok_bind, ok_bind]
    cases s.outputAt? key with
    | none => rfl
    | some o =>
      dsimp only
      split <;> rfl

/-- What is attached after a request was attached before, or is handed in with the request. -/
theorem Effect.functionAt?_cases {s t : System α} {request : Request α} (h : Effect s request t)
    {k : FunctionKey} {f : OutputFunction α} (hf : t.functionAt? k = some f) :
    s.functionAt? k = some f ∨ ∃ key name, request = .addFunction key name f.function := by
  cases h with
  | @addFunction key name function _ _ _ =>
    rcases Registry.get?_push_cases hf with ⟨-, rfl⟩ | ⟨-, hf⟩
    · exact Or.inr ⟨key, name, rfl⟩
    · exact Or.inl hf
  | _ => exact Or.inl hf

/-! ## Worlds -/

/-- Systems, and the functions that they have made so far, each with its maker. -/
structure World (ι α : Type) where
  systems : ι → System α
  made : List (ι × LinearFunction α) := []

/-- The functions that come out of a request. -/
def Request.made (request : Request α) (s : System α) : List (LinearFunction α) :=
  match request.program s with
  | .ok (.function f) _ => [f]
  | _ => []

theorem Request.outcome_of_mem_made {request : Request α} {s : System α} {f : LinearFunction α}
    (h : f ∈ request.made s) : ∃ t, request.outcome s = .ok (.function f, t) := by
  unfold made at h
  split at h
  · rename_i g t hok
    rw [request.program_eq, settle_eq_ok_iff] at hok
    rw [List.mem_singleton.mp h]
    exact ⟨t, hok⟩
  · exact absurd h List.not_mem_nil

namespace World

variable {ι : Type} [DecidableEq ι] {w : World ι α} {i j : ι} {request : Request α}

/-- New systems, which have made nothing yet. -/
def start (settings : ι → Connectives) : World ι α where
  systems := fun i => .ofSettings (settings i)

/-- One of the systems is asked something. -/
def act (w : World ι α) (i : ι) (request : Request α) : World ι α where
  systems := Function.update w.systems i (request.program.after (w.systems i))
  made := w.made ++ (request.made (w.systems i)).map fun f => (i, f)

theorem systems_act_self (w : World ι α) (i : ι) (request : Request α) :
    (w.act i request).systems i = request.program.after (w.systems i) :=
  Function.update_self ..

theorem systems_act_ne (w : World ι α) (request : Request α) (h : j ≠ i) :
    (w.act i request).systems j = w.systems j :=
  Function.update_of_ne h ..

/-- Some requests lead from new systems to these. A function that is handed in with a request has
been made by one of the systems, whichever it is. -/
inductive Reachable : World ι α → Prop where
  | start (settings : ι → Connectives) : Reachable (start settings)
  | act {w : World ι α} (i : ι) {request : Request α} :
      Reachable w →
      (∀ key name f, request = .addFunction key name f → ∃ j, (j, f) ∈ w.made) →
      Reachable (w.act i request)

/-- Each of the systems is one that can be reached on its own. -/
theorem Reachable.systems (h : w.Reachable) (i : ι) : Sugeno.Reachable (w.systems i) := by
  induction h with
  | start settings => exact .start (settings i)
  | @act w j request _ _ ih =>
    by_cases hij : i = j
    · rw [hij, systems_act_self, ← hij]
      exact reachable_run [request] ih
    · rw [systems_act_ne w request hij]
      exact ih

/-- No system loses what it has, whichever is asked. -/
theorem extends_act (w : World ι α) (i : ι) (request : Request α) (j : ι) :
    (w.systems j).Extends ((w.act i request).systems j) := by
  by_cases hji : j = i
  · rw [hji, systems_act_self]
    exact extends_run [request] (w.systems i)
  · rw [systems_act_ne w request hji]
    exact .refl _

/-- Functions are what their makers have checked, and nothing else is attached. -/
structure Sound (w : World ι α) : Prop where
  /-- A function has coefficients for inputs of its maker. -/
  made : ∀ j f, (j, f) ∈ w.made → f.coefficients.keys ⊆ (w.systems j).inputSide.inputs
  /-- What is attached has been made. -/
  attached : ∀ i k f, (w.systems i).functionAt? k = some f → ∃ j, (j, f.function) ∈ w.made

omit [Scalar α] [DecidableEq ι] in
theorem sound_start (settings : ι → Connectives) : (start settings : World ι α).Sound where
  made := fun _ _ h => absurd h List.not_mem_nil
  attached := fun _ k f hf => absurd hf (Registry.get?_empty_ne k f)

/-- **A request to any of the systems keeps this so.** -/
theorem Sound.act (h : w.Sound) (i : ι)
    (hrequest : ∀ key name f, request = .addFunction key name f → ∃ j, (j, f) ∈ w.made) :
    (w.act i request).Sound where
  made := by
    intro j f hf
    have hextends := w.extends_act i request j
    rcases List.mem_append.mp hf with hold | hnew
    · exact List.Subset.trans (h.made j f hold) hextends.inputs
    · obtain ⟨g, hg, heq⟩ := List.mem_map.mp hnew
      cases heq
      obtain ⟨t, houtcome⟩ := Request.outcome_of_mem_made hg
      exact List.Subset.trans (keys_subset_of_outcome houtcome) hextends.inputs
  attached := by
    intro j k f hf
    have hmade : ∃ m, (m, f.function) ∈ w.made := by
      by_cases hji : j = i
      · rw [hji, systems_act_self] at hf
        rcases effect_or_eq request (w.systems i) with heffect | heq
        · rcases heffect.functionAt?_cases hf with hold | ⟨key, name, hhanded⟩
          · exact h.attached i k f hold
          · exact hrequest key name f.function hhanded
        · rw [heq] at hf
          exact h.attached i k f hf
      · rw [systems_act_ne w request hji] at hf
        exact h.attached j k f hf
    obtain ⟨m, hm⟩ := hmade
    exact ⟨m, List.mem_append_left _ hm⟩

theorem Reachable.sound (h : w.Reachable) : w.Sound := by
  induction h with
  | start settings => exact sound_start settings
  | act i _ hrequest ih => exact ih.act i hrequest

end World

/-! ## Reachable worlds -/

/-- **An attached function has coefficients for inputs of its maker**, and for nothing else. It has
been made by one of the systems, whichever it is; the one that it is attached to has looked at the
name and at the output, and would have taken any function. -/
theorem reachable_functions_made {ι : Type} [DecidableEq ι] {w : World ι α} (h : w.Reachable) :
    (∀ i, Reachable (w.systems i))
      ∧ (∀ i k f, (w.systems i).functionAt? k = some f → ∃ j, (j, f.function) ∈ w.made
        ∧ f.function.coefficients.keys ⊆ (w.systems j).inputSide.inputs)
      ∧ (∀ i k f, (w.systems i).functionAt? k = some f → (i, f.function) ∈ w.made →
        f.function.coefficients.keys ⊆ (w.systems i).inputSide.inputs)
      ∧ ∀ i key name f g, ((w.systems i).addFunction key name f).map Prod.fst
        = ((w.systems i).addFunction key name g).map Prod.fst := by
  refine ⟨h.systems, fun i k f hf => ?_, fun i _ f _ hmade => h.sound.made i f.function hmade,
    fun i key name f g => (w.systems i).map_addFunction_eq key name f g⟩
  obtain ⟨j, hmade⟩ := h.sound.attached i k f hf
  exact ⟨j, hmade, h.sound.made j f.function hmade⟩

/-- Uphill, three times the slope and one more. -/
def climb : LinearFunction Int := ⟨⟨[(⟨2⟩, 3)]⟩, 1⟩

open WholeNumbers in
/-- Two systems. One has inputs for speed and slope, and makes a function of the slope. The other
has an input for speed only. -/
def neighbouring : World (Fin 2) Int :=
  (World.start fun _ => {}).act 0 (.addInput "speed" 0 200)
    |>.act 0 (.addInput "slope" 0 45)
    |>.act 0 (.linearFunction [(⟨2⟩, 3)] 1)
    |>.act 1 (.addInput "speed" 0 200)
    |>.act 1 (.addOutput "throttle")

open WholeNumbers in
/-- The other system takes the function. -/
def exchanging : World (Fin 2) Int := neighbouring.act 1 (.addFunction ⟨1⟩ "climb" climb)

open WholeNumbers in
theorem reachable_exchanging : exchanging.Reachable := by
  have hneighbours : neighbouring.Reachable := by
    refine .act 1 (.act 1 (.act 0 (.act 0 (.act 0 (.start _) ?_) ?_) ?_) ?_) ?_
    -- no function is handed in before
    all_goals exact fun _ _ _ h => nomatch h
  have hmade : neighbouring.made = [(0, climb)] := rfl
  refine hneighbours.act 1 fun key name f h => ⟨0, ?_⟩
  cases h
  rw [hmade]
  exact List.mem_singleton_self _

open WholeNumbers in
theorem functionAt?_exchanging :
    (exchanging.systems 1).functionAt? ⟨1⟩ = some ⟨"climb", ⟨1⟩, climb⟩ := rfl

open WholeNumbers in
theorem reachable_functions_made_exchanging :
    ∃ j, (j, climb) ∈ exchanging.made
      ∧ climb.coefficients.keys ⊆ (exchanging.systems j).inputSide.inputs :=
  (reachable_functions_made reachable_exchanging).2.1 1 ⟨1⟩ _ functionAt?_exchanging

open WholeNumbers in
/-- **The system that a function is attached to need not have an input for each coefficient.** -/
theorem not_forall_attached_own :
    ¬ ∀ w : World (Fin 2) Int, w.Reachable → ∀ i k f, (w.systems i).functionAt? k = some f →
      f.function.coefficients.keys ⊆ (w.systems i).inputSide.inputs := by
  intro hall
  have hkeys := hall exchanging reachable_exchanging 1 ⟨1⟩ _ functionAt?_exchanging
  have hinputs : (exchanging.systems 1).inputSide.inputs = [⟨1⟩] := rfl
  have hslope : (⟨2⟩ : VariableKey) ∈ climb.coefficients.keys := by decide
  have hforeign := hkeys hslope
  rw [hinputs] at hforeign
  exact absurd hforeign (by decide)

end FuzzyInference.Sugeno
