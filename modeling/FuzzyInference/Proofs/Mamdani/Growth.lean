import FuzzyInference.Proofs.Additions
import FuzzyInference.Proofs.Mamdani.Consistency

/-!
# Mamdani systems grow

Two relations between a system and a later one, both of which follow from what
requests do (`Effect`).

Nothing is ever taken out of a system. So whatever it has it keeps, under the
same keys and by the same names, through all requests to come (`extends_run`).
Requests that add to what a calculation can be about, and do not change its
inputs and methods, leave it with more rules at the end and otherwise as it was,
as far as the rules it had go (`enlarges_run`).
-/

namespace FuzzyInference.Mamdani

variable {α : Type} [Scalar α]

/-! ## What a system has it keeps -/

namespace System

omit [Scalar α]

/-- Whatever a system has the other has too. -/
structure Extends (s t : System α) : Prop where
  inputs : s.inputSide.inputs ⊆ t.inputSide.inputs
  outputs : s.outputs ⊆ t.outputs
  table : s.table.Extends t.table

theorem Extends.refl (s : System α) : s.Extends s where
  inputs := List.Subset.refl _
  outputs := List.Subset.refl _
  table := .refl _

theorem Extends.trans {s t u : System α} (h : s.Extends t) (h' : t.Extends u) : s.Extends u where
  inputs := List.Subset.trans h.inputs h'.inputs
  outputs := List.Subset.trans h.outputs h'.outputs
  table := h.table.trans h'.table

/-- What is admitted once is admitted for good. -/
theorem Extends.admits {s t : System α} (h : s.Extends t)
    {rule : FuzzyInference.Rule VariableKey TermKey} (hrule : s.Admits rule) : t.Admits rule :=
  hrule.mono h.inputs h.outputs h.table

end System

theorem Effect.extends {s t : System α} {request : Request α} (h : Effect s request t) :
    s.Extends t := by
  cases h with
  | addInput hadd =>
    exact ⟨List.subset_append_left _ _, List.Subset.refl _, VariableTable.extends_add hadd⟩
  | addOutput hadd =>
    exact ⟨List.Subset.refl _, List.subset_append_left _ _, VariableTable.extends_add hadd⟩
  | addTerm hadd =>
    exact ⟨List.Subset.refl _, List.Subset.refl _, VariableTable.extends_addTerm hadd⟩
  | _ => exact ⟨List.Subset.refl _, List.Subset.refl _, .refl _⟩

/-- **Whatever is asked of a system, it keeps what it has.** -/
theorem extends_run (requests : List (Request α)) (s : System α) :
    s.Extends (run requests s) :=
  Program.foldl_after effect_or_eq System.Extends.refl System.Extends.trans Effect.extends
    requests s

/-! ## Additions -/

/-- Requests for an output, a term or a rule more. -/
def Request.Adds : Request α → Prop
  | .addOutput .. => True
  | .addTerm .. => True
  | .addRule _ => True
  | _ => False

/-- A system with more variables, terms and rules than another, of which `more` are the rules. -/
structure System.Enlarges (s t : System α) (more : List (Rule α)) : Prop extends s.Extends t where
  inputSide : s.inputSide.Keeps t.inputSide
  rules : t.rules = s.rules ++ more
  settings : t.settings = s.settings

namespace System.Enlarges

omit [Scalar α]

theorem refl (s : System α) : s.Enlarges s [] where
  toExtends := .refl s
  inputSide := .refl _
  rules := (List.append_nil _).symm
  settings := rfl

theorem trans {s t u : System α} {more more' : List (Rule α)} (h : s.Enlarges t more)
    (h' : t.Enlarges u more') : s.Enlarges u (more ++ more') where
  toExtends := h.toExtends.trans h'.toExtends
  inputSide := h.inputSide.trans h'.inputSide
  rules := by rw [h'.rules, h.rules, List.append_assoc]
  settings := h'.settings.trans h.settings

end System.Enlarges

/-- **An addition leaves what is there**, and rules come last. -/
theorem Effect.exists_enlarges {s t : System α} {request : Request α} (h : Effect s request t)
    (hadds : request.Adds) :
    ∃ more, s.Enlarges t more ∧ ∀ rule ∈ more, request = .addRule rule := by
  have hextends := h.extends
  cases h with
  | addOutput hadd =>
    have hkeeps : s.table.Keeps _ := VariableTable.keeps_add hadd
    exact ⟨[], ⟨hextends, ⟨rfl, rfl, hkeeps⟩, (List.append_nil _).symm, rfl⟩, List.forall_mem_nil _⟩
  | addTerm hadd =>
    have hkeeps : s.table.Keeps _ := VariableTable.keeps_addTerm hadd
    exact ⟨[], ⟨hextends, ⟨rfl, rfl, hkeeps⟩, (List.append_nil _).symm, rfl⟩, List.forall_mem_nil _⟩
  | @addRule rule _ =>
    refine ⟨[rule], ⟨hextends, .refl _, rfl, rfl⟩, fun r hr => ?_⟩
    rw [List.mem_singleton.mp hr]
  | addInput _ => exact hadds.elim
  | set _ => exact hadds.elim
  | rule _ _ _ => exact hadds.elim
  | readRule _ => exact hadds.elim

/-- **Additions in a row leave what is there**, and the rules that they add come last. -/
theorem enlarges_run {requests : List (Request α)} (hadds : ∀ request ∈ requests, request.Adds)
    (s : System α) :
    ∃ more, s.Enlarges (run requests s) more ∧ ∀ rule ∈ more, .addRule rule ∈ requests :=
  Program.exists_foldl_after effect_or_eq System.Enlarges.refl System.Enlarges.trans
    (fun request hrequest _ _ h => h.exists_enlarges (hadds request hrequest)) s

end FuzzyInference.Mamdani
