import FuzzyInference.Proofs.Additions
import FuzzyInference.Proofs.Sugeno.Consistency

/-!
# Sugeno systems grow

The counterpart for Sugeno systems of how Mamdani systems grow, from what
requests do to them (`Effect`). A system keeps what it has through all requests
(`extends_run`), and additions leave it with more rules at the end and otherwise
as it was, as far as the rules it had go (`enlarges_run`).

An output that gets a function is changed, but it keeps its name, and a function
is never changed at all. That is what both relations say of the registries that
Sugeno systems have besides their table.
-/

namespace FuzzyInference.Sugeno

variable {α : Type} [Scalar α]

/-! ## What a system has it keeps -/

namespace System

omit [Scalar α]

/-- Whatever a system has the other has too. -/
structure Extends (s t : System α) : Prop where
  inputs : s.inputSide.inputs ⊆ t.inputSide.inputs
  table : s.inputSide.table.Extends t.inputSide.table
  outputAt : ∀ k o, s.outputAt? k = some o → ∃ o', t.outputAt? k = some o' ∧ o'.name = o.name
  functionAt : ∀ k f, s.functionAt? k = some f → t.functionAt? k = some f

theorem Extends.refl (s : System α) : s.Extends s where
  inputs := List.Subset.refl _
  table := .refl _
  outputAt := fun _ o ho => ⟨o, ho, rfl⟩
  functionAt := fun _ _ hf => hf

theorem Extends.trans {s t u : System α} (h : s.Extends t) (h' : t.Extends u) : s.Extends u where
  inputs := List.Subset.trans h.inputs h'.inputs
  table := h.table.trans h'.table
  outputAt := by
    intro k o ho
    obtain ⟨o', ho', hname⟩ := h.outputAt k o ho
    obtain ⟨o'', ho'', hname'⟩ := h'.outputAt k o' ho'
    exact ⟨o'', ho'', hname'.trans hname⟩
  functionAt := fun k f hf => h'.functionAt k f (h.functionAt k f hf)

/-- What is admitted once is admitted for good. -/
theorem Extends.admits {s t : System α} (h : s.Extends t) {rule : Rule} (hrule : s.Admits rule) :
    t.Admits rule := by
  refine hrule.mono h.inputs h.table (fun k o ho => ?_) h.functionAt
  obtain ⟨o', ho', -⟩ := h.outputAt k o ho
  exact ⟨o', ho'⟩

end System

theorem Effect.extends {s t : System α} {request : Request α} (h : Effect s request t) :
    s.Extends t := by
  cases h with
  | addInput _ hadd =>
    exact ⟨List.subset_append_left _ _, VariableTable.extends_add hadd, fun _ o ho => ⟨o, ho, rfl⟩,
      fun _ _ hf => hf⟩
  | addTerm hadd =>
    exact ⟨List.Subset.refl _, VariableTable.extends_addTerm hadd, fun _ o ho => ⟨o, ho, rfl⟩,
      fun _ _ hf => hf⟩
  | addOutput _ _ _ =>
    exact ⟨List.Subset.refl _, .refl _,
      fun _ o ho => ⟨o, Registry.get?_push_of_eq_some _ ho, rfl⟩, fun _ _ hf => hf⟩
  | addFunction _ _ _ =>
    refine ⟨List.Subset.refl _, .refl _, fun k o ho => ?_,
      fun _ _ hf => Registry.get?_push_of_eq_some _ hf⟩
    obtain ⟨o', ho', rfl | rfl⟩ := Registry.exists_get?_modify ho
    · exact ⟨_, ho', rfl⟩
    · exact ⟨_, ho', rfl⟩
  | _ => exact ⟨List.Subset.refl _, .refl _, fun _ o ho => ⟨o, ho, rfl⟩, fun _ _ hf => hf⟩

/-- **Whatever is asked of a system, it keeps what it has.** -/
theorem extends_run (requests : List (Request α)) (s : System α) :
    s.Extends (run requests s) :=
  Program.foldl_after effect_or_eq System.Extends.refl System.Extends.trans Effect.extends
    requests s

/-! ## Additions -/

/-- Requests for a term, an output, a function or a rule more. -/
def Request.Adds : Request α → Prop
  | .addTerm .. => True
  | .addOutput .. => True
  | .addFunction .. => True
  | .addRule _ => True
  | _ => False

/-- A system with more terms, outputs, functions and rules than another, of which `more` are the
rules. -/
structure System.Enlarges (s t : System α) (more : List Rule) : Prop extends s.Extends t where
  inputSide : s.inputSide.Keeps t.inputSide
  rules : t.rules = s.rules ++ more

namespace System.Enlarges

omit [Scalar α]

theorem refl (s : System α) : s.Enlarges s [] where
  toExtends := .refl s
  inputSide := .refl _
  rules := (List.append_nil _).symm

theorem trans {s t u : System α} {more more' : List Rule} (h : s.Enlarges t more)
    (h' : t.Enlarges u more') : s.Enlarges u (more ++ more') where
  toExtends := h.toExtends.trans h'.toExtends
  inputSide := h.inputSide.trans h'.inputSide
  rules := by rw [h'.rules, h.rules, List.append_assoc]

end System.Enlarges

/-- **An addition leaves what is there**, and rules come last. -/
theorem Effect.exists_enlarges {s t : System α} {request : Request α} (h : Effect s request t)
    (hadds : request.Adds) :
    ∃ more, s.Enlarges t more ∧ ∀ rule ∈ more, request = .addRule rule := by
  have hextends := h.extends
  cases h with
  | addTerm hadd =>
    have hkeeps := VariableTable.keeps_addTerm hadd
    exact ⟨[], ⟨hextends, ⟨rfl, rfl, hkeeps⟩, (List.append_nil _).symm⟩, List.forall_mem_nil _⟩
  | addOutput _ => exact ⟨[], ⟨hextends, .refl _, (List.append_nil _).symm⟩, List.forall_mem_nil _⟩
  | addFunction _ _ _ =>
    exact ⟨[], ⟨hextends, .refl _, (List.append_nil _).symm⟩, List.forall_mem_nil _⟩
  | @addRule rule _ =>
    refine ⟨[rule], ⟨hextends, .refl _, rfl⟩, fun r hr => ?_⟩
    rw [List.mem_singleton.mp hr]
  | _ => exact hadds.elim

/-- **Additions in a row leave what is there**, and the rules that they add come last. -/
theorem enlarges_run {requests : List (Request α)} (hadds : ∀ request ∈ requests, request.Adds)
    (s : System α) :
    ∃ more, s.Enlarges (run requests s) more ∧ ∀ rule ∈ more, .addRule rule ∈ requests :=
  Program.exists_foldl_after effect_or_eq System.Enlarges.refl System.Enlarges.trans
    (fun request hrequest _ _ h => h.exists_enlarges (hadds request hrequest)) s

end FuzzyInference.Sugeno
