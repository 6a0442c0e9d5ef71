import FuzzyInference.Proofs.Lookup
import FuzzyInference.Proofs.RoundTrip
import FuzzyInference.Proofs.RuleText.Runs

/-!
# What names in a text refer to

A text is read by a lexicon, in which one word stands for the values of any
number of variables. A system looks names up in its tables. Both resolve a name
alike: what is read is what the look-ups answer for the names in the text
(`readRule_resolves`), clause by clause and in the order of the text, and whoever
else uses these names.

The lexicon finds the values of one variable among those of all others because
it keeps the owner with each (`IsClause`). The look-ups find it because a name is
used once by one owner (`Consistent.termByName_eq_ok_iff`).
-/

namespace FuzzyInference

open RuleText

variable {α : Type}

/-- **A table looks up what its vocabularies say.** -/
theorem VariableTable.Consistent.lookups [LE α] {t : VariableTable α} (h : t.Consistent)
    {keys : List VariableKey} (hnodup : keys.Nodup)
    (hkeys : ∀ k ∈ keys, ∃ v, t.variableAt? k = some v) {v : Vocabulary VariableKey TermKey}
    (hv : v ∈ t.vocabularies keys) :
    t.keyAmong keys v.name = .ok v.key
      ∧ ∀ name term, v.values.lookup name = some term → t.termByName v.key name = .ok term := by
  have hnamed := h.named hnodup hkeys
  obtain ⟨b, hb, hname, -⟩ := hnamed.entry v hv
  refine ⟨?_, fun name term hterm => ?_⟩
  · have hkey : v.key ∈ keys := t.map_key_vocabularies keys ▸ List.mem_map_of_mem hv
    exact h.keyAmong_eq_ok_iff.mpr ⟨hkey, b, hb, hname.symm⟩
  · exact h.termByName_eq_ok_iff.mpr ((hnamed.lookup_iff hv).mp hterm)

/-- What is written is `variable is [not] [hedge] term`, and the proposition is about the variable
and the term that are found by these names. Neither name is a keyword, so that there is one way of
reading it. -/
def InputSide.Resolves (s : InputSide α) (ws : List String) (p : Proposition) : Prop :=
  ∃ name term, ws = name :: "is" :: (notWords p.negated ++ (hedgeWords p.hedge ++ [term]))
    ∧ s.inputByName name = .ok p.subject ∧ s.table.termByName p.subject term = .ok p.term
    ∧ ∀ k : Keyword, name ≠ k.word ∧ term ≠ k.word

/-- A rule says what is found by the names in a text: each proposition what is found by the names in
the clause in its place, and the conclusion what is found by the names behind `then`. -/
def ResolvesRule {ω ν : Type} (s : InputSide α) (outputByName : String → Except (Error α) ω)
    (valueByName : ω → String → Except (Error α) ν) (text : String) (rule : Rule ω ν) : Prop :=
  ∃ condition conclusion, words text = "if" :: (condition ++ "then" :: conclusion)
    ∧ "then" ∉ condition
    ∧ List.Forall₂ s.Resolves (runs condition) rule.condition.propositions
    ∧ ∃ name value, runs conclusion = [[name, "is", value]]
        ∧ outputByName name = .ok rule.conclusion.subject
        ∧ valueByName rule.conclusion.subject value = .ok rule.conclusion.value

/-- **What is read is what is found**, if the outputs look up what their vocabularies say. -/
theorem resolvesRule_of_read {ω ν : Type} [DecidableEq ω] [LE α] {s : InputSide α}
    {outputs : List (Vocabulary ω ν)} {outputByName : String → Except (Error α) ω}
    {valueByName : ω → String → Except (Error α) ν} (hc : s.Consistent)
    (houtputs : (outputs.map (·.key)).Nodup)
    (hlookups : ∀ v ∈ outputs, outputByName v.name = .ok v.key
      ∧ ∀ name x, v.values.lookup name = some x → valueByName v.key name = .ok x)
    {text : String} {rule : Rule ω ν}
    (hr : read (s.table.vocabularies s.inputs) outputs text = .ok rule) :
    ResolvesRule s outputByName valueByName text rule := by
  obtain ⟨lexicon, hl⟩ := exists_lexicon_of_read hr
  have hkeys : ((s.table.vocabularies s.inputs).map (·.key)).Nodup := by
    rw [s.table.map_key_vocabularies]
    exact hc.nodup
  obtain ⟨condition, conclusion, hwords, hcondition, -, hconclusion⟩ :=
    isSentence_of_read hl hkeys houtputs hr
  have hthen : "then" ∉ condition := by
    obtain ⟨items, hspells, -⟩ := isExpression_words_iff.mp hcondition
    exact then_not_mem_of_spells hl hspells
  refine ⟨condition, conclusion, hwords, hthen, ?_, ?_⟩
  · refine (hcondition.forall₂_runs hl).imp fun ws p hclause => ?_
    obtain ⟨negated, hedge, hv, hterm⟩ := hclause
    obtain ⟨hsubject, hterms⟩ := hc.table.lookups hc.nodup hc.known hv
    exact ⟨_, _, rfl, hsubject, hterms _ _ hterm,
      fun k => ⟨input_ne_word hl hv k, term_ne_word hl hv hterm k⟩⟩
  · obtain ⟨v, hv, name, hruns, hsubject, hvalue⟩ := hconclusion.exists_clause hl
    obtain ⟨houtput, hvalues⟩ := hlookups v hv
    rw [hsubject] at houtput hvalues
    exact ⟨v.name, name, hruns, houtput, hvalues name _ hvalue⟩

/-- **The reader and the look-ups resolve names alike.** In every reachable system, of either kind,
the propositions of a rule that is read are, from left to right, what the look-ups find by the names
in the clauses of the text, with the `not` and the hedge that stand there; and its conclusion is
what they find by the names behind `then`. -/
theorem readRule_resolves [Scalar α] :
    (∀ s : Mamdani.System α, Mamdani.Reachable s → ∀ text rule, s.readRule text = .ok rule →
        ResolvesRule s.inputSide s.outputByName s.table.termByName text rule.toRule)
      ∧ ∀ s : Sugeno.System α, Sugeno.Reachable s → ∀ text rule, s.readRule text = .ok rule →
        ResolvesRule s.inputSide s.outputByName s.functionByName text rule := by
  refine ⟨fun s h text rule hr => ?_, fun s h text rule hr => ?_⟩
  · have hc := h.consistent
    obtain ⟨r, hread, rfl⟩ := Mamdani.System.readRule_eq_ok_iff.mp hr
    exact resolvesRule_of_read hc.inputSide hc.named_outputs.nodup
      (fun v hv => hc.table.lookups hc.outputs_nodup (fun k hk => hc.exists_output hk) hv)
      hread
  · have hc := h.consistent
    refine resolvesRule_of_read hc.inputSide hc.named_outputs.nodup (fun v hv => ?_)
      (Sugeno.System.readRule_eq_ok_iff.mp hr)
    obtain ⟨o, ho, hname, -⟩ := hc.named_outputs.entry v hv
    refine ⟨hc.outputByName_eq_ok_iff.mpr ⟨o, ho, hname.symm⟩, fun name x hx => ?_⟩
    exact hc.functionByName_eq_ok_iff.mpr ((hc.named_outputs.lookup_iff hv).mp hx)

open WholeNumbers in
/-- Two inputs and an output, each with a term of the same name. -/
def sharing : List (Mamdani.Request Int) :=
  [.addInput "error" 0 10, .addInput "speed" 0 10, .addOutput "throttle" 0 10,
   .addTerm ⟨1⟩ "low" id, .addTerm ⟨2⟩ "low" id, .addTerm ⟨3⟩ "low" id]

/-- What a text about both inputs says. -/
def bothLow : Rule VariableKey TermKey :=
  ⟨.combination .and false (.single ⟨⟨2⟩, ⟨2⟩, true, some .very⟩)
    [.single ⟨⟨1⟩, ⟨1⟩, false, none⟩], ⟨⟨3⟩, ⟨3⟩⟩⟩

open WholeNumbers in
theorem readRule_resolves_shared_names :
    ResolvesRule (Mamdani.run sharing (.ofSettings {})).inputSide
        (Mamdani.run sharing (.ofSettings {})).outputByName
        (Mamdani.run sharing (.ofSettings {})).table.termByName
        "if speed is not very low and error is low then throttle is low" bothLow
      ∧ ResolvesRule (Sugeno.run Sugeno.cruising (.ofSettings {})).inputSide
        (Sugeno.run Sugeno.cruising (.ofSettings {})).outputByName
        (Sugeno.run Sugeno.cruising (.ofSettings {})).functionByName
        "if speed is high then throttle is ease" ⟨.single ⟨⟨1⟩, ⟨1⟩, false, none⟩, ⟨⟨1⟩, ⟨1⟩⟩⟩ := by
  obtain ⟨hmamdani, hsugeno⟩ := readRule_resolves (α := Int)
  have h := Mamdani.reachable_run sharing (.start {})
  have h' := Sugeno.reachable_run Sugeno.cruising (.start {})
  refine ⟨hmamdani _ h _ ⟨bothLow, 1⟩ ?_, hsugeno _ h' _ _ ?_⟩
  · have hw : Writable bothLow.condition :=
      ⟨by simp [bothLow, Condition.ForCombinations, Condition.ForCombinationsOf], by decide⟩
    have hrule := Mamdani.System.checkRule_eq_ok_iff.mp
      (rfl : (Mamdani.run sharing (.ofSettings {})).checkRule ⟨bothLow, 1⟩ = .ok ())
    exact (congrArg _ (by decide)).trans (h.consistent.readRule_rule (by decide) hrule hw)
  · have hrule := Sugeno.System.checkRule_eq_ok_iff.mp
      (rfl : (Sugeno.run Sugeno.cruising (.ofSettings {})).checkRule
        ⟨.single ⟨⟨1⟩, ⟨1⟩, false, none⟩, ⟨⟨1⟩, ⟨1⟩⟩⟩ = .ok ())
    exact (congrArg _ (by decide)).trans
      (h'.consistent.readRule_rule (by decide) hrule ⟨trivial, by decide⟩)

end FuzzyInference
