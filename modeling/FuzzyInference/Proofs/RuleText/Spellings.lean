import FuzzyInference.Proofs.FirstFailure
import FuzzyInference.Proofs.RuleText.Clauses
import FuzzyInference.Proofs.RuleText.Names

/-!
# A lexicon is its vocabularies

What a lexicon says is what the vocabularies it is built from say, and it is
refused exactly if their names clash (`lexicon_faithful`). Which names clash does
not depend on the order of the declarations. Which name is reported does: it is
that of the first entry that conflicts with the entries before it, so of two
things with one name the second is to blame.

A word then stands for what it spells: for a keyword, for the variable of that
name, or for all values of that name in the order of their declarations.
-/

namespace FuzzyInference.RuleText

variable {κ ω ν μ : Type}

/-! ## The first conflict -/

/-- The name of an entry is a keyword, or it is taken: by a variable, or by anything if the entry is
a variable's. -/
def Conflicts (es : List (String × Entry ω ν)) (e : String × Entry ω ν) : Prop :=
  (∃ k : Keyword, e.1 = k.word) ∨ ∃ d ∈ es, d.1 = e.1 ∧ (d.2.isVariable ∨ e.2.isVariable)

/-- Entries that come after others, each with all that come before it. -/
def withPrior (done : List (String × Entry ω ν)) :
    List (String × Entry ω ν) → List (List (String × Entry ω ν) × (String × Entry ω ν))
  | [] => []
  | e :: es => (done, e) :: withPrior (done ++ [e]) es

theorem not_compatible_iff {d e : String × Entry ω ν} :
    ¬ Compatible d e ↔ d.1 = e.1 ∧ (d.2.isVariable ∨ e.2.isVariable) := by
  rw [Compatible, Classical.not_imp, ← Entry.isVariable_eq_false_iff,
    ← Entry.isVariable_eq_false_iff, not_and_or, Bool.not_eq_false, Bool.not_eq_false]

theorem not_fits_iff {es : List (String × Entry ω ν)} {e : String × Entry ω ν} :
    ¬ Lexicon.Fits es e ↔ Conflicts es e := by
  rw [Lexicon.Fits, keywords_eq_none_iff, not_and_or]
  simp only [not_forall, not_compatible_iff, ne_eq, Classical.not_not, exists_prop, Conflicts]

/-- **Entering stops at the first entry that conflicts with those before it.** -/
theorem foldlM_enter_eq_error_iff {lexicon : Lexicon ω ν} {done : List (String × Entry ω ν)}
    (hk : lexicon.Knows done) {es : List (String × Entry ω ν)} {e : RuleTextError} :
    es.foldlM Lexicon.enter lexicon = .error e
      ↔ ∃ x, IsFirst (fun x => Conflicts x.1 x.2) (withPrior done es) x
          ∧ e = .lexemeCollision x.2.1 := by
  induction es generalizing lexicon done with
  | nil => simp [withPrior, not_isFirst_nil, pure, Except.pure]
  | cons d es ih =>
    rw [List.foldlM_cons, withPrior]
    simp only [isFirst_cons_iff]
    by_cases hf : Lexicon.Fits done d
    · obtain ⟨next, hnext, hknows⟩ := (Lexicon.enter_spec hk d).1 hf
      have hnot : ¬ Conflicts done d := fun hc => not_fits_iff.mpr hc hf
      rw [hnext, ok_bind, ih hknows]
      simp only [hnot, false_and, not_false_eq_true, true_and, false_or]
    · have hc : Conflicts done d := not_fits_iff.mp hf
      rw [(Lexicon.enter_spec hk d).2 hf, error_bind]
      simp only [hc, true_and, not_true_eq_false, false_and, or_false, exists_eq_left,
        Except.error.injEq, eq_comm]

section Lexicon

variable {inputs : List (Vocabulary VariableKey TermKey)} {outputs : List (Vocabulary ω ν)}
  {lexicon : Lexicon ω ν}

/-- **The name that is reported is the first that conflicts with what is declared before it.** -/
theorem ofVocabularies_eq_error_iff {e : RuleTextError} :
    Lexicon.ofVocabularies inputs outputs = .error e
      ↔ ∃ x, IsFirst (fun x => Conflicts x.1 x.2) (withPrior [] (entries inputs outputs)) x
          ∧ e = .lexemeCollision x.2.1 := by
  rw [Lexicon.ofVocabularies_eq]
  exact foldlM_enter_eq_error_iff Lexicon.knows_keywords

/-- **Names that clash are refused, and nothing else is.** -/
theorem exists_collision_iff :
    (∃ name, Lexicon.ofVocabularies inputs outputs = .error (.lexemeCollision name))
      ↔ Clashes inputs outputs := by
  rw [← not_iff_not, ← exists_lexicon_iff]
  cases h : Lexicon.ofVocabularies inputs outputs with
  | ok lexicon => simp
  | error e =>
    obtain ⟨x, -, rfl⟩ := ofVocabularies_eq_error_iff.mp h
    simp

/-! ## What words stand for -/

/-- The values of a name, those of inputs first, in the order of their declarations. -/
def candidatesSpelled (inputs : List (Vocabulary VariableKey TermKey))
    (outputs : List (Vocabulary ω ν)) (w : String) : List (Candidate ω ν) :=
  inputs.flatMap (fun v => (v.values.filter (·.1 = w)).map fun x => .input v.key x.2)
    ++ outputs.flatMap (fun v => (v.values.filter (·.1 = w)).map fun x => .output v.key x.2)

/-- What a word stands for by itself. -/
inductive Stands (inputs : List (Vocabulary VariableKey TermKey))
    (outputs : List (Vocabulary ω ν)) : String → Lexeme ω ν → Prop where
  | keyword (k : Keyword) : Stands inputs outputs k.word (.keyword k)
  | input {v : Vocabulary VariableKey TermKey} :
      v ∈ inputs → Stands inputs outputs v.name (.input v.key)
  | output {v : Vocabulary ω ν} : v ∈ outputs → Stands inputs outputs v.name (.output v.key)
  | values {w : String} : w ∈ valueNames inputs outputs →
      Stands inputs outputs w (.values (candidatesSpelled inputs outputs w))

/-- A word spells a keyword, a variable or a value. -/
def IsSpelling (inputs : List (Vocabulary VariableKey TermKey)) (outputs : List (Vocabulary ω ν))
    (w : String) : Prop :=
  (∃ k : Keyword, w = k.word) ∨ w ∈ variableNames inputs outputs ∨ w ∈ valueNames inputs outputs

theorem candidatesNamed_flatMap_entries {subject : κ → Entry ω ν}
    {candidate : κ → μ → Candidate ω ν} (hs : ∀ k, (subject k).candidate? = none)
    (vs : List (Vocabulary κ μ)) (w : String) :
    candidatesNamed (vs.flatMap (Vocabulary.entries subject candidate)) w
      = vs.flatMap fun v => (v.values.filter (·.1 = w)).map fun x => candidate v.key x.2 := by
  have hvalues : ∀ (key : κ) (values : List (String × μ)),
      candidatesNamed (values.map fun x => (x.1, .value (candidate key x.2))) w
        = (values.filter (·.1 = w)).map fun x => candidate key x.2 := by
    intro key values
    induction values with
    | nil => rfl
    | cons x values ih =>
      rw [List.map_cons, ← List.singleton_append, candidatesNamed_append, ih, List.filter_cons]
      by_cases hx : x.1 = w <;> simp [candidatesNamed, Entry.candidate?, hx]
  induction vs with
  | nil => rfl
  | cons v vs ih =>
    have hsubject : candidatesNamed [(v.name, subject v.key)] w = [] := by
      simp [candidatesNamed, hs]
    rw [List.flatMap_cons, candidatesNamed_append, ih, List.flatMap_cons, Vocabulary.entries,
      ← List.singleton_append, candidatesNamed_append, hsubject, hvalues, List.nil_append]

theorem candidatesNamed_entries (w : String) :
    candidatesNamed (entries inputs outputs) w = candidatesSpelled inputs outputs w := by
  rw [entries, candidatesNamed_append, candidatesNamed_flatMap_entries (fun _ => rfl),
    candidatesNamed_flatMap_entries (fun _ => rfl)]
  rfl

/-- A name of a value stands for all values of that name. -/
theorem get?_of_value (h : Lexicon.ofVocabularies inputs outputs = .ok lexicon) {w : String}
    {c : Candidate ω ν} (hmem : (w, .value c) ∈ entries inputs outputs) :
    lexicon.get? w = some (.values (candidatesSpelled inputs outputs w)) := by
  obtain ⟨l, hl⟩ := exists_get?_of_mem_entries h hmem
  rcases Lexicon.eq_word_or_mem_entries h hl with ⟨k, hk, -⟩ | ⟨e, he, hs⟩ | rfl
  · exact absurd hk (keywords_eq_none_iff.mp (Lexicon.keywords_eq_none_of_mem h hmem) k)
  · have hne : (w, e) ≠ (w, .value c) := by
      rintro heq
      cases heq
      exact absurd hs (by simp [Entry.subject?])
    have hnone := (Lexicon.compatible_of_mem h he hmem hne rfl).1
    exact absurd (hs.symm.trans hnone) (by simp)
  · rw [hl, candidatesNamed_entries]

/-- **A word is known exactly if it spells something.** -/
theorem exists_get?_iff (h : Lexicon.ofVocabularies inputs outputs = .ok lexicon) {w : String} :
    (∃ l, lexicon.get? w = some l) ↔ IsSpelling inputs outputs w := by
  have hentries : (w ∈ variableNames inputs outputs ∨ w ∈ valueNames inputs outputs)
      ↔ ∃ e, (w, e) ∈ entries inputs outputs := by
    rw [mem_variableNames_iff, mem_valueNames_iff, ← exists_or]
    refine exists_congr fun e => ?_
    rw [← and_or_left]
    cases e.isVariable <;> simp
  rw [← Option.isSome_iff_exists, ← Option.ne_none_iff_isSome, Lexicon.knows_entries h, ne_eq,
    Lexicon.meaning_eq_none_iff, keywords_eq_none_iff, IsSpelling, hentries, not_and_or]
  simp

/-- **A word stands for what it spells and for nothing else.** -/
theorem get?_eq_some_iff (h : Lexicon.ofVocabularies inputs outputs = .ok lexicon) {w : String}
    {l : Lexeme ω ν} : lexicon.get? w = some l ↔ Stands inputs outputs w l := by
  have hvalues : w ∈ valueNames inputs outputs →
      lexicon.get? w = some (.values (candidatesSpelled inputs outputs w)) := by
    intro hw
    obtain ⟨e, he, hvalue⟩ := mem_valueNames_iff.mp hw
    cases e with
    | value c => exact get?_of_value h he
    | _ => exact absurd hvalue (by simp [Entry.isVariable, Entry.subject?])
  refine ⟨fun hget => ?_, fun hstands => ?_⟩
  · rcases (exists_get?_iff h).mp ⟨l, hget⟩ with ⟨k, rfl⟩ | hw | hw
    · cases hget.symm.trans (Lexicon.get?_word h k)
      exact .keyword k
    · rcases List.mem_append.mp hw with hw | hw
      · obtain ⟨v, hv, rfl⟩ := List.mem_map.mp hw
        cases hget.symm.trans (get?_input h hv)
        exact .input hv
      · obtain ⟨v, hv, rfl⟩ := List.mem_map.mp hw
        cases hget.symm.trans (get?_output h hv)
        exact .output hv
    · cases hget.symm.trans (hvalues hw)
      exact .values hw
  · cases hstands with
    | keyword k => exact Lexicon.get?_word h k
    | input hv => exact get?_input h hv
    | output hv => exact get?_output h hv
    | values hw => exact hvalues hw

/-! ## Looking words up -/

/-- **Words can be looked up if each spells something**, and then each gives what it stands for. -/
theorem ofWords_eq_ok_iff_stands (h : Lexicon.ofVocabularies inputs outputs = .ok lexicon)
    {ws : List String} {ts : List (Token ω ν)} :
    Token.ofWords lexicon ws = .ok ts
      ↔ ts.map Token.text = ws ∧ ∀ t ∈ ts, Stands inputs outputs t.text t.lexeme := by
  rw [ofWords_eq_ok_iff]
  exact and_congr_right fun _ => forall₂_congr fun t _ => get?_eq_some_iff h

theorem exists_ofWords_iff (h : Lexicon.ofVocabularies inputs outputs = .ok lexicon)
    {ws : List String} :
    (∃ ts, Token.ofWords lexicon ws = .ok ts) ↔ ∀ w ∈ ws, IsSpelling inputs outputs w := by
  simp only [← exists_get?_iff h, ofWords_eq_ok_iff]
  refine ⟨fun hts w hw => ?_, exists_known⟩
  obtain ⟨ts, rfl, hknown⟩ := hts
  obtain ⟨t, ht, rfl⟩ := List.mem_map.mp hw
  exact ⟨t.lexeme, hknown t ht⟩

/-- **The first word that spells nothing is reported.** -/
theorem ofWords_eq_error_iff (h : Lexicon.ofVocabularies inputs outputs = .ok lexicon)
    {ws : List String} {e : RuleTextError} :
    Token.ofWords lexicon ws = .error e
      ↔ ∃ w, IsFirst (fun w => ¬ IsSpelling inputs outputs w) ws w
          ∧ e = .unknownIdentifier w := by
  refine mapM_eq_error_iff_isFirst fun w e => ?_
  rw [← exists_get?_iff h]
  cases lexicon.get? w with
  | none => simp [eq_comm]
  | some l => simp

/-- What a lexicon says is what some vocabularies say. -/
structure Faithful (lexicon : Lexicon ω ν) (inputs : List (Vocabulary VariableKey TermKey))
    (outputs : List (Vocabulary ω ν)) : Prop where
  /-- No two variables have one name, so what has a variable's name stands for that one. -/
  distinct : (variableNames inputs outputs).Nodup
  resolves : ∀ w l, lexicon.get? w = some l ↔ Stands inputs outputs w l
  /-- Words can be looked up exactly if each of them spells something. -/
  spelled : ∀ ws, (∃ ts, Token.ofWords lexicon ws = .ok ts) ↔ ∀ w ∈ ws, IsSpelling inputs outputs w
  /-- Then they are the words as they are, each with what it stands for. -/
  tokens : ∀ ws ts, Token.ofWords lexicon ws = .ok ts ↔
    ts.map Token.text = ws ∧ ∀ t ∈ ts, Stands inputs outputs t.text t.lexeme
  /-- Otherwise the first that spells nothing is reported. -/
  unknown : ∀ ws e, Token.ofWords lexicon ws = .error e ↔
    ∃ w, IsFirst (fun w => ¬ IsSpelling inputs outputs w) ws w ∧ e = .unknownIdentifier w

theorem faithful (h : Lexicon.ofVocabularies inputs outputs = .ok lexicon) :
    Faithful lexicon inputs outputs where
  distinct := by
    have hclash := exists_lexicon_iff.mp ⟨lexicon, h⟩
    unfold Clashes at hclash
    simp only [not_or, not_not] at hclash
    exact hclash.2.1
  resolves := fun _ _ => get?_eq_some_iff h
  spelled := fun _ => exists_ofWords_iff h
  tokens := fun _ _ => ofWords_eq_ok_iff_stands h
  unknown := fun _ _ => ofWords_eq_error_iff h

end Lexicon

/-- **A lexicon is its vocabularies.** Whatever names are declared, a lexicon is refused exactly if
they clash, and for the first that conflicts with what is declared before it. Otherwise a word
stands for what it spells, and words are looked up unless one of them spells nothing. -/
theorem lexicon_faithful (inputs : List (Vocabulary VariableKey TermKey))
    (outputs : List (Vocabulary ω ν)) :
    ((∃ name, Lexicon.ofVocabularies inputs outputs = .error (.lexemeCollision name))
        ↔ Clashes inputs outputs)
      ∧ (∀ e, Lexicon.ofVocabularies inputs outputs = .error e ↔
          ∃ x, IsFirst (fun x => Conflicts x.1 x.2) (withPrior [] (entries inputs outputs)) x
            ∧ e = .lexemeCollision x.2.1)
      ∧ ∀ lexicon, Lexicon.ofVocabularies inputs outputs = .ok lexicon →
          Faithful lexicon inputs outputs :=
  ⟨exists_collision_iff, fun _ => ofVocabularies_eq_error_iff, fun _ => faithful⟩

/-- Two inputs that share the name of a term, also with the output. -/
def steering : List (Vocabulary VariableKey TermKey) :=
  [⟨"error", ⟨1⟩, [("low", ⟨1⟩), ("high", ⟨2⟩)]⟩, ⟨"rate", ⟨2⟩, [("low", ⟨3⟩)]⟩]

/-- The output. -/
def rudder : List (Vocabulary VariableKey TermKey) := [⟨"rudder", ⟨3⟩, [("low", ⟨4⟩)]⟩]

/-- A variable that has the name of a term declared before it, and that of a term of its own. -/
def muddled : List (Vocabulary VariableKey TermKey) :=
  [⟨"error", ⟨1⟩, [("low", ⟨1⟩), ("rate", ⟨2⟩)]⟩, ⟨"rate", ⟨2⟩, [("rate", ⟨3⟩)]⟩]

/-- A word that three variables share, the first of the words that spell nothing, and names that
clash. -/
theorem lexicon_faithful_steering :
    (∃ lexicon, Lexicon.ofVocabularies steering rudder = .ok lexicon
        ∧ lexicon.get? "low" = some (.values [.input ⟨1⟩ ⟨1⟩, .input ⟨2⟩ ⟨3⟩, .output ⟨3⟩ ⟨4⟩]))
      ∧ IsFirst (fun w => ¬ IsSpelling steering rudder w)
          ["error", "is", "middling", "and", "so", "on"] "middling"
      ∧ Clashes muddled rudder
      ∧ ∃ x, IsFirst (fun x => Conflicts x.1 x.2) (withPrior [] (entries muddled rudder)) x
          ∧ x.2.1 = "rate" := by
  obtain ⟨-, -, hfaithful⟩ := lexicon_faithful steering rudder
  obtain ⟨hclash, hreport, -⟩ := lexicon_faithful muddled rudder
  refine ⟨⟨_, rfl, ((hfaithful _ rfl).resolves "low" _).mpr (.values (by decide))⟩, ?_,
    hclash.mp ⟨"rate", rfl⟩, ?_⟩
  · obtain ⟨w, hfirst, hw⟩ := ((hfaithful _ rfl).unknown
      ["error", "is", "middling", "and", "so", "on"] (.unknownIdentifier "middling")).mp rfl
    cases hw
    exact hfirst
  · obtain ⟨x, hfirst, hx⟩ := (hreport (.lexemeCollision "rate")).mp rfl
    exact ⟨x, hfirst, (RuleTextError.lexemeCollision.inj hx).symm⟩

end FuzzyInference.RuleText
