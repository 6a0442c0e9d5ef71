import FuzzyInference.Name
import FuzzyInference.Proofs.RuleText.Lexicon
import FuzzyInference.Proofs.RuleText.Words

/-!
# Names are fit for rules

A valid name is one word of a rule and no keyword, because letters and digits
are neither white space nor parentheses. Vocabularies have a lexicon unless
their names clash (`exists_lexicon_iff`), and valid names can only clash by being
used twice where they must not be (`exists_lexicon`).
-/

namespace FuzzyInference.RuleText

open Text

/-! ## Characters -/

/-- Ranges without a common number. -/
def apart (r s : Nat × Nat) : Bool := r.2 < s.1 || s.2 < r.1

theorem not_mem_of_apart (rs ss : List (Nat × Nat)) (h : rs.all fun r => ss.all (apart r)) {n : Nat}
    (hn : rs.any fun r => r.1 ≤ n && n ≤ r.2) : (ss.any fun s => s.1 ≤ n && n ≤ s.2) = false := by
  rw [List.any_eq_true] at hn
  obtain ⟨r, hr, hin⟩ := hn
  rw [List.any_eq_false]
  intro s hs hout
  have hapart := List.all_eq_true.mp (List.all_eq_true.mp h r hr) s hs
  simp only [apart, Bool.or_eq_true, Bool.and_eq_true, decide_eq_true_eq] at hin hout hapart
  omega

/-- White space is neither letter nor digit. -/
theorem isAlphanumeric_of_isBlank {c : Char} (h : isBlank c) : isAlphanumeric c = false :=
  not_mem_of_apart blankRanges alphanumericRanges (by decide +kernel) h

/-- What a name consists of can stand in a word. -/
theorem isLetter_of_name {c : Char} (h : isAlphanumeric c || c = '_') : isLetter c := by
  rw [Bool.or_eq_true, decide_eq_true_eq] at h
  rcases h with h | rfl
  · have hblank : isBlank c = false := by
      cases hb : isBlank c with
      | false => rfl
      | true => exact absurd h (by rw [isAlphanumeric_of_isBlank hb]; simp)
    have hparen : isParenthesis c = false := by
      cases hp : isParenthesis c with
      | false => rfl
      | true =>
        simp only [isParenthesis, Bool.or_eq_true, decide_eq_true_eq] at hp
        rcases hp with rfl | rfl <;> exact absurd h (by decide +kernel)
    unfold isLetter
    rw [hblank, hparen]
    rfl
  · decide

/-! ## Names -/

theorem isValid_iff {name : String} :
    Name.isValid name ↔ name ≠ "" ∧ (∀ c ∈ name.toList, isAlphanumeric c || c = '_')
      ∧ name ∉ Name.reserved := by
  simp only [Name.isValid, Bool.and_eq_true, List.all_eq_true, ne_eq, and_assoc,
    decide_not, Bool.not_eq_true', decide_eq_false_iff_not]

/-- **A name is a word.** -/
theorem words_name {name : String} (h : Name.isValid name) : words name = [name] := by
  obtain ⟨hne, hchars, -⟩ := isValid_iff.mp h
  exact words_letters hne (List.all_eq_true.mpr fun c hc => isLetter_of_name (hchars c hc))

/-- **A name is no keyword.** -/
theorem keywords_name {ω ν : Type} {name : String} (h : Name.isValid name) :
    (Lexicon.keywords : Lexicon ω ν).get? name = none := by
  cases hk : (Lexicon.keywords : Lexicon ω ν).get? name with
  | none => rfl
  | some l =>
    obtain ⟨k, rfl, -⟩ := keywords_eq_some hk
    have hall : ∀ k : Keyword, k ∈ Keyword.all := by
      intro k
      cases k with
      | link l => cases l <;> decide
      | hedge g => cases g <;> decide
      | _ => decide
    exact absurd (List.mem_map_of_mem (hall k)) (isValid_iff.mp h).2.2

/-! ## Vocabularies -/

section Vocabularies

variable {κ ω ν μ : Type}

/-- The names of all variables. -/
def variableNames (inputs : List (Vocabulary VariableKey TermKey))
    (outputs : List (Vocabulary ω ν)) : List String :=
  inputs.map (·.name) ++ outputs.map (·.name)

/-- Valid names, each of one variable at most, and none of both a variable and a value. -/
structure WellNamed (inputs : List (Vocabulary VariableKey TermKey))
    (outputs : List (Vocabulary ω ν)) : Prop where
  valid : ∀ e ∈ entries inputs outputs, Name.isValid e.1
  distinct : (variableNames inputs outputs).Nodup
  terms : ∀ v ∈ inputs, ∀ x ∈ v.values, x.1 ∉ variableNames inputs outputs
  values : ∀ v ∈ outputs, ∀ x ∈ v.values, x.1 ∉ variableNames inputs outputs

/-- The names of all values. -/
def valueNames (inputs : List (Vocabulary VariableKey TermKey))
    (outputs : List (Vocabulary ω ν)) : List String :=
  inputs.flatMap (fun v => v.values.map Prod.fst)
    ++ outputs.flatMap (fun v => v.values.map Prod.fst)

/-- A name is put to uses that it cannot have together: a keyword names something, a variable has
the name of another one, or a value has the name of a variable. -/
def Clashes (inputs : List (Vocabulary VariableKey TermKey)) (outputs : List (Vocabulary ω ν)) :
    Prop :=
  (∃ name ∈ variableNames inputs outputs, ∃ k : Keyword, name = k.word)
    ∨ ¬ (variableNames inputs outputs).Nodup
    ∨ ∃ name ∈ valueNames inputs outputs,
        (∃ k : Keyword, name = k.word) ∨ name ∈ variableNames inputs outputs

/-- Entries are compatible if no two variables have one name and no value has a variable's. -/
theorem pairwise_compatible_iff {es : List (String × Entry ω ν)} :
    es.Pairwise Compatible ↔ ((es.filter (·.2.isVariable)).map Prod.fst).Nodup
      ∧ ∀ d ∈ es, ∀ e ∈ es, d.2.isVariable → e.2.isVariable = false → d.1 ≠ e.1 := by
  unfold List.Nodup
  rw [List.pairwise_map, List.pairwise_filter]
  refine ⟨fun h => ⟨h.imp fun hcompatible hvariable _ heq => ?_,
    fun d hd e he hvariable hvalue heq => ?_⟩, fun h => ?_⟩
  · rw [Entry.isVariable_eq_false_iff.mpr (hcompatible heq).1] at hvariable
    exact absurd hvariable (by simp)
  · have := Std.Symm.mk fun (a b : String × Entry ω ν) => Compatible.symm (d := a) (e := b)
    have hne : d ≠ e := by
      rintro rfl
      exact absurd (hvalue.symm.trans hvariable) (by simp)
    rw [Entry.isVariable_eq_false_iff.mpr (h.forall hd he hne heq).1] at hvariable
    exact absurd hvariable (by simp)
  · refine h.1.imp_of_mem fun {d e} hd he hdistinct heq => ?_
    rw [← Entry.isVariable_eq_false_iff, ← Entry.isVariable_eq_false_iff]
    -- of two entries of one name neither is a variable's, or both are
    cases hvd : d.2.isVariable <;> cases hve : e.2.isVariable
    · exact ⟨rfl, rfl⟩
    · exact absurd heq.symm (h.2 e he d hd hve hvd)
    · exact absurd heq (h.2 d hd e he hvd hve)
    · exact absurd heq (hdistinct hvd hve)

/-- Among the entries of some vocabularies those of variables and those of values are told apart. -/
theorem map_fst_entries {subject : κ → Entry ω ν} {candidate : κ → μ → Candidate ω ν}
    (hs : ∀ k, (subject k).isVariable) (vs : List (Vocabulary κ μ)) :
    ((vs.flatMap (Vocabulary.entries subject candidate)).filter (·.2.isVariable)).map Prod.fst
        = vs.map (·.name)
      ∧ ((vs.flatMap (Vocabulary.entries subject candidate)).filter (!·.2.isVariable)).map Prod.fst
        = vs.flatMap fun v => v.values.map Prod.fst := by
  induction vs with
  | nil => exact ⟨rfl, rfl⟩
  | cons v vs ih =>
    have hvalue : ∀ e ∈ v.values.map fun x => (x.1, Entry.value (candidate v.key x.2)),
        e.2.isVariable = false := by
      intro e he
      obtain ⟨x, -, rfl⟩ := List.mem_map.mp he
      rfl
    have hnone := List.filter_eq_nil_iff.mpr fun e he => Bool.eq_false_iff.mp (hvalue e he)
    have hall := List.filter_eq_self.mpr fun e he => (Bool.not_eq_true' _).mpr (hvalue e he)
    rw [List.flatMap_cons, List.filter_append, List.filter_append, List.map_append,
      List.map_append, ih.1, ih.2, Vocabulary.entries, List.filter_cons, List.filter_cons, hnone,
      hall, hs v.key]
    refine ⟨rfl, ?_⟩
    rw [if_neg (by simp), List.map_map]
    rfl

variable {inputs : List (Vocabulary VariableKey TermKey)} {outputs : List (Vocabulary ω ν)}

theorem variableNames_eq :
    ((entries inputs outputs).filter (·.2.isVariable)).map Prod.fst
      = variableNames inputs outputs := by
  rw [entries, List.filter_append, List.map_append, (map_fst_entries (fun _ => rfl) inputs).1,
    (map_fst_entries (fun _ => rfl) outputs).1]
  rfl

theorem valueNames_eq :
    ((entries inputs outputs).filter (!·.2.isVariable)).map Prod.fst
      = valueNames inputs outputs := by
  rw [entries, List.filter_append, List.map_append, (map_fst_entries (fun _ => rfl) inputs).2,
    (map_fst_entries (fun _ => rfl) outputs).2]
  rfl

theorem mem_variableNames_iff {w : String} :
    w ∈ variableNames inputs outputs ↔ ∃ e, (w, e) ∈ entries inputs outputs ∧ e.isVariable := by
  rw [← variableNames_eq]
  simp

theorem mem_valueNames_iff {w : String} :
    w ∈ valueNames inputs outputs
      ↔ ∃ e, (w, e) ∈ entries inputs outputs ∧ e.isVariable = false := by
  rw [← valueNames_eq]
  simp

/-- **A system has a lexicon unless its names clash.** -/
theorem exists_lexicon_iff :
    (∃ lexicon, Lexicon.ofVocabularies inputs outputs = .ok lexicon)
      ↔ ¬ Clashes inputs outputs := by
  rw [Lexicon.exists_ofVocabularies_iff, pairwise_compatible_iff, variableNames_eq]
  refine ⟨fun h hclash => ?_, fun h => ?_⟩
  · obtain ⟨hkeywords, hdistinct, hvalues⟩ := h
    rcases hclash with ⟨name, hname, k, hk⟩ | hrepeated | ⟨name, hname, hvalue⟩
    · obtain ⟨e, he, -⟩ := mem_variableNames_iff.mp hname
      exact keywords_eq_none_iff.mp (hkeywords _ he) k hk
    · exact hrepeated hdistinct
    · obtain ⟨e, he, hev⟩ := mem_valueNames_iff.mp hname
      rcases hvalue with ⟨k, hk⟩ | hvariable
      · exact keywords_eq_none_iff.mp (hkeywords _ he) k hk
      · obtain ⟨d, hd, hdv⟩ := mem_variableNames_iff.mp hvariable
        exact hvalues _ hd _ he hdv hev rfl
  · unfold Clashes at h
    simp only [not_or, not_exists, not_and, not_not] at h
    obtain ⟨hvariables, hdistinct, hvalues⟩ := h
    refine ⟨fun e he => keywords_eq_none_iff.mpr fun k => ?_, hdistinct,
      fun d hd e he hdv hev heq => ?_⟩
    · cases hev : e.2.isVariable with
      | true => exact hvariables e.1 (mem_variableNames_iff.mpr ⟨e.2, he, hev⟩) k
      | false => exact (hvalues e.1 (mem_valueNames_iff.mpr ⟨e.2, he, hev⟩)).1 k
    · refine (hvalues e.1 (mem_valueNames_iff.mpr ⟨e.2, he, hev⟩)).2 ?_
      exact mem_variableNames_iff.mpr ⟨d.2, heq ▸ hd, hdv⟩

/-- **Well named vocabularies have a lexicon.** -/
theorem exists_lexicon (h : WellNamed inputs outputs) :
    ∃ lexicon, Lexicon.ofVocabularies inputs outputs = .ok lexicon := by
  have hkeyword : ∀ e ∈ entries inputs outputs, ∀ k : Keyword, e.1 ≠ k.word := fun e he =>
    keywords_eq_none_iff.mp (keywords_name (ω := ω) (ν := ν) (h.valid e he))
  refine exists_lexicon_iff.mpr fun hclash => ?_
  rcases hclash with ⟨name, hname, k, hk⟩ | hrepeated | ⟨name, hname, ⟨k, hk⟩ | hvariable⟩
  · obtain ⟨e, he, -⟩ := mem_variableNames_iff.mp hname
    exact hkeyword _ he k hk
  · exact hrepeated h.distinct
  · obtain ⟨e, he, -⟩ := mem_valueNames_iff.mp hname
    exact hkeyword _ he k hk
  · rcases List.mem_append.mp hname with hname | hname
    · obtain ⟨v, hv, hmem⟩ := List.mem_flatMap.mp hname
      obtain ⟨x, hx, rfl⟩ := List.mem_map.mp hmem
      exact h.terms v hv x hx hvariable
    · obtain ⟨v, hv, hmem⟩ := List.mem_flatMap.mp hname
      obtain ⟨x, hx, rfl⟩ := List.mem_map.mp hmem
      exact h.values v hv x hx hvariable

end Vocabularies

end FuzzyInference.RuleText
