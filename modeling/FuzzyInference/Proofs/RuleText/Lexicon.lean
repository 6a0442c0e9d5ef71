import FuzzyInference.Proofs.Outcome
import FuzzyInference.RuleText.Lexicon
import Mathlib.Data.List.Pairwise

/-!
# What a lexicon knows

A lexicon is built entry by entry: a variable, its values, the next variable.
`entries` lists everything that is entered, in that order, and `meaning` reads
off such a list what a word stands for, without building anything.

The two facts about a finished lexicon are that it gives every word its meaning,
and that it can be finished exactly if no entry is a keyword and no two entries
of one name are incompatible (`foldlM_enter`). The order in which incompatible
entries stand does not matter, so the rest of the theory never looks at it.
-/

namespace FuzzyInference.RuleText

variable {κ ω ν μ : Type}

/-- What a name is entered as. -/
inductive Entry (ω ν : Type) where
  | input (key : VariableKey)
  | output (key : ω)
  | value (candidate : Candidate ω ν)

namespace Entry

/-- What a variable's name stands for. -/
def subject? : Entry ω ν → Option (Lexeme ω ν)
  | .input key => some (.input key)
  | .output key => some (.output key)
  | .value _ => none

/-- What a value's name may stand for. -/
def candidate? : Entry ω ν → Option (Candidate ω ν)
  | .value candidate => some candidate
  | _ => none

/-- Whether a name is entered as a variable's. -/
def isVariable (e : Entry ω ν) : Bool := e.subject?.isSome

theorem isVariable_eq_false_iff {e : Entry ω ν} : e.isVariable = false ↔ e.subject? = none := by
  rw [isVariable, Option.isSome_eq_false_iff, Option.isNone_iff_eq_none]

end Entry

/-- A variable and then its values. -/
def Vocabulary.entries (subject : κ → Entry ω ν) (candidate : κ → μ → Candidate ω ν)
    (v : Vocabulary κ μ) : List (String × Entry ω ν) :=
  (v.name, subject v.key) :: v.values.map fun (name, x) => (name, .value (candidate v.key x))

/-- Everything that is entered into the lexicon of a system. -/
def entries (inputs : List (Vocabulary VariableKey TermKey)) (outputs : List (Vocabulary ω ν)) :
    List (String × Entry ω ν) :=
  inputs.flatMap (Vocabulary.entries .input .input)
    ++ outputs.flatMap (Vocabulary.entries .output .output)

/-! ## Meanings -/

/-- The variable of a name. -/
def variableNamed (es : List (String × Entry ω ν)) (w : String) : Option (Lexeme ω ν) :=
  es.findSome? fun e => if e.1 = w then e.2.subject? else none

/-- The values of a name. -/
def candidatesNamed (es : List (String × Entry ω ν)) (w : String) : List (Candidate ω ν) :=
  es.filterMap fun e => if e.1 = w then e.2.candidate? else none

/-- The lexeme of some values, if there are any. -/
def valuesLexeme : List (Candidate ω ν) → Option (Lexeme ω ν)
  | [] => none
  | c :: cs => some (.values (c :: cs))

/-- What a word stands for after the given entries: a keyword, else a variable, else all values of
that name. -/
def meaning (es : List (String × Entry ω ν)) (w : String) : Option (Lexeme ω ν) :=
  (Lexicon.keywords.get? w).or ((variableNamed es w).or (valuesLexeme (candidatesNamed es w)))

/-- Entries that a lexicon takes both: of one name only values. -/
def Compatible (d e : String × Entry ω ν) : Prop :=
  d.1 = e.1 → d.2.subject? = none ∧ e.2.subject? = none

theorem Compatible.symm {d e : String × Entry ω ν} (h : Compatible d e) : Compatible e d :=
  fun he => ⟨(h he.symm).2, (h he.symm).1⟩

theorem variableNamed_append (es es' : List (String × Entry ω ν)) (w : String) :
    variableNamed (es ++ es') w = (variableNamed es w).or (variableNamed es' w) :=
  List.findSome?_append

theorem candidatesNamed_append (es es' : List (String × Entry ω ν)) (w : String) :
    candidatesNamed (es ++ es') w = candidatesNamed es w ++ candidatesNamed es' w :=
  List.filterMap_append

theorem variableNamed_eq_some {es : List (String × Entry ω ν)} {w : String} {l : Lexeme ω ν}
    (h : variableNamed es w = some l) : ∃ e, (w, e) ∈ es ∧ e.subject? = some l := by
  obtain ⟨⟨name, e⟩, he, hl⟩ := List.exists_of_findSome?_eq_some h
  dsimp only at hl
  split at hl
  · rename_i hname
    subst hname
    exact ⟨e, he, hl⟩
  · exact absurd hl (by simp)

theorem variableNamed_eq_none_iff {es : List (String × Entry ω ν)} {w : String} :
    variableNamed es w = none ↔ ∀ d ∈ es, d.1 = w → d.2.subject? = none := by
  unfold variableNamed
  rw [List.findSome?_eq_none_iff]
  simp

theorem candidatesNamed_eq_nil_iff {es : List (String × Entry ω ν)} {w : String} :
    candidatesNamed es w = [] ↔ ∀ d ∈ es, d.1 = w → d.2.candidate? = none := by
  unfold candidatesNamed
  rw [List.filterMap_eq_nil_iff]
  simp

/-- A keyword is a keyword only. -/
theorem keywords_eq_some {w : String} {l : Lexeme ω ν} (h : Lexicon.keywords.get? w = some l) :
    ∃ k : Keyword, w = k.word ∧ l = .keyword k := by
  simp only [OrderedMap.get?, Option.map_eq_some_iff] at h
  obtain ⟨⟨name, lexeme⟩, hfind, rfl⟩ := h
  have hname : name = w := by simpa using List.find?_some hfind
  obtain ⟨k, -, hk⟩ := List.mem_map.mp (List.mem_of_find?_eq_some hfind)
  cases hk
  exact ⟨k, hname.symm, rfl⟩

theorem keywords_word (k : Keyword) :
    Lexicon.keywords.get? k.word = some (.keyword k : Lexeme ω ν) := by
  cases k with
  | link l => cases l <;> rfl
  | hedge h => cases h <;> rfl
  | _ => rfl

theorem keywords_eq_none_iff {w : String} :
    (Lexicon.keywords : Lexicon ω ν).get? w = none ↔ ∀ k : Keyword, w ≠ k.word := by
  refine ⟨fun h k hk => ?_, fun h => ?_⟩
  · rw [hk, keywords_word] at h
    exact absurd h (by simp)
  · cases hget : (Lexicon.keywords : Lexicon ω ν).get? w with
    | none => rfl
    | some l =>
      obtain ⟨k, hk, -⟩ := keywords_eq_some hget
      exact absurd hk (h k)

/-! ## Entering -/

namespace Lexicon

/-- Enters a variable or a value. -/
def enter (lexicon : Lexicon ω ν) (e : String × Entry ω ν) : Except RuleTextError (Lexicon ω ν) :=
  match e.2 with
  | .input key => addVariable lexicon e.1 (.input key)
  | .output key => addVariable lexicon e.1 (.output key)
  | .value candidate => addValue lexicon e.1 candidate

/-- A lexicon gives every word its meaning. -/
def Knows (lexicon : Lexicon ω ν) (es : List (String × Entry ω ν)) : Prop :=
  ∀ w, lexicon.get? w = meaning es w

theorem knows_keywords : (keywords : Lexicon ω ν).Knows [] := by
  intro w
  simp [meaning, variableNamed, candidatesNamed, valuesLexeme]

/-- An entry that is no keyword and is compatible with all entries so far. -/
def Fits (es : List (String × Entry ω ν)) (e : String × Entry ω ν) : Prop :=
  (keywords : Lexicon ω ν).get? e.1 = none ∧ ∀ d ∈ es, Compatible d e

theorem meaning_eq_none_iff {es : List (String × Entry ω ν)} {w : String} :
    meaning es w = none ↔ (keywords : Lexicon ω ν).get? w = none ∧ ∀ d ∈ es, d.1 ≠ w := by
  have hvalues : valuesLexeme (candidatesNamed es w) = none ↔ candidatesNamed es w = [] := by
    cases candidatesNamed es w <;> simp [valuesLexeme]
  unfold meaning
  rw [Option.or_eq_none_iff, Option.or_eq_none_iff, hvalues, variableNamed_eq_none_iff,
    candidatesNamed_eq_nil_iff]
  refine and_congr_right fun _ => ⟨fun h d hd hw => ?_, fun h => ?_⟩
  · have hs := h.1 d hd hw
    have hc := h.2 d hd hw
    cases he : d.2 <;> rw [he] at hs hc <;> simp [Entry.subject?, Entry.candidate?] at hs hc
  · exact ⟨fun d hd hw => absurd hw (h d hd), fun d hd hw => absurd hw (h d hd)⟩

/-- After one more entry its name has a new meaning, and every other word keeps its own. -/
theorem meaning_append_of_ne {es : List (String × Entry ω ν)} {e : String × Entry ω ν} {w : String}
    (h : e.1 ≠ w) : meaning (es ++ [e]) w = meaning es w := by
  unfold meaning
  rw [variableNamed_append, candidatesNamed_append]
  simp [variableNamed, candidatesNamed, h]

/-- **A variable is entered exactly if its name is new.** -/
theorem addVariable_spec {lexicon : Lexicon ω ν} {es : List (String × Entry ω ν)}
    {e : String × Entry ω ν} {l : Lexeme ω ν} (hk : lexicon.Knows es)
    (hl : e.2.subject? = some l) :
    (Fits es e → ∃ lexicon', addVariable lexicon e.1 l = .ok lexicon' ∧ lexicon'.Knows (es ++ [e]))
      ∧ (¬ Fits es e → addVariable lexicon e.1 l = .error (.lexemeCollision e.1)) := by
  -- a variable is compatible with nothing of its name, so the name has to be new
  have hfits : Fits es e ↔ lexicon.get? e.1 = none := by
    rw [hk, meaning_eq_none_iff]
    refine and_congr_right fun _ => ⟨fun h d hd hw => ?_, fun h d hd hw => absurd hw (h d hd)⟩
    have := (h d hd hw).2
    rw [hl] at this
    exact absurd this (by simp)
  unfold addVariable
  refine ⟨fun hf => ?_, fun hf => ?_⟩
  · rw [hfits.mp hf]
    refine ⟨_, rfl, fun w => ?_⟩
    rw [OrderedMap.get?_insert]
    split
    · rename_i hw
      subst hw
      have hnone := meaning_eq_none_iff.mp ((hk e.1).symm.trans (hfits.mp hf))
      have hvar : variableNamed es e.1 = none :=
        variableNamed_eq_none_iff.mpr fun d hd hw => absurd hw (hnone.2 d hd)
      unfold meaning
      rw [hnone.1, variableNamed_append, hvar]
      simp [variableNamed, hl]
    · rename_i hw
      rw [hk, meaning_append_of_ne (Ne.symm hw)]
  · cases hget : lexicon.get? e.1 with
    | none => exact absurd (hfits.mpr hget) hf
    | some _ => rfl

/-- **A value is entered exactly if its name is new or names values only.** -/
theorem addValue_spec {lexicon : Lexicon ω ν} {es : List (String × Entry ω ν)}
    {e : String × Entry ω ν} {c : Candidate ω ν} (hk : lexicon.Knows es) (hc : e.2 = .value c) :
    (Fits es e → ∃ lexicon', addValue lexicon e.1 c = .ok lexicon' ∧ lexicon'.Knows (es ++ [e]))
      ∧ (¬ Fits es e → addValue lexicon e.1 c = .error (.lexemeCollision e.1)) := by
  -- a value is compatible with values of its name, so the name may stand for no variable
  have hfits : Fits es e
      ↔ (keywords : Lexicon ω ν).get? e.1 = none ∧ variableNamed es e.1 = none := by
    rw [variableNamed_eq_none_iff]
    refine and_congr_right fun _ => ⟨fun h d hd hw => (h d hd hw).1, fun h d hd hw => ?_⟩
    exact ⟨h d hd hw, by rw [hc]; rfl⟩
  have hget : lexicon.get? e.1 = meaning es e.1 := hk e.1
  unfold meaning at hget
  unfold addValue
  refine ⟨fun hf => ?_, fun hf => ?_⟩
  · obtain ⟨hkey, hvar⟩ := hfits.mp hf
    -- whatever is listed under the name so far, the new value is listed last
    have hnew : meaning (es ++ [e]) e.1 = some (.values (candidatesNamed es e.1 ++ [c])) := by
      unfold meaning
      rw [hkey, variableNamed_append, hvar, candidatesNamed_append]
      cases hcs : candidatesNamed es e.1 <;>
        simp [variableNamed, candidatesNamed, hc, Entry.subject?, Entry.candidate?, valuesLexeme]
    have hknows : ∀ cs : List (Candidate ω ν), cs = candidatesNamed es e.1 ++ [c] →
        Knows (lexicon.insert e.1 (.values cs)) (es ++ [e]) := by
      intro cs hcs w
      rw [OrderedMap.get?_insert]
      split
      · rename_i hw
        rw [hw, hnew, hcs]
      · rename_i hw
        rw [hk, meaning_append_of_ne (Ne.symm hw)]
    rw [hkey, hvar, Option.none_or, Option.none_or] at hget
    cases hcs : candidatesNamed es e.1 with
    | nil =>
      rw [hcs] at hget
      rw [hget]
      exact ⟨_, rfl, hknows _ (by rw [hcs]; rfl)⟩
    | cons d ds =>
      rw [hcs] at hget
      rw [hget]
      exact ⟨_, rfl, hknows _ (by rw [hcs])⟩
  · -- what is in the way is a keyword or a variable
    rw [hfits] at hf
    cases hkey : (keywords : Lexicon ω ν).get? e.1 with
    | some l =>
      obtain ⟨k, -, rfl⟩ := keywords_eq_some hkey
      rw [hkey, Option.some_or] at hget
      rw [hget]
    | none =>
      cases hvar : variableNamed es e.1 with
      | none => exact absurd ⟨hkey, hvar⟩ hf
      | some l =>
        obtain ⟨d, -, hd⟩ := variableNamed_eq_some hvar
        rw [hkey, hvar, Option.none_or, Option.some_or] at hget
        rw [hget]
        cases d with
        | value _ => exact absurd hd (by simp [Entry.subject?])
        | _ => cases hd; rfl

/-- **An entry is taken exactly if it fits.** -/
theorem enter_spec {lexicon : Lexicon ω ν} {es : List (String × Entry ω ν)}
    (hk : lexicon.Knows es) (e : String × Entry ω ν) :
    (Fits es e → ∃ lexicon', enter lexicon e = .ok lexicon' ∧ lexicon'.Knows (es ++ [e]))
      ∧ (¬ Fits es e → enter lexicon e = .error (.lexemeCollision e.1)) := by
  obtain ⟨name, d⟩ := e
  cases d with
  | input key => exact addVariable_spec hk rfl
  | output key => exact addVariable_spec hk rfl
  | value c => exact addValue_spec hk rfl

/-- **A lexicon is finished exactly if all entries fit, and then gives every word its meaning.** -/
theorem foldlM_enter {lexicon : Lexicon ω ν} {done : List (String × Entry ω ν)}
    (hk : lexicon.Knows done) (es : List (String × Entry ω ν)) :
    ((∀ e ∈ es, Fits done e) ∧ es.Pairwise Compatible
        ↔ ∃ lexicon', es.foldlM enter lexicon = .ok lexicon')
      ∧ ∀ lexicon', es.foldlM enter lexicon = .ok lexicon' → lexicon'.Knows (done ++ es) := by
  induction es generalizing lexicon done with
  | nil =>
    refine ⟨⟨fun _ => ⟨lexicon, rfl⟩, fun _ => by simp⟩, fun lexicon' h => ?_⟩
    cases h
    rwa [List.append_nil]
  | cons e es ih =>
    rw [List.foldlM_cons]
    by_cases hf : Fits done e
    · -- the entry joins those that are done, and the others have to fit the longer list
      obtain ⟨next, hnext, hknows⟩ := (enter_spec hk e).1 hf
      have hrest := ih hknows
      rw [List.append_assoc, List.singleton_append] at hrest
      rw [hnext, ok_bind, ← hrest.1]
      refine ⟨⟨fun h => ?_, fun h => ?_⟩, hrest.2⟩
      · refine ⟨fun d hd => ⟨(h.1 d (by simp [hd])).1, fun b hb => ?_⟩,
          (List.pairwise_cons.mp h.2).2⟩
        rcases List.mem_append.mp hb with hb | hb
        · exact (h.1 d (by simp [hd])).2 b hb
        · rw [List.mem_singleton.mp hb]
          exact (List.pairwise_cons.mp h.2).1 d hd
      · refine ⟨fun d hd => ?_, List.pairwise_cons.mpr ⟨fun d hd => ?_, h.2⟩⟩
        · rcases List.mem_cons.mp hd with rfl | hd
          · exact hf
          · exact ⟨(h.1 d hd).1, fun b hb => (h.1 d hd).2 b (List.mem_append_left _ hb)⟩
        · exact (h.1 d hd).2 e (by simp)
    · -- the first entry that does not fit is the last that is looked at
      rw [(enter_spec hk e).2 hf, error_bind]
      refine ⟨⟨fun h => absurd (h.1 e (by simp)) hf, fun h => ?_⟩, fun lexicon' h => ?_⟩
      · obtain ⟨lexicon', h⟩ := h
        exact absurd h (by simp)
      · exact absurd h (by simp)

/-! ## The lexicon of a system -/

theorem addVocabulary_eq (subject : κ → Entry ω ν) (lexeme : κ → Lexeme ω ν)
    (candidate : κ → μ → Candidate ω ν) (lexicon : Lexicon ω ν) (v : Vocabulary κ μ)
    (hs : ∀ lexicon name key,
      enter lexicon (name, subject key) = addVariable lexicon name (lexeme key)) :
    addVocabulary lexeme candidate lexicon v
      = (v.entries subject candidate).foldlM enter lexicon := by
  unfold addVocabulary Vocabulary.entries
  rw [List.foldlM_cons, hs]
  refine congrArg _ (funext fun next => ?_)
  rw [List.foldlM_map]
  rfl

theorem foldlM_addVocabulary (subject : κ → Entry ω ν) (lexeme : κ → Lexeme ω ν)
    (candidate : κ → μ → Candidate ω ν) (vs : List (Vocabulary κ μ)) (lexicon : Lexicon ω ν)
    (hs : ∀ lexicon name key,
      enter lexicon (name, subject key) = addVariable lexicon name (lexeme key)) :
    vs.foldlM (addVocabulary lexeme candidate) lexicon
      = (vs.flatMap (Vocabulary.entries subject candidate)).foldlM enter lexicon := by
  induction vs generalizing lexicon with
  | nil => rfl
  | cons v vs ih =>
    rw [List.foldlM_cons, List.flatMap_cons, List.foldlM_append,
      addVocabulary_eq subject lexeme candidate lexicon v hs]
    exact congrArg _ (funext ih)

theorem ofVocabularies_eq (inputs : List (Vocabulary VariableKey TermKey))
    (outputs : List (Vocabulary ω ν)) :
    ofVocabularies inputs outputs = (entries inputs outputs).foldlM enter keywords := by
  unfold ofVocabularies entries
  rw [List.foldlM_append, foldlM_addVocabulary .input .input .input inputs _ fun _ _ _ => rfl]
  exact congrArg _ (funext fun lexicon =>
    foldlM_addVocabulary .output .output .output outputs lexicon fun _ _ _ => rfl)

/-- **A system has a lexicon exactly if its entries fit together.** -/
theorem exists_ofVocabularies_iff (inputs : List (Vocabulary VariableKey TermKey))
    (outputs : List (Vocabulary ω ν)) :
    (∃ lexicon, ofVocabularies inputs outputs = .ok lexicon)
      ↔ (∀ e ∈ entries inputs outputs, (keywords : Lexicon ω ν).get? e.1 = none)
        ∧ (entries inputs outputs).Pairwise Compatible := by
  rw [ofVocabularies_eq, ← (foldlM_enter knows_keywords _).1]
  simp [Fits]

section Known

variable {inputs : List (Vocabulary VariableKey TermKey)} {outputs : List (Vocabulary ω ν)}
  {lexicon : Lexicon ω ν}

theorem knows_entries (h : ofVocabularies inputs outputs = .ok lexicon) :
    lexicon.Knows (entries inputs outputs) := by
  rw [ofVocabularies_eq] at h
  exact (foldlM_enter knows_keywords _).2 lexicon h

theorem keywords_eq_none_of_mem (h : ofVocabularies inputs outputs = .ok lexicon)
    {e : String × Entry ω ν} (he : e ∈ entries inputs outputs) :
    (keywords : Lexicon ω ν).get? e.1 = none :=
  ((exists_ofVocabularies_iff inputs outputs).mp ⟨lexicon, h⟩).1 e he

theorem compatible_of_mem (h : ofVocabularies inputs outputs = .ok lexicon)
    {d e : String × Entry ω ν} (hd : d ∈ entries inputs outputs) (he : e ∈ entries inputs outputs)
    (hne : d ≠ e) : Compatible d e :=
  have := Std.Symm.mk fun (a b : String × Entry ω ν) => Compatible.symm (d := a) (e := b)
  ((exists_ofVocabularies_iff inputs outputs).mp ⟨lexicon, h⟩).2.forall hd he hne

/-- A keyword is known as such. -/
theorem get?_word (h : ofVocabularies inputs outputs = .ok lexicon) (k : Keyword) :
    lexicon.get? k.word = some (.keyword k) := by
  rw [knows_entries h, meaning, keywords_word, Option.some_or]

/-- The name of a variable is known as such. -/
theorem get?_of_mem_entries (h : ofVocabularies inputs outputs = .ok lexicon) {w : String}
    {e : Entry ω ν} {l : Lexeme ω ν} (he : (w, e) ∈ entries inputs outputs)
    (hl : e.subject? = some l) : lexicon.get? w = some l := by
  have hvar : variableNamed (entries inputs outputs) w = some l := by
    cases hv : variableNamed (entries inputs outputs) w with
    | none =>
      have := variableNamed_eq_none_iff.mp hv _ he rfl
      exact absurd (hl.symm.trans this) (by simp)
    | some l' =>
      obtain ⟨d, hd, hl'⟩ := variableNamed_eq_some hv
      by_cases hde : (w, d) = (w, e)
      · cases hde
        exact hl'.symm.trans hl
      · have := (compatible_of_mem h hd he hde rfl).2
        exact absurd (hl.symm.trans this) (by simp)
  rw [knows_entries h, meaning, keywords_eq_none_of_mem h he, hvar]
  rfl

/-- A word that stands for a single thing is a keyword, or it was entered as that thing. -/
theorem eq_word_or_mem_entries (h : ofVocabularies inputs outputs = .ok lexicon) {w : String}
    {l : Lexeme ω ν} (hget : lexicon.get? w = some l) :
    (∃ k : Keyword, w = k.word ∧ l = .keyword k)
      ∨ (∃ e, (w, e) ∈ entries inputs outputs ∧ e.subject? = some l)
      ∨ l = .values (candidatesNamed (entries inputs outputs) w) := by
  rw [knows_entries h, meaning] at hget
  cases hkey : (keywords : Lexicon ω ν).get? w with
  | some l' =>
    rw [hkey, Option.some_or] at hget
    cases hget
    exact Or.inl (keywords_eq_some hkey)
  | none =>
    rw [hkey, Option.none_or] at hget
    cases hvar : variableNamed (entries inputs outputs) w with
    | some l' =>
      rw [hvar, Option.some_or] at hget
      cases hget
      exact Or.inr (Or.inl (variableNamed_eq_some hvar))
    | none =>
      rw [hvar, Option.none_or] at hget
      cases hcs : candidatesNamed (entries inputs outputs) w with
      | nil => rw [hcs] at hget; exact absurd hget (by simp [valuesLexeme])
      | cons c cs => rw [hcs] at hget; cases hget; exact Or.inr (Or.inr rfl)

theorem eq_word_of_get? (h : ofVocabularies inputs outputs = .ok lexicon) {w : String}
    {k : Keyword} (hget : lexicon.get? w = some (.keyword k)) : w = k.word := by
  rcases eq_word_or_mem_entries h hget with ⟨k', hw, hl⟩ | ⟨e, -, he⟩ | hl
  · cases hl
    exact hw
  · cases e <;> exact absurd he (by simp [Entry.subject?])
  · exact absurd hl (by simp)

/-- A token of a known word may stand for the values of that name and for no others. -/
theorem candidates_eq (h : ofVocabularies inputs outputs = .ok lexicon) {t : Token ω ν}
    (ht : lexicon.get? t.text = some t.lexeme) :
    t.candidates = candidatesNamed (entries inputs outputs) t.text := by
  obtain ⟨w, l⟩ := t
  dsimp only at ht ⊢
  rcases eq_word_or_mem_entries h ht with ⟨k, rfl, rfl⟩ | ⟨e, he, hl⟩ | rfl
  · refine (candidatesNamed_eq_nil_iff.mpr fun d hd hdw => ?_).symm
    have hnone := keywords_eq_none_of_mem h hd
    rw [hdw, keywords_word] at hnone
    exact absurd hnone (by simp)
  · have hnil : candidatesNamed (entries inputs outputs) w = [] := by
      refine candidatesNamed_eq_nil_iff.mpr fun d hd hdw => ?_
      obtain ⟨w', d⟩ := d
      cases hdw
      by_cases hde : (w', d) = (w', e)
      · cases hde
        cases e <;> first | rfl | exact absurd hl (by simp [Entry.subject?])
      · have := (compatible_of_mem h hd he hde rfl).2
        exact absurd (hl.symm.trans this) (by simp)
    rw [hnil]
    cases e <;> cases hl <;> rfl
  · rfl

end Known

end Lexicon

/-! ## Variables and their values -/

section Values

variable {inputs : List (Vocabulary VariableKey TermKey)} {outputs : List (Vocabulary ω ν)}
  {lexicon : Lexicon ω ν}

/-- An entry that is no value is the entry of a variable. -/
theorem exists_of_subject? {subject : κ → Entry ω ν} {candidate : κ → μ → Candidate ω ν}
    {vs : List (Vocabulary κ μ)} {w : String} {e : Entry ω ν} {l : Lexeme ω ν}
    (he : (w, e) ∈ vs.flatMap (Vocabulary.entries subject candidate))
    (hl : e.subject? = some l) : ∃ v ∈ vs, v.name = w ∧ subject v.key = e := by
  obtain ⟨v, hv, he⟩ := List.mem_flatMap.mp he
  rcases List.mem_cons.mp he with he | he
  · cases he
    exact ⟨v, hv, rfl, rfl⟩
  · obtain ⟨x, -, hx⟩ := List.mem_map.mp he
    cases hx
    exact absurd hl (by simp [Entry.subject?])

/-- The name of an input is known as that input. -/
theorem get?_input (h : Lexicon.ofVocabularies inputs outputs = .ok lexicon)
    {v : Vocabulary VariableKey TermKey} (hv : v ∈ inputs) :
    lexicon.get? v.name = some (.input v.key) := by
  have hmem : (v.name, .input v.key) ∈ entries inputs outputs :=
    List.mem_append_left _ (List.mem_flatMap.mpr ⟨v, hv, List.mem_cons_self⟩)
  exact Lexicon.get?_of_mem_entries h hmem rfl

/-- The name of an output is known as that output. -/
theorem get?_output (h : Lexicon.ofVocabularies inputs outputs = .ok lexicon)
    {v : Vocabulary ω ν} (hv : v ∈ outputs) : lexicon.get? v.name = some (.output v.key) := by
  have hmem : (v.name, .output v.key) ∈ entries inputs outputs :=
    List.mem_append_right _ (List.mem_flatMap.mpr ⟨v, hv, List.mem_cons_self⟩)
  exact Lexicon.get?_of_mem_entries h hmem rfl

/-- No other word is known as an input. -/
theorem exists_input (h : Lexicon.ofVocabularies inputs outputs = .ok lexicon) {w : String}
    {key : VariableKey} (hget : lexicon.get? w = some (.input key)) :
    ∃ v ∈ inputs, v.name = w ∧ v.key = key := by
  rcases Lexicon.eq_word_or_mem_entries h hget with ⟨k, -, hl⟩ | ⟨e, he, hl⟩ | hl
  · exact absurd hl (by simp)
  · rcases List.mem_append.mp he with he | he
    · obtain ⟨v, hv, hname, rfl⟩ := exists_of_subject? he hl
      cases hl
      exact ⟨v, hv, hname, rfl⟩
    · obtain ⟨v, -, -, rfl⟩ := exists_of_subject? he hl
      exact absurd hl (by simp [Entry.subject?])
  · exact absurd hl (by simp)

/-- No other word is known as an output. -/
theorem exists_output (h : Lexicon.ofVocabularies inputs outputs = .ok lexicon) {w : String}
    {key : ω} (hget : lexicon.get? w = some (.output key)) :
    ∃ v ∈ outputs, v.name = w ∧ v.key = key := by
  rcases Lexicon.eq_word_or_mem_entries h hget with ⟨k, -, hl⟩ | ⟨e, he, hl⟩ | hl
  · exact absurd hl (by simp)
  · rcases List.mem_append.mp he with he | he
    · obtain ⟨v, -, -, rfl⟩ := exists_of_subject? he hl
      exact absurd hl (by simp [Entry.subject?])
    · obtain ⟨v, hv, hname, rfl⟩ := exists_of_subject? he hl
      cases hl
      exact ⟨v, hv, hname, rfl⟩
  · exact absurd hl (by simp)

/-- Whatever is entered is known. -/
theorem exists_get?_of_mem_entries (h : Lexicon.ofVocabularies inputs outputs = .ok lexicon)
    {e : String × Entry ω ν} (he : e ∈ entries inputs outputs) :
    ∃ l, lexicon.get? e.1 = some l := by
  cases hget : lexicon.get? e.1 with
  | some l => exact ⟨l, rfl⟩
  | none =>
    rw [Lexicon.knows_entries h, Lexicon.meaning_eq_none_iff] at hget
    exact absurd rfl (hget.2 e he)

theorem mem_entries_of_lookup {subject : κ → Entry ω ν} {candidate : κ → μ → Candidate ω ν}
    {v : Vocabulary κ μ} {name : String} {x : μ} (h : v.values.lookup name = some x) :
    (name, .value (candidate v.key x)) ∈ v.entries subject candidate := by
  obtain ⟨l₁, l₂, hv, -⟩ := List.lookup_eq_some_iff.mp h
  refine List.mem_cons_of_mem _ (List.mem_map.mpr ⟨(name, x), ?_, rfl⟩)
  rw [hv]
  simp

/-- The name of a term is known. -/
theorem exists_get?_term (h : Lexicon.ofVocabularies inputs outputs = .ok lexicon)
    {v : Vocabulary VariableKey TermKey} (hv : v ∈ inputs) {name : String} {x : TermKey}
    (hx : v.values.lookup name = some x) : ∃ l, lexicon.get? name = some l :=
  exists_get?_of_mem_entries h
    (List.mem_append_left _ (List.mem_flatMap.mpr ⟨v, hv, mem_entries_of_lookup hx⟩))

/-- The name of an output's value is known. -/
theorem exists_get?_value (h : Lexicon.ofVocabularies inputs outputs = .ok lexicon)
    {v : Vocabulary ω ν} (hv : v ∈ outputs) {name : String} {x : ν}
    (hx : v.values.lookup name = some x) : ∃ l, lexicon.get? name = some l :=
  exists_get?_of_mem_entries h
    (List.mem_append_right _ (List.mem_flatMap.mpr ⟨v, hv, mem_entries_of_lookup hx⟩))

/-- Of the values that one vocabulary lists under a name, the first counts. -/
theorem findSome?_entries [DecidableEq κ] {subject : κ → Entry ω ν}
    {candidate : κ → μ → Candidate ω ν} {pick : Candidate ω ν → Option μ} {key : κ}
    (hs : ∀ k, (subject k).candidate? = none)
    (hpick : ∀ k x, pick (candidate k x) = if k = key then some x else none)
    (v : Vocabulary κ μ) (w : String) :
    (candidatesNamed (v.entries subject candidate) w).findSome? pick
      = if v.key = key then v.values.lookup w else none := by
  have htail : ∀ values : List (String × μ),
      (candidatesNamed (values.map fun e => (e.1, .value (candidate v.key e.2))) w).findSome? pick
        = if v.key = key then values.lookup w else none := by
    intro values
    induction values with
    | nil => simp [candidatesNamed]
    | cons e values ih =>
      rw [List.map_cons, ← List.singleton_append, candidatesNamed_append, List.findSome?_append, ih,
        List.lookup_cons]
      by_cases hw : e.1 = w
      · have hbeq : (w == e.1) = true := by simp [hw]
        by_cases hk : v.key = key <;>
          simp [candidatesNamed, Entry.candidate?, hw, hpick, hk]
      · have hbeq : (w == e.1) = false := by simp [Ne.symm hw]
        simp [candidatesNamed, hw, hbeq]
  unfold Vocabulary.entries
  rw [← List.singleton_append, candidatesNamed_append, List.findSome?_append]
  have hhead : candidatesNamed [(v.name, subject v.key)] w = [] := by
    simp [candidatesNamed, hs]
  rw [hhead, List.findSome?_nil, Option.none_or]
  exact htail v.values

/-- Among variables of different keys the key decides whose value a name is. -/
theorem findSome?_flatMap_entries [DecidableEq κ] {subject : κ → Entry ω ν}
    {candidate : κ → μ → Candidate ω ν} {pick : Candidate ω ν → Option μ} {v : Vocabulary κ μ}
    (hs : ∀ k, (subject k).candidate? = none)
    (hpick : ∀ k x, pick (candidate k x) = if k = v.key then some x else none)
    {vs : List (Vocabulary κ μ)} (hkeys : (vs.map (·.key)).Nodup) (hv : v ∈ vs) (w : String) :
    (candidatesNamed (vs.flatMap (Vocabulary.entries subject candidate)) w).findSome? pick
      = v.values.lookup w := by
  have hother : ∀ us : List (Vocabulary κ μ), (∀ u ∈ us, u.key ≠ v.key) →
      (candidatesNamed (us.flatMap (Vocabulary.entries subject candidate)) w).findSome? pick
        = none := by
    intro us hus
    induction us with
    | nil => rfl
    | cons u us ih =>
      rw [List.flatMap_cons, candidatesNamed_append, List.findSome?_append,
        findSome?_entries hs hpick, if_neg (hus u (by simp)), Option.none_or]
      exact ih fun u' hu' => hus u' (List.mem_cons_of_mem _ hu')
  induction vs with
  | nil => exact absurd hv (by simp)
  | cons u us ih =>
    rw [List.map_cons, List.nodup_cons] at hkeys
    rw [List.flatMap_cons, candidatesNamed_append, List.findSome?_append,
      findSome?_entries hs hpick]
    rcases List.mem_cons.mp hv with rfl | hv
    · have hrest : ∀ u ∈ us, u.key ≠ v.key := fun u hu he =>
        hkeys.1 (List.mem_map.mpr ⟨u, hu, he⟩)
      rw [if_pos rfl, hother us hrest, Option.or_none]
    · have hne : u.key ≠ v.key := fun he => hkeys.1 (List.mem_map.mpr ⟨v, hv, he.symm⟩)
      rw [if_neg hne, Option.none_or]
      exact ih hkeys.2 hv

/-- Values of the other side of a system do not interfere. -/
theorem findSome?_flatMap_entries_none {subject : κ → Entry ω ν} {β : Type}
    {candidate : κ → μ → Candidate ω ν} {pick : Candidate ω ν → Option β}
    (hs : ∀ k, (subject k).candidate? = none) (hpick : ∀ k x, pick (candidate k x) = none)
    (vs : List (Vocabulary κ μ)) (w : String) :
    (candidatesNamed (vs.flatMap (Vocabulary.entries subject candidate)) w).findSome? pick
      = none := by
  rw [List.findSome?_eq_none_iff]
  intro c hc
  obtain ⟨e, he, hce⟩ := List.mem_filterMap.mp hc
  obtain ⟨v, -, hev⟩ := List.mem_flatMap.mp he
  split at hce
  · rcases List.mem_cons.mp hev with rfl | hev
    · exact absurd (hce.symm.trans (hs v.key)) (by simp)
    · obtain ⟨⟨name, x⟩, -, rfl⟩ := List.mem_map.mp hev
      cases hce
      exact hpick v.key x
  · exact absurd hce (by simp)

/-- **A token names a term of an input exactly if the input declares one of that name**, and then
the one it declares first. -/
theorem inputTerm?_eq (h : Lexicon.ofVocabularies inputs outputs = .ok lexicon)
    (hkeys : (inputs.map (·.key)).Nodup) {t : Token ω ν}
    (ht : lexicon.get? t.text = some t.lexeme) {v : Vocabulary VariableKey TermKey}
    (hv : v ∈ inputs) : t.inputTerm? v.key = v.values.lookup t.text := by
  unfold Token.inputTerm?
  rw [Lexicon.candidates_eq h ht, entries, candidatesNamed_append, List.findSome?_append,
    findSome?_flatMap_entries (fun _ => rfl) (fun _ _ => rfl) hkeys hv,
    findSome?_flatMap_entries_none (fun _ => rfl) (fun _ _ => rfl), Option.or_none]

/-- The same for values of outputs. -/
theorem outputValue?_eq [DecidableEq ω] (h : Lexicon.ofVocabularies inputs outputs = .ok lexicon)
    (hkeys : (outputs.map (·.key)).Nodup) {t : Token ω ν}
    (ht : lexicon.get? t.text = some t.lexeme) {v : Vocabulary ω ν}
    (hv : v ∈ outputs) : t.outputValue? v.key = v.values.lookup t.text := by
  unfold Token.outputValue?
  rw [Lexicon.candidates_eq h ht, entries, candidatesNamed_append, List.findSome?_append,
    findSome?_flatMap_entries_none (fun _ => rfl) (fun _ _ => rfl), Option.none_or,
    findSome?_flatMap_entries (fun _ => rfl) (fun _ _ => rfl) hkeys hv]

end Values

end FuzzyInference.RuleText
