import FuzzyInference.Proofs.RuleText.Writing
import FuzzyInference.RuleText.Sentence
import Mathlib.Data.List.Chain

/-!
# Only words count

The normal form of a text is its words with single spaces between them
(`normalize_eq`). It is written in one pass that looks at what it has written so
far, so the argument is about that: white space is there as single spaces from
the first character on (`SingleSpaced`), and what is trimmed in the end is what
there is of it at the ends. A text like that is made of its words and nothing
else.

The reader goes by the normal form, so it goes by the words: texts of the same
words are read alike, or are refused alike (`read_eq_readWords`).
-/

namespace FuzzyInference.RuleText

open Text

/-! ## Words are words -/

/-- A word is a parenthesis, or it has letters only. -/
theorem mem_wordChars {text w : List Char} (h : w ∈ wordChars text) :
    (∃ c, isParenthesis c ∧ w = [c]) ∨ ∃ c u, w = c :: u ∧ ∀ d ∈ w, isLetter d := by
  fun_induction wordChars text with
  | case1 => exact absurd h List.not_mem_nil
  | case2 c rest hc ih => exact ih h
  | case3 c rest hc hp ih =>
    rcases List.mem_cons.mp h with rfl | h
    · exact Or.inl ⟨c, hp, rfl⟩
    · exact ih h
  | case4 c rest hc hp ih =>
    rcases List.mem_cons.mp h with rfl | h
    · have hletter : isLetter c := by simp [isLetter, hc, hp]
      refine Or.inr ⟨c, _, rfl, List.forall_mem_cons.mpr ⟨hletter, fun d hd => ?_⟩⟩
      exact List.all_eq_true.mp List.all_takeWhile d hd
    · exact ih h

/-- **A word of a text is the only word of itself.** -/
theorem words_of_mem {text w : String} (h : w ∈ words text) : words w = [w] := by
  obtain ⟨cs, hcs, rfl⟩ := List.mem_map.mp h
  have hself : wordChars cs = [cs] := by
    rcases mem_wordChars hcs with ⟨c, hp, rfl⟩ | ⟨c, u, rfl, hletters⟩
    · exact (wordChars_append_parenthesis hp [] []).trans (by simp [wordChars])
    · exact wordChars_letters hletters
  unfold words
  rw [String.toList_ofList, hself, List.map_singleton]

/-- **A text has no words exactly if it is white space.** -/
theorem words_eq_nil_iff {text : String} : words text = [] ↔ text.toList.all isBlank := by
  refine ⟨fun h => ?_, words_eq_nil⟩
  have hnil : wordChars text.toList = [] := List.map_eq_nil_iff.mp h
  generalize text.toList = cs at hnil
  fun_induction wordChars cs with
  | case1 => rfl
  | case2 c rest hc ih => rw [List.all_cons, hc, ih hnil, Bool.true_and]
  | case3 c rest hc hp ih => exact absurd hnil (List.cons_ne_nil _ _)
  | case4 c rest hc hp ih => exact absurd hnil (List.cons_ne_nil _ _)

/-! ## Single spaces -/

/-- All white space in a text is single spaces. -/
structure SingleSpaced (text : List Char) : Prop where
  space : ∀ c ∈ text, isBlank c → c = ' '
  apart : text.IsChain fun c d => ¬ (isBlank c ∧ isBlank d)

namespace SingleSpaced

variable {text : List Char} {c : Char}

theorem cons (h : SingleSpaced text) (hc : isBlank c = false) : SingleSpaced (c :: text) where
  space := by
    refine List.forall_mem_cons.mpr ⟨fun hblank => ?_, h.space⟩
    exact absurd (hc.symm.trans hblank) (by simp)
  apart := h.apart.cons fun d _ hboth => absurd (hc.symm.trans hboth.1) (by simp)

/-- A space may stand next to anything but white space. -/
theorem cons_space (h : SingleSpaced text) (hstart : ∀ d ∈ text.head?, isBlank d = false) :
    SingleSpaced (' ' :: text) where
  space := List.forall_mem_cons.mpr ⟨fun _ => rfl, h.space⟩
  apart := h.apart.cons fun d hd hboth => absurd ((hstart d hd).symm.trans hboth.2) (by simp)

theorem of_suffix {tail : List Char} (h : SingleSpaced text) (hs : tail <:+ text) :
    SingleSpaced tail where
  space := fun c hc => h.space c (hs.subset hc)
  apart := h.apart.suffix hs

theorem reverse (h : SingleSpaced text) : SingleSpaced text.reverse where
  space := fun c hc => h.space c (List.mem_reverse.mp hc)
  apart := List.isChain_reverse.mpr (h.apart.imp fun _ _ hnot hboth => hnot hboth.symm)

/-- If there is white space at the end so far, it is the space that would be written. -/
theorem spaced {out : List Char} (h : SingleSpaced out) : SingleSpaced (spaced out) := by
  unfold RuleText.spaced
  split
  · exact h
  · rename_i hne
    refine h.cons_space fun d hd => ?_
    cases hblank : isBlank d with
    | false => rfl
    | true =>
      have hspace : d = ' ' := h.space d (List.mem_of_mem_head? hd) hblank
      rw [hspace] at hd
      exact absurd hd hne

/-- **Writing a character keeps the spaces single.** -/
theorem addChar {out : List Char} (h : SingleSpaced out) (c : Char) :
    SingleSpaced (addChar out c) := by
  unfold RuleText.addChar
  by_cases hp : isParenthesis c
  · have hc : isBlank c = false := isBlank_of_isParenthesis hp
    rw [if_pos hp]
    refine (h.spaced.cons hc).cons_space fun d hd => ?_
    cases hd
    exact hc
  · rw [if_neg hp]
    by_cases hc : isBlank c
    · rw [if_pos hc]
      split
      · exact h
      · exact h.spaced
    · rw [if_neg hc]
      exact h.cons (Bool.not_eq_true _ ▸ hc)

theorem foldl_addChar {out : List Char} (h : SingleSpaced out) (text : List Char) :
    SingleSpaced (text.foldl RuleText.addChar out) := by
  induction text generalizing out with
  | nil => exact h
  | cons c text ih => exact ih (h.addChar c)

end SingleSpaced

/-! ## Nothing at the ends -/

/-- Single spaces in a text, and none at its ends. -/
structure Trimmed (text : List Char) : Prop extends SingleSpaced text where
  start : ∀ c ∈ text.head?, isBlank c = false
  stop : ∀ c ∈ text.getLast?, isBlank c = false

theorem head?_dropWhile_isBlank (text : List Char) :
    ∀ c ∈ (text.dropWhile isBlank).head?, isBlank c = false := by
  intro c hc
  have hhead := List.head?_dropWhile_not isBlank text
  rwa [Option.mem_def.mp hc] at hhead

theorem getLast?_of_suffix {text tail : List Char} (h : tail <:+ text) {c : Char}
    (hc : c ∈ tail.getLast?) : c ∈ text.getLast? := by
  obtain ⟨front, rfl⟩ := h
  rw [List.getLast?_append, Option.mem_def.mp hc]
  rfl

/-- **The normal form has single spaces, and none at its ends.** -/
theorem trimmed_normalizeChars (text : List Char) : Trimmed (normalizeChars text) := by
  have hempty : SingleSpaced [] := ⟨fun c hc => absurd hc List.not_mem_nil, List.isChain_nil⟩
  -- what is written stands last character first, so its end is trimmed at the head
  have hout : SingleSpaced ((text.foldl addChar []).dropWhile isBlank) :=
    (hempty.foldl_addChar text).of_suffix (List.dropWhile_suffix isBlank)
  have hsuffix := List.dropWhile_suffix (l := ((text.foldl addChar []).dropWhile isBlank).reverse)
    isBlank
  refine ⟨hout.reverse.of_suffix hsuffix, head?_dropWhile_isBlank _, fun c hc => ?_⟩
  have hlast := getLast?_of_suffix hsuffix hc
  rw [List.getLast?_reverse] at hlast
  exact head?_dropWhile_isBlank _ c hlast

/-- A space in such a text is followed by more, which is such a text again. -/
theorem Trimmed.rest {front rest : List Char} (h : Trimmed (front ++ ' ' :: rest)) :
    rest ≠ [] ∧ Trimmed rest := by
  have hspace : isBlank ' ' = true := by decide
  have hsuffix : ' ' :: rest <:+ front ++ ' ' :: rest := List.suffix_append _ _
  have hrest : rest <:+ front ++ ' ' :: rest := (List.suffix_cons ' ' rest).trans hsuffix
  refine ⟨fun hnil => ?_, h.of_suffix hrest, fun c hc => ?_, fun c hc =>
    h.stop c (getLast?_of_suffix hrest hc)⟩
  · have hlast := h.stop ' ' (getLast?_of_suffix hsuffix (by rw [hnil]; rfl))
    exact absurd (hspace.symm.trans hlast) (by simp)
  · have hnot := (List.isChain_cons.mp (h.apart.suffix hsuffix)).1 c hc
    rw [hspace] at hnot
    simpa using hnot

/-- **A text like that is made of its words.** -/
theorem Trimmed.intercalate_eq : ∀ {text : List Char}, Trimmed text →
    [' '].intercalate (blankSeparated text) = text
  | [], _ => List.intercalate_nil
  | c :: text, h => by
    have hsplit : text.takeWhile (!isBlank ·) ++ text.dropWhile (!isBlank ·) = text :=
      List.takeWhile_append_dropWhile
    rw [blankSeparated_cons (h.start c rfl)]
    cases hrest : text.dropWhile (!isBlank ·) with
    | nil =>
      rw [hrest, List.append_nil] at hsplit
      rw [blankSeparated_nil, List.intercalate_singleton, hsplit]
    | cons d rest =>
      rw [hrest] at hsplit
      have hd : isBlank d := by
        have hhead := List.head?_dropWhile_not (!isBlank ·) text
        rw [hrest] at hhead
        simpa using hhead
      have hmem : d ∈ c :: text :=
        List.mem_cons_of_mem c (hsplit ▸ List.mem_append_right _ List.mem_cons_self)
      obtain rfl := h.space d hmem hd
      have hcut : Trimmed ((c :: text.takeWhile (!isBlank ·)) ++ ' ' :: rest) := by
        rwa [List.cons_append, hsplit]
      obtain ⟨hne, hnext⟩ := hcut.rest
      have hlength : rest.length < (c :: text).length := by
        rw [← hsplit, List.length_cons, List.length_append, List.length_cons]
        omega
      have ih := hnext.intercalate_eq
      have hwords : blankSeparated rest ≠ [] := by
        intro hnil
        rw [hnil, List.intercalate_nil] at ih
        exact hne ih.symm
      rw [blankSeparated_cons_blank hd, List.intercalate_cons_of_ne_nil hwords, ih]
      simp [hsplit]
termination_by text => text.length
decreasing_by exact hlength

/-! ## The normal form -/

/-- **The normal form of a text is its words with single spaces between them.** -/
theorem normalize_eq (text : String) : normalize text = " ".intercalate (words text) := by
  have hwords : blankSeparated (normalizeChars text.toList) = wordChars text.toList := by
    rw [blankSeparated_normalizeChars, blankSeparated_flatMap_spread]
  have hchars : (words text).map String.toList = wordChars text.toList := by
    unfold words
    rw [List.map_map]
    exact List.map_id'' (fun _ => String.toList_ofList) _
  refine String.toList_inj.mp ?_
  rw [String.toList_intercalate, hchars, ← hwords]
  exact String.toList_ofList.trans (trimmed_normalizeChars text.toList).intercalate_eq.symm

/-- The normal form has the same words. -/
theorem words_normalize (text : String) : words (normalize text) = words text := by
  rw [normalize_eq, words_intercalate]
  exact flatMap_words fun w hw => words_of_mem hw

/-- **What is in normal form stays as it is.** -/
theorem normalize_normalize (text : String) : normalize (normalize text) = normalize text := by
  rw [normalize_eq (normalize text), words_normalize, ← normalize_eq]

/-- **Texts have one normal form exactly if they have the same words.** -/
theorem normalize_eq_iff {a b : String} : normalize a = normalize b ↔ words a = words b := by
  refine ⟨fun h => ?_, fun h => ?_⟩
  · rw [← words_normalize a, h, words_normalize]
  · rw [normalize_eq, normalize_eq, h]

/-! ## Reading the words -/

section Reading

variable {ω ν : Type} [DecidableEq ω]

/-- Reads a rule that is given word by word. -/
def readWords (inputs : List (Vocabulary VariableKey TermKey)) (outputs : List (Vocabulary ω ν))
    (ws : List String) : Except RuleTextError (Rule ω ν) :=
  if ws = [] then .error .emptyRule
  else do
    let lexicon ← Lexicon.ofVocabularies inputs outputs
    let tokens ← Token.ofWords lexicon ws
    ruleOf tokens

/-- **A rule is read from the words of its text and from nothing else.** -/
theorem read_eq_readWords (inputs : List (Vocabulary VariableKey TermKey))
    (outputs : List (Vocabulary ω ν)) (text : String) :
    read inputs outputs text = readWords inputs outputs (words text) := by
  unfold read readWords tokensOf
  rw [wordsOf_normalize]
  by_cases hblank : text.toList.all isBlank
  · rw [if_pos hblank, if_pos (words_eq_nil_iff.mpr hblank)]
  · rw [if_neg hblank, if_neg fun hnil => hblank (words_eq_nil_iff.mp hnil)]
    cases Lexicon.ofVocabularies inputs outputs <;> rfl

/-- **Layout does not matter.** The normal form of a text is its words with single spaces between
them: cut at white space it gives the words back, and it is its own normal form. A text without
words is white space. Texts of the same words have one normal form, and they are read alike with
any vocabularies, refusals included. -/
theorem layout_irrelevant (inputs : List (Vocabulary VariableKey TermKey))
    (outputs : List (Vocabulary ω ν)) (text : String) :
    normalize text = " ".intercalate (words text)
      ∧ wordsOf (normalize text) = words text
      ∧ normalize (normalize text) = normalize text
      ∧ (words text = [] ↔ text.toList.all isBlank)
      ∧ (words text = [] → read inputs outputs text = .error .emptyRule)
      ∧ ∀ other : String, words other = words text →
          normalize other = normalize text
            ∧ read inputs outputs other = read inputs outputs text := by
  refine ⟨normalize_eq text, wordsOf_normalize text, normalize_normalize text, words_eq_nil_iff,
    fun hnil => ?_, fun other hwords => ⟨normalize_eq_iff.mpr hwords, ?_⟩⟩
  · rw [read_eq_readWords, hnil]
    rfl
  · rw [read_eq_readWords, read_eq_readWords, hwords]

/-- A rule for tips with odd white space in odd places is read as if it were laid out well, and
white space is refused as nothing is. -/
theorem layout_irrelevant_tipping :
    (read [⟨"service", ⟨1⟩, [("good", ⟨1⟩)]⟩]
        [(⟨"tip", ⟨2⟩, [("high", ⟨2⟩)]⟩ : Vocabulary VariableKey TermKey)]
        "\tif( service\u00a0is\n\ngood )then tip  is high "
      = read [⟨"service", ⟨1⟩, [("good", ⟨1⟩)]⟩]
        [(⟨"tip", ⟨2⟩, [("high", ⟨2⟩)]⟩ : Vocabulary VariableKey TermKey)]
        "if (service is good) then tip is high")
      ∧ normalize "\tif( service\u00a0is\n\ngood )then tip  is high "
        = "if ( service is good ) then tip is high"
      ∧ read [] ([] : List (Vocabulary VariableKey TermKey)) " \t\u3000" = .error .emptyRule := by
  obtain ⟨-, -, -, -, -, hread⟩ := layout_irrelevant [⟨"service", ⟨1⟩, [("good", ⟨1⟩)]⟩]
    [(⟨"tip", ⟨2⟩, [("high", ⟨2⟩)]⟩ : Vocabulary VariableKey TermKey)]
    "if (service is good) then tip is high"
  obtain ⟨-, -, -, hblank, hempty, -⟩ := layout_irrelevant []
    ([] : List (Vocabulary VariableKey TermKey)) " \t\u3000"
  exact ⟨(hread _ (normalize_eq_iff.mp (by decide +kernel))).2, by decide +kernel,
    hempty (hblank.mpr (by decide))⟩

end Reading

end FuzzyInference.RuleText
