import FuzzyInference.RuleText.Words

/-!
# The words of a text, without normal forms

Which words a text has can be said directly: every parenthesis is one, and so is
every longest run of characters that are neither parentheses nor white space.
`words` says just that.

The reader takes a detour. It first brings the text into normal form, keeping
what it has written so far last character first, and then cuts the normal form
at white space. Nothing is lost on the way: a blank between two texts cuts the
words of the first from those of the second (`blankSeparated_append_blank`), so
writing a character changes the words in one and the same way however the text
so far ends.
-/

namespace FuzzyInference.RuleText

open Text

/-- Whether a character can stand in a word with others. -/
def isLetter (c : Char) : Bool := !isBlank c && !isParenthesis c

/-- The words of a text, character by character. -/
def wordChars : List Char → List (List Char)
  | [] => []
  | c :: rest =>
    if isBlank c then wordChars rest
    else if isParenthesis c then [c] :: wordChars rest
    else (c :: rest.takeWhile isLetter) :: wordChars (rest.dropWhile isLetter)
termination_by text => text.length
decreasing_by
  · simp
  · simp
  · exact Nat.lt_succ_of_le (List.dropWhile_suffix isLetter).length_le

/-- The words of a text: each parenthesis, and each longest run of other characters that are not
white space. -/
def words (text : String) : List String := (wordChars text.toList).map String.ofList

/-- Parentheses are not white space. -/
theorem isBlank_of_isParenthesis {c : Char} (h : isParenthesis c) : isBlank c = false := by
  simp only [isParenthesis, Bool.or_eq_true, decide_eq_true_eq] at h
  rcases h with rfl | rfl <;> decide

/-! ## Cutting at white space -/

@[simp] theorem blankSeparated_nil : blankSeparated [] = [] := rfl

theorem blankSeparated_cons_blank {c : Char} (hc : isBlank c) (text : List Char) :
    blankSeparated (c :: text) = blankSeparated text := by
  simp [blankSeparated, hc]

/-- A word goes on up to the next white space. -/
theorem blankSeparated_cons {c : Char} (hc : isBlank c = false) (text : List Char) :
    blankSeparated (c :: text)
      = (c :: text.takeWhile (!isBlank ·)) :: blankSeparated (text.dropWhile (!isBlank ·)) := by
  induction text generalizing c with
  | nil => simp [blankSeparated, hc]
  | cons d text ih =>
    rw [blankSeparated.eq_def]
    by_cases hd : isBlank d
    · cases hw : blankSeparated (d :: text) <;> simp [hc, hd, hw]
    · rw [Bool.not_eq_true] at hd
      simp [hc, hd, ih hd]

/-- **White space cuts.** -/
theorem blankSeparated_append_blank {c : Char} (hc : isBlank c) :
    ∀ (u v : List Char), blankSeparated (u ++ c :: v) = blankSeparated u ++ blankSeparated v
  | [], v => blankSeparated_cons_blank hc v
  | a :: u, v => by
      by_cases ha : isBlank a
      · rw [List.cons_append, blankSeparated_cons_blank ha, blankSeparated_cons_blank ha]
        exact blankSeparated_append_blank hc u v
      · rw [Bool.not_eq_true] at ha
        -- the word at the start ends before the cut, whether or not it reaches it
        have htake : (u ++ c :: v).takeWhile (!isBlank ·) = u.takeWhile (!isBlank ·) := by
          rw [List.takeWhile_append]
          split
          · rename_i he
            rw [(List.takeWhile_prefix _).eq_of_length he]
            simp [hc]
          · rfl
        have hdrop : (u ++ c :: v).dropWhile (!isBlank ·)
            = u.dropWhile (!isBlank ·) ++ c :: v := by
          rw [List.dropWhile_append]
          split
          · rename_i he
            rw [List.isEmpty_iff.mp he]
            simp [hc]
          · rfl
        rw [List.cons_append, blankSeparated_cons ha, blankSeparated_cons ha, htake, hdrop,
          List.cons_append, blankSeparated_append_blank hc (u.dropWhile (!isBlank ·)) v]
termination_by u => u.length
decreasing_by
  · simp
  · exact Nat.lt_succ_of_le (List.dropWhile_suffix _).length_le

/-- White space alone has no words. -/
theorem blankSeparated_eq_nil {text : List Char} (h : ∀ c ∈ text, isBlank c) :
    blankSeparated text = [] := by
  induction text with
  | nil => rfl
  | cons c text ih =>
    rw [blankSeparated_cons_blank (h c (by simp))]
    exact ih fun d hd => h d (by simp [hd])

/-- White space at the end holds no words. -/
theorem blankSeparated_append_blanks (u : List Char) {v : List Char} (h : ∀ c ∈ v, isBlank c) :
    blankSeparated (u ++ v) = blankSeparated u := by
  cases v with
  | nil => rw [List.append_nil]
  | cons c v =>
    have hv : blankSeparated v = [] := blankSeparated_eq_nil fun d hd => h d (by simp [hd])
    rw [blankSeparated_append_blank (h c (by simp)), hv, List.append_nil]

/-- White space at the start holds no words. -/
theorem blankSeparated_dropWhile (text : List Char) :
    blankSeparated (text.dropWhile isBlank) = blankSeparated text := by
  induction text with
  | nil => rfl
  | cons c text ih =>
    by_cases hc : isBlank c
    · rw [List.dropWhile_cons_of_pos hc, ih, blankSeparated_cons_blank hc]
    · rw [List.dropWhile_cons_of_neg hc]

/-! ## Writing the normal form -/

/-- What a character comes to when nothing is known of the text before it. -/
def spread (c : Char) : List Char := if isParenthesis c then [' ', c, ' '] else [c]

/-- Ending the text so far with a space cuts, even if it ends with one already. -/
theorem blankSeparated_spaced (out rest : List Char) :
    blankSeparated ((spaced out).reverse ++ rest)
      = blankSeparated out.reverse ++ blankSeparated rest := by
  have hspace : isBlank ' ' = true := by decide
  unfold spaced
  split
  · rename_i h
    obtain ⟨o, rfl⟩ : ∃ o, out = ' ' :: o := by
      cases out with
      | nil => simp at h
      | cons a o => exact ⟨o, by simpa using h⟩
    rw [List.reverse_cons, List.append_assoc, List.singleton_append,
      blankSeparated_append_blank hspace, blankSeparated_append_blank hspace, blankSeparated_nil,
      List.append_nil]
  · rw [List.reverse_cons, List.append_assoc, List.singleton_append,
      blankSeparated_append_blank hspace]

/-- Writing a character has the same effect on the words whatever is written already. -/
theorem blankSeparated_addChar (out rest : List Char) (c : Char) :
    blankSeparated ((addChar out c).reverse ++ rest)
      = blankSeparated (out.reverse ++ (spread c ++ rest)) := by
  have hspace : isBlank ' ' = true := by decide
  unfold addChar spread
  by_cases hp : isParenthesis c
  · rw [if_pos hp, if_pos hp]
    have hout : (' ' :: c :: spaced out).reverse ++ rest
        = (spaced out).reverse ++ (c :: ' ' :: rest) := by simp
    rw [hout, blankSeparated_spaced]
    exact (blankSeparated_append_blank hspace _ _).symm
  · rw [if_neg hp, if_neg hp]
    by_cases hc : isBlank c
    · rw [if_pos hc, List.singleton_append, blankSeparated_append_blank hc]
      split
      · rename_i he
        rw [List.isEmpty_iff.mp he]
        rfl
      · exact blankSeparated_spaced out rest
    · rw [if_neg hc]
      simp

theorem blankSeparated_foldl_addChar (text out : List Char) :
    blankSeparated (text.foldl addChar out).reverse
      = blankSeparated (out.reverse ++ text.flatMap spread) := by
  induction text generalizing out with
  | nil => simp
  | cons c text ih => rw [List.foldl_cons, ih, blankSeparated_addChar, List.flatMap_cons]

/-- The normal form has the words of the text with every parenthesis set apart. -/
theorem blankSeparated_normalizeChars (text : List Char) :
    blankSeparated (normalizeChars text) = blankSeparated (text.flatMap spread) := by
  have htrim := List.takeWhile_append_dropWhile (p := isBlank) (l := text.foldl addChar [])
  -- what is trimmed at the end is white space, and so is what is trimmed at the start
  have hblank : ∀ c ∈ ((text.foldl addChar []).takeWhile isBlank).reverse, isBlank c :=
    fun c hc => List.all_eq_true.mp List.all_takeWhile c (List.mem_reverse.mp hc)
  unfold normalizeChars
  rw [blankSeparated_dropWhile, ← blankSeparated_append_blanks _ hblank, ← List.reverse_append,
    htrim, blankSeparated_foldl_addChar]
  rfl

/-! ## The words themselves -/

/-- Setting parentheses apart leaves the run of letters at the start as it is. -/
theorem takeWhile_flatMap_spread (text : List Char) :
    (text.flatMap spread).takeWhile (!isBlank ·) = text.takeWhile isLetter
      ∧ (text.flatMap spread).dropWhile (!isBlank ·)
        = (text.dropWhile isLetter).flatMap spread := by
  have hspace : isBlank ' ' = true := by decide
  induction text with
  | nil => simp
  | cons c text ih =>
    by_cases hp : isParenthesis c
    · simp [spread, isLetter, hp, hspace]
    · by_cases hc : isBlank c
      · simp [spread, isLetter, hp, hc]
      · simpa [spread, isLetter, hp, hc] using ih

theorem blankSeparated_flatMap_spread (text : List Char) :
    blankSeparated (text.flatMap spread) = wordChars text := by
  have hspace : isBlank ' ' = true := by decide
  fun_induction wordChars text with
  | case1 => rfl
  | case2 c rest hc ih =>
    have hp : ¬ isParenthesis c := fun hp =>
      Bool.noConfusion (hc.symm.trans (isBlank_of_isParenthesis hp))
    rw [List.flatMap_cons, spread, if_neg hp]
    exact (blankSeparated_cons_blank hc _).trans ih
  | case3 c rest hc hp ih =>
    rw [Bool.not_eq_true] at hc
    rw [List.flatMap_cons, spread, if_pos hp]
    have hcut := blankSeparated_append_blank hspace [' ', c] (rest.flatMap spread)
    rw [blankSeparated_cons_blank hspace, blankSeparated_cons hc, ih] at hcut
    exact hcut
  | case4 c rest hc hp ih =>
    rw [Bool.not_eq_true] at hc
    rw [List.flatMap_cons, spread, if_neg hp, List.singleton_append, blankSeparated_cons hc,
      (takeWhile_flatMap_spread rest).1, (takeWhile_flatMap_spread rest).2, ih]

/-- **Reading the normal form finds the words of the text.** -/
theorem wordsOf_normalize (text : String) : wordsOf (normalize text) = words text := by
  unfold wordsOf normalize words
  rw [String.toList_ofList, blankSeparated_normalizeChars, blankSeparated_flatMap_spread]

/-! ## Words of joined texts -/

/-- **White space between two texts cuts their words.** -/
theorem wordChars_append_blank {c : Char} (hc : isBlank c) (u v : List Char) :
    wordChars (u ++ c :: v) = wordChars u ++ wordChars v := by
  have hp : ¬ isParenthesis c := fun hp =>
    Bool.noConfusion (hc.symm.trans (isBlank_of_isParenthesis hp))
  rw [← blankSeparated_flatMap_spread, List.flatMap_append, List.flatMap_cons, spread, if_neg hp,
    List.singleton_append, blankSeparated_append_blank hc, blankSeparated_flatMap_spread,
    blankSeparated_flatMap_spread]

/-- **So does a parenthesis**, which is a word itself. -/
theorem wordChars_append_parenthesis {c : Char} (hp : isParenthesis c) (u v : List Char) :
    wordChars (u ++ c :: v) = wordChars u ++ [c] :: wordChars v := by
  have hspace : isBlank ' ' = true := by decide
  have hv : wordChars (c :: v) = [c] :: wordChars v := by
    rw [wordChars, if_neg (by rw [isBlank_of_isParenthesis hp]; simp), if_pos hp]
  have hcut : blankSeparated (u.flatMap spread ++ ' ' :: ([c] ++ ' ' :: v.flatMap spread))
      = wordChars u ++ wordChars (c :: v) := by
    rw [blankSeparated_append_blank hspace, blankSeparated_flatMap_spread,
      ← blankSeparated_flatMap_spread (c :: v), List.flatMap_cons, spread, if_pos hp]
    exact congrArg _ (blankSeparated_cons_blank hspace _).symm
  rw [← hv, ← hcut, ← blankSeparated_flatMap_spread, List.flatMap_append, List.flatMap_cons, spread,
    if_pos hp]
  rfl

/-- Letters alone are one word. -/
theorem wordChars_letters {c : Char} {u : List Char} (h : ∀ d ∈ c :: u, isLetter d) :
    wordChars (c :: u) = [c :: u] := by
  have hc := h c List.mem_cons_self
  simp only [isLetter, Bool.and_eq_true, Bool.not_eq_true'] at hc
  have hu : ∀ d ∈ u, isLetter d := fun d hd => h d (List.mem_cons_of_mem c hd)
  have htake : u.takeWhile isLetter = u := by
    have := @List.takeWhile_append_of_pos _ isLetter u [] hu
    rwa [List.append_nil, List.takeWhile_nil, List.append_nil] at this
  have hdrop : u.dropWhile isLetter = [] := by
    have := @List.dropWhile_append_of_pos _ isLetter u [] hu
    rwa [List.append_nil, List.dropWhile_nil] at this
  rw [wordChars, if_neg (by rw [hc.1]; simp), if_neg (by rw [hc.2]; simp), htake, hdrop, wordChars]

theorem words_append_space (a b : String) : words (a ++ " " ++ b) = words a ++ words b := by
  have hchars : (a ++ " " ++ b).toList = a.toList ++ ' ' :: b.toList := by
    rw [String.toList_append, String.toList_append, List.append_assoc]
    rfl
  unfold words
  rw [hchars, wordChars_append_blank (by decide), List.map_append]

theorem words_parenthesized (a : String) :
    words ("(" ++ a ++ ")") = "(" :: (words a ++ [")"]) := by
  have hchars : ("(" ++ a ++ ")").toList = [] ++ '(' :: (a.toList ++ ')' :: []) := by
    rw [String.toList_append, String.toList_append]
    rfl
  unfold words
  rw [hchars, wordChars_append_parenthesis (by decide), wordChars_append_parenthesis (by decide),
    wordChars]
  simp only [List.nil_append, List.map_cons, List.map_append, List.map_nil]

theorem words_letters {w : String} (hw : w ≠ "") (h : w.toList.all isLetter) :
    words w = [w] := by
  rw [List.all_eq_true] at h
  unfold words
  cases hc : w.toList with
  | nil => exact absurd (String.toList_eq_nil_iff.mp hc) hw
  | cons c u =>
    rw [hc] at h
    rw [wordChars_letters h, List.map_singleton, ← hc, String.ofList_toList]

/-- A text of white space has no words. -/
theorem words_eq_nil {text : String} (h : text.toList.all isBlank) : words text = [] := by
  unfold words
  have hnil : wordChars text.toList = [] := by
    rw [List.all_eq_true] at h
    generalize text.toList = cs at h
    induction cs with
    | nil => rw [wordChars]
    | cons c cs ih =>
      rw [wordChars, if_pos (h c (by simp))]
      exact ih fun d hd => h d (by simp [hd])
  rw [hnil, List.map_nil]

end FuzzyInference.RuleText
