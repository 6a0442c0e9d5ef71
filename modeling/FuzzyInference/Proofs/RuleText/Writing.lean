import FuzzyInference.Proofs.RuleText.Shape

/-!
# Rules written out

A rule in words, given what variables, terms and values are called: the text
that is read as that rule (`isSentence_rule`). Conditions that are joined stand
side by side, and of those exactly the combinations are in parentheses.

Written this way a condition has one pair of parentheses less along any way down
than it has combinations. That is why the reader takes 65 combinations although
it goes down 64 parentheses only.
-/

namespace FuzzyInference.RuleText

/-- What things are called in a text. -/
structure Naming (ω ν : Type) where
  input : VariableKey → String
  term : TermKey → String
  output : ω → String
  value : ν → String

/-- Puts what is written for a condition in parentheses if the condition is a combination. -/
def parenthesized : Condition → String → String
  | .single _, text => text
  | .combination .., text => "(" ++ text ++ ")"

namespace Naming

variable {ω ν : Type}

/-- `name is [not] [hedge] term`. -/
def proposition (n : Naming ω ν) (p : Proposition) : String :=
  " ".intercalate
    (n.input p.subject :: "is" :: (notWords p.negated ++ (hedgeWords p.hedge ++ [n.term p.term])))

-- one operand after the other rather than a map over a list, so that the recursion is structural
mutual

/-- A proposition, or conditions joined by their link. -/
def condition (n : Naming ω ν) : Condition → String
  | .single p => n.proposition p
  | .combination link _ first rest =>
    " ".intercalate (parenthesized first (n.condition first) :: n.others link rest)

/-- Conditions behind another one, each behind the link. -/
def others (n : Naming ω ν) (link : Link) : List Condition → List String
  | [] => []
  | c :: cs => link.word :: parenthesized c (n.condition c) :: n.others link cs

end

/-- `if condition then variable is value`. -/
def rule (n : Naming ω ν) (r : Rule ω ν) : String :=
  " ".intercalate ["if", n.condition r.condition, "then", n.output r.conclusion.subject, "is",
    n.value r.conclusion.value]

end Naming

/-! ## The words of what is written -/

theorem words_intercalate (texts : List String) :
    words (" ".intercalate texts) = texts.flatMap words := by
  induction texts with
  | nil => exact words_eq_nil rfl
  | cons a texts ih =>
    cases texts with
    | nil => rw [String.intercalate_singleton, List.flatMap_singleton]
    | cons b texts =>
      rw [String.intercalate_cons_cons, words_append_space, ih]
      rfl

/-- Words stay as they are. -/
theorem flatMap_words {ws : List String} (h : ∀ w ∈ ws, words w = [w]) :
    ws.flatMap words = ws := by
  induction ws with
  | nil => rfl
  | cons w ws ih =>
    rw [List.flatMap_cons, h w List.mem_cons_self, ih fun v hv => h v (List.mem_cons_of_mem w hv)]
    rfl

/-- A keyword is a single word. -/
theorem words_keyword {k : Keyword} (ho : k ≠ .opening) (hc : k ≠ .closing) :
    words k.word = [k.word] := by
  have hletters : k.word ≠ "" ∧ k.word.toList.all isLetter := by
    cases k with
    | opening => exact absurd rfl ho
    | closing => exact absurd rfl hc
    | link link => cases link <;> decide
    | hedge hedge => cases hedge <;> decide
    | _ => decide
  exact words_letters hletters.1 hletters.2

section Texts

variable {ω ν : Type} {n : Naming ω ν} {inputs : List (Vocabulary VariableKey TermKey)}

theorem words_proposition {p : Proposition}
    (hsubject : words (n.input p.subject) = [n.input p.subject])
    (hterm : words (n.term p.term) = [n.term p.term]) :
    words (n.proposition p) = n.input p.subject :: "is" ::
      (notWords p.negated ++ (hedgeWords p.hedge ++ [n.term p.term])) := by
  unfold Naming.proposition
  rw [words_intercalate]
  refine flatMap_words fun w hw => ?_
  rcases List.mem_cons.mp hw with rfl | hw
  · exact hsubject
  rcases List.mem_cons.mp hw with rfl | hw
  · exact words_keyword (k := .isWord) (by simp) (by simp)
  rcases List.mem_append.mp hw with hw | hw
  · cases hn : p.negated with
    | false =>
      rw [hn] at hw
      exact absurd hw List.not_mem_nil
    | true =>
      rw [hn] at hw
      rw [List.mem_singleton.mp hw]
      exact words_keyword (k := .notWord) (by simp) (by simp)
  rcases List.mem_append.mp hw with hw | hw
  · obtain ⟨hedge, -, rfl⟩ := List.mem_map.mp hw
    exact words_keyword (k := .hedge hedge) (by simp) (by simp)
  · rw [List.mem_singleton.mp hw]
    exact hterm

/-- A proposition in the words of a vocabulary is a clause. -/
theorem isClause_proposition {p : Proposition} {v : Vocabulary VariableKey TermKey}
    (hv : v ∈ inputs) (hkey : v.key = p.subject) (hname : v.name = n.input p.subject)
    (hlookup : v.values.lookup (n.term p.term) = some p.term)
    (hsubject : words (n.input p.subject) = [n.input p.subject])
    (hterm : words (n.term p.term) = [n.term p.term]) :
    IsClause inputs (words (n.proposition p)) p := by
  have hc := IsClause.intro p.negated p.hedge hv hlookup
  rw [hkey, hname] at hc
  rw [words_proposition hsubject hterm]
  exact hc

theorem words_others (link : Link) (c : Condition) (cs : List Condition) :
    (n.others link (c :: cs)).flatMap words = link.word ::
      (words (parenthesized c (n.condition c)) ++ (n.others link cs).flatMap words) := by
  have hlink : words link.word = [link.word] :=
    words_keyword (k := .link link) (by simp) (by simp)
  rw [Naming.others, List.flatMap_cons, List.flatMap_cons, hlink]
  rfl

/-! ## What is written is derived -/

/-- Propositions of a condition are written as clauses. -/
def Spelled (n : Naming ω ν) (inputs : List (Vocabulary VariableKey TermKey))
    (ps : List Proposition) : Prop :=
  ∀ p ∈ ps, IsClause inputs (words (n.proposition p)) p

/-- What is derived is derived as an operand too, once it is in parentheses if it has to be. -/
theorem isOperand_parenthesized {c : Condition} (hp : Spelled n inputs c.propositions)
    (hc : IsExpression (.words inputs) (words (n.condition c)) c) :
    IsOperand (.words inputs) (words (parenthesized c (n.condition c))) c := by
  cases c with
  | single p => exact .clause (hp p List.mem_cons_self)
  | combination link negated first rest =>
    unfold parenthesized
    rw [words_parenthesized]
    exact .grouped hc

mutual

/-- **What is written for a condition is derived as that condition.** -/
theorem isExpression_condition :
    ∀ c : Condition, Spelled n inputs c.propositions →
      (c.ForCombinations fun _ negated children => negated = false ∧ 2 ≤ children.length) →
      IsExpression (.words inputs) (words (n.condition c)) c
  | .single p, hp, _ => .clause (hp p List.mem_cons_self)
  | .combination link negated first rest, hp, ⟨⟨hn, hlen⟩, hfirst, hrest⟩ => by
      obtain ⟨hp₁, hp₂⟩ := List.forall_mem_append.mp hp
      have hop := isOperand_parenthesized hp₁ (isExpression_condition first hp₁ hfirst)
      have htail := isTail_others link rest hp₂ hrest
      cases hn
      rw [Naming.condition, words_intercalate, List.flatMap_cons]
      cases rest with
      | nil =>
        -- a combination of one cannot be written
        exact absurd hlen (by simp)
      | cons d ds => exact .chain hop (htail (by simp))

theorem isTail_others (link : Link) :
    ∀ cs : List Condition, Spelled n inputs (Condition.propositionsOf cs) →
      Condition.ForCombinationsOf
        (fun _ negated children => negated = false ∧ 2 ≤ children.length) cs →
      cs ≠ [] → IsTail (.words inputs) link ((n.others link cs).flatMap words) cs
  | [], _, _, hne => absurd rfl hne
  | c :: cs, hp, ⟨hc, hcs⟩, _ => by
      obtain ⟨hp₁, hp₂⟩ := List.forall_mem_append.mp hp
      have hop := isOperand_parenthesized hp₁ (isExpression_condition c hp₁ hc)
      have htail := isTail_others link cs hp₂ hcs
      rw [words_others]
      cases cs with
      | nil =>
        rw [Naming.others, List.flatMap_nil, List.append_nil]
        exact .last hop
      | cons d ds => exact .more hop (htail (by simp))

end

end Texts

/-! ## How deep it nests -/

/-- Parentheses that come in pairs and nest within `n`. -/
def Paired (n : Nat) (ws : List String) : Prop :=
  ws.count "(" = ws.count ")" ∧ NestsWithin "(" ")" n ws

theorem paired_of_not_mem {n : Nat} {ws : List String} (ho : "(" ∉ ws) (hc : ")" ∉ ws) :
    Paired n ws := by
  refine ⟨?_, nestsWithin_iff_covered.mpr ((covered_of_not_mem ho hc).mpr (Nat.zero_le n))⟩
  rw [List.count_eq_zero.mpr ho, List.count_eq_zero.mpr hc]

theorem Paired.append {n : Nat} {u v : List String} (hu : Paired n u) (hv : Paired n v) :
    Paired n (u ++ v) := by
  refine ⟨?_, ?_⟩
  · rw [List.count_append, List.count_append, hu.1, hv.1]
  · rw [nestsWithin_iff_covered, covered_append, hu.1, covered_add_iff]
    exact ⟨nestsWithin_iff_covered.mp hu.2, nestsWithin_iff_covered.mp hv.2⟩

theorem Paired.grouped {n : Nat} {u : List String} (hu : Paired n u) :
    Paired (n + 1) ("(" :: (u ++ [")"])) := by
  refine ⟨?_, ?_⟩
  · simp [List.count_append, hu.1]
  · rw [nestsWithin_iff_covered, covered_cons, covered_append]
    simp only [if_true, String.reduceEq, if_false, Nat.add_zero]
    refine ⟨Nat.zero_le _, covered_add_iff.mpr (nestsWithin_iff_covered.mp hu.2), ?_⟩
    rw [covered_cons, covered_nil, hu.1]
    simp only [if_true, String.reduceEq, if_false]
    omega

section Depth

variable {ω ν : Type} {n : Naming ω ν} {inputs : List (Vocabulary VariableKey TermKey)}
  {outputs : List (Vocabulary ω ν)} {lexicon : Lexicon ω ν}

theorem IsClause.paired (h : Lexicon.ofVocabularies inputs outputs = .ok lexicon)
    {ws : List String} {p : Proposition} (hc : IsClause inputs ws p) (k : Nat) : Paired k ws :=
  paired_of_not_mem (hc.parenthesis_not_mem h).1 (hc.parenthesis_not_mem h).2

/-- An operand nests as deep as it has combinations. -/
theorem paired_parenthesized {c : Condition} {k : Nat} (hk : c.combinations ≤ k)
    (hc : ∀ m, c.combinations ≤ m + 1 → Paired m (words (n.condition c))) :
    Paired k (words (parenthesized c (n.condition c))) := by
  cases c with
  | single p => exact hc k (Nat.zero_le _)
  | combination link negated first rest =>
    -- one level goes to the parentheses, one combination to the operand itself
    obtain ⟨m, rfl⟩ : ∃ m, k = m + 1 := by
      rw [Condition.combinations] at hk
      exact ⟨k - 1, by omega⟩
    unfold parenthesized
    rw [words_parenthesized]
    exact (hc m hk).grouped

mutual

/-- **What is written for a condition nests one level less than it has combinations.** -/
theorem paired_condition (h : Lexicon.ofVocabularies inputs outputs = .ok lexicon) :
    ∀ c : Condition, Spelled n inputs c.propositions →
      ∀ k, c.combinations ≤ k + 1 → Paired k (words (n.condition c))
  | .single p, hp, k, _ => (hp p List.mem_cons_self).paired h k
  | .combination link negated first rest, hp, k, hk => by
      obtain ⟨hp₁, hp₂⟩ := List.forall_mem_append.mp hp
      obtain ⟨hfirst, hrest⟩ := Nat.max_le.mp (Nat.le_of_succ_le_succ hk)
      rw [Naming.condition, words_intercalate, List.flatMap_cons]
      exact (paired_parenthesized hfirst (paired_condition h first hp₁)).append
        (paired_others h link rest hp₂ k hrest)

theorem paired_others (h : Lexicon.ofVocabularies inputs outputs = .ok lexicon) (link : Link) :
    ∀ cs : List Condition, Spelled n inputs (Condition.propositionsOf cs) →
      ∀ k, Condition.combinationsOf cs ≤ k → Paired k ((n.others link cs).flatMap words)
  | [], _, k, _ => paired_of_not_mem List.not_mem_nil List.not_mem_nil
  | c :: cs, hp, k, hk => by
      obtain ⟨hp₁, hp₂⟩ := List.forall_mem_append.mp hp
      obtain ⟨hc, hcs⟩ := Nat.max_le.mp hk
      have hlink : Paired k [link.word] := by
        cases link <;> exact paired_of_not_mem (by decide) (by decide)
      rw [words_others, ← List.singleton_append]
      exact hlink.append ((paired_parenthesized hc (paired_condition h c hp₁)).append
        (paired_others h link cs hp₂ k hcs))

end

/-- **What is written for a rule is a sentence, and says that rule.** -/
theorem isSentence_rule (h : Lexicon.ofVocabularies inputs outputs = .ok lexicon) {r : Rule ω ν}
    (hp : Spelled n inputs r.condition.propositions) (hc : Writable r.condition)
    (hd : IsConclusion outputs
      (words (n.output r.conclusion.subject) ++ "is" :: words (n.value r.conclusion.value))
      r.conclusion) :
    IsSentence inputs outputs (words (n.rule r)) r := by
  refine ⟨words (n.condition r.condition), _, ?_, isExpression_condition _ hp hc.plain,
    (paired_condition h _ hp 64 hc.depth).2, hd⟩
  have hif : words "if" = ["if"] := words_keyword (k := .ifWord) (by simp) (by simp)
  have hthen : words "then" = ["then"] := words_keyword (k := .thenWord) (by simp) (by simp)
  have his : words "is" = ["is"] := words_keyword (k := .isWord) (by simp) (by simp)
  rw [Naming.rule, words_intercalate]
  simp only [List.flatMap_cons, List.flatMap_nil, hif, hthen, his, List.append_nil]
  rfl

end Depth

end FuzzyInference.RuleText
