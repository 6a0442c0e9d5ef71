import FuzzyInference.Proofs.RuleText.Reading
import Mathlib.Data.List.Forall2

/-!
# The clauses in a text

What the clauses of a condition are can be seen without grouping it: they are
what parentheses and links leave between them (`runs`). However a condition is
grouped, its propositions from left to right are what these clauses say, in the
order in which they are written (`IsExpression.forall₂_runs`).

That holds because a grouping only ever cuts what is written at parentheses and
links, and a cut there cuts no run (`runs_append_cons`).
-/

namespace FuzzyInference.RuleText

/-- Whether a word stands between clauses and not within one. -/
def isMark (w : String) : Bool := w = "(" || w = ")" || w = "and" || w = "or"

/-- The longest runs of words without parentheses and links. -/
def runs (ws : List String) : List (List String) :=
  (ws.splitOnP isMark).filter fun run => !run.isEmpty

theorem runs_nil : runs [] = [] := rfl

/-- **Cutting at a mark cuts no run.** -/
theorem runs_append_cons (u v : List String) {m : String} (hm : isMark m) :
    runs (u ++ m :: v) = runs u ++ runs v := by
  unfold runs
  rw [List.splitOnP_append_cons u v hm, List.filter_append]

theorem runs_cons {m : String} (hm : isMark m) (ws : List String) : runs (m :: ws) = runs ws := by
  have hcut := runs_append_cons [] ws hm
  rwa [List.nil_append, runs_nil, List.nil_append] at hcut

/-- Words without marks are one run. -/
theorem runs_of_not_isMark {ws : List String} (hne : ws ≠ []) (h : ∀ w ∈ ws, isMark w = false) :
    runs ws = [ws] := by
  unfold runs
  rw [List.splitOnP_eq_singleton h, List.filter_cons_of_pos (by simpa using hne), List.filter_nil]

theorem isMark_link (link : Link) : isMark link.word := by
  cases link <;> decide

/-- A mark is the word for a parenthesis or a link. -/
theorem exists_keyword_of_isMark {w : String} (h : isMark w) :
    w = Keyword.opening.word ∨ w = Keyword.closing.word ∨ ∃ link, w = (Keyword.link link).word := by
  unfold isMark at h
  simp only [Bool.or_eq_true, decide_eq_true_eq] at h
  rcases h with ((h | h) | h) | h
  · exact Or.inl h
  · exact Or.inr (Or.inl h)
  · exact Or.inr (Or.inr ⟨.and, h⟩)
  · exact Or.inr (Or.inr ⟨.or, h⟩)

/-- What is no keyword is no mark. -/
theorem isMark_eq_false {w : String} (h : ∀ k : Keyword, w ≠ k.word) : isMark w = false := by
  rw [Bool.eq_false_iff]
  intro hmark
  rcases exists_keyword_of_isMark hmark with hw | hw | ⟨link, hw⟩
  · exact h _ hw
  · exact h _ hw
  · exact h _ hw

variable {ω ν : Type} {inputs : List (Vocabulary VariableKey TermKey)}
  {outputs : List (Vocabulary ω ν)} {lexicon : Lexicon ω ν}

/-! ## Conditions -/

/-- A clause is one run. -/
theorem IsClause.runs_eq (h : Lexicon.ofVocabularies inputs outputs = .ok lexicon)
    {ws : List String} {p : Proposition} (hc : IsClause inputs ws p) : runs ws = [ws] := by
  refine runs_of_not_isMark (by cases hc; exact List.cons_ne_nil _ _) fun w hw => ?_
  rw [Bool.eq_false_iff]
  intro hmark
  rcases exists_keyword_of_isMark hmark with rfl | rfl | ⟨link, rfl⟩
  · simpa using hc.keyword_of_mem h hw
  · simpa using hc.keyword_of_mem h hw
  · simpa using hc.keyword_of_mem h hw

/-- Operands after the first begin behind a link. -/
theorem IsTail.exists_cons {σ : Type} {s : Script σ} {link : Link} {ws : List σ}
    {cs : List Condition} (h : IsTail s link ws cs) : ∃ rest, ws = s.link link :: rest := by
  cases h with
  | last _ => exact ⟨_, rfl⟩
  | more _ _ => exact ⟨_, rfl⟩

/-- Nothing runs on from an operand to what follows it. -/
theorem IsTail.runs_append {link : Link} {rest : List String} {cs : List Condition}
    (h : IsTail (.words inputs) link rest cs) (ws : List String) :
    runs (ws ++ rest) = runs ws ++ runs rest := by
  obtain ⟨rest, rfl⟩ := h.exists_cons
  have hmark : isMark (Link.word link) := isMark_link link
  show runs (ws ++ link.word :: rest) = runs ws ++ runs (link.word :: rest)
  rw [runs_append_cons ws rest hmark, runs_cons hmark]

theorem runs_grouped (ws : List String) : runs ("(" :: (ws ++ [")"])) = runs ws := by
  rw [runs_cons (by decide), runs_append_cons ws [] (by decide), runs_nil, List.append_nil]

mutual

/-- **The propositions of a condition are its clauses from left to right.** -/
theorem IsExpression.forall₂_runs (h : Lexicon.ofVocabularies inputs outputs = .ok lexicon)
    {ws : List String} {c : Condition} : IsExpression (.words inputs) ws c →
    List.Forall₂ (IsClause inputs) (runs ws) c.propositions
  | .clause hc => by
      rw [IsClause.runs_eq h hc]
      exact .cons hc .nil
  | .grouped hc => by
      have hruns := hc.forall₂_runs h
      rw [← runs_grouped] at hruns
      exact hruns
  | .chain hc ht => by
      rw [ht.runs_append]
      exact List.rel_append (hc.forall₂_runs h) (ht.forall₂_runs h)

theorem IsOperand.forall₂_runs (h : Lexicon.ofVocabularies inputs outputs = .ok lexicon)
    {ws : List String} {c : Condition} : IsOperand (.words inputs) ws c →
    List.Forall₂ (IsClause inputs) (runs ws) c.propositions
  | .clause hc => by
      rw [IsClause.runs_eq h hc]
      exact .cons hc .nil
  | .grouped hc => by
      have hruns := hc.forall₂_runs h
      rw [← runs_grouped] at hruns
      exact hruns

theorem IsTail.forall₂_runs (h : Lexicon.ofVocabularies inputs outputs = .ok lexicon)
    {link : Link} {ws : List String} {cs : List Condition} : IsTail (.words inputs) link ws cs →
    List.Forall₂ (IsClause inputs) (runs ws) (Condition.propositionsOf cs)
  | .last hc => by
      have hruns := hc.forall₂_runs h
      rw [← runs_cons (isMark_link link)] at hruns
      rw [Condition.propositionsOf, Condition.propositionsOf, List.append_nil]
      exact hruns
  | .more hc ht => by
      have hruns : List.Forall₂ (IsClause inputs) (runs _ ++ runs _) (_ ++ _) :=
        List.rel_append (hc.forall₂_runs h) (ht.forall₂_runs h)
      rw [← ht.runs_append, ← runs_cons (isMark_link link)] at hruns
      exact hruns

end

/-! ## Conclusions -/

/-- **A conclusion is one clause**, whatever the parentheses around it. -/
theorem IsConclusion.exists_clause (h : Lexicon.ofVocabularies inputs outputs = .ok lexicon)
    {ws : List String} {c : Conclusion ω ν} (hc : IsConclusion outputs ws c) :
    ∃ v ∈ outputs, ∃ name, runs ws = [[v.name, "is", name]] ∧ v.key = c.subject
      ∧ v.values.lookup name = some c.value := by
  induction hc with
  | @plain v name value hv hvalue =>
    refine ⟨v, hv, name, ?_, rfl, hvalue⟩
    refine runs_of_not_isMark (List.cons_ne_nil _ _) fun w hw => ?_
    simp only [List.mem_cons, List.not_mem_nil, or_false] at hw
    rcases hw with rfl | rfl | rfl
    · exact isMark_eq_false (output_ne_word h hv)
    · decide
    · exact isMark_eq_false (value_ne_word h hv hvalue)
  | grouped _ ih =>
    rw [runs_grouped]
    exact ih

end FuzzyInference.RuleText
