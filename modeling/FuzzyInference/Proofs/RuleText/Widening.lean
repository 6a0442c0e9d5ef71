import FuzzyInference.Proofs.RuleText.Reading
import FuzzyInference.Proofs.RuleText.Spellings

/-!
# Vocabularies that grow

Vocabularies can come to say more than they did: of more variables, and of more
values of the same variables. What was a sentence before is one still, and it
says the same (`IsSentence.mono`), since the grammar only ever asks whether some
variable has some value.

The reader asks for more than that. It needs a lexicon, and there is none if a
new name means something already. So a text that was read is read alike, or it
is refused for a collision and for nothing else (`read_of_widens`).
-/

namespace FuzzyInference.RuleText

variable {κ μ ω ν σ : Type}

/-- Whatever some vocabularies say of a variable and its values, others say too. -/
def Widens (vs ws : List (Vocabulary κ μ)) : Prop :=
  ∀ v ∈ vs, ∃ w ∈ ws, w.name = v.name ∧ w.key = v.key
    ∧ ∀ name x, v.values.lookup name = some x → w.values.lookup name = some x

/-! ## The grammar -/

section Clauses

variable {s : Script σ} {clause : List σ → Proposition → Prop}

mutual

/-- More clauses derive no fewer conditions. -/
theorem IsExpression.imp (h : ∀ ws p, s.clause ws p → clause ws p) {ws : List σ} {c : Condition} :
    IsExpression s ws c → IsExpression { s with clause } ws c
  | .clause hc => .clause (h _ _ hc)
  | .grouped hc => .grouped (hc.imp h)
  | .chain hc ht => .chain (hc.imp h) (ht.imp h)

theorem IsOperand.imp (h : ∀ ws p, s.clause ws p → clause ws p) {ws : List σ} {c : Condition} :
    IsOperand s ws c → IsOperand { s with clause } ws c
  | .clause hc => .clause (h _ _ hc)
  | .grouped hc => .grouped (hc.imp h)

theorem IsTail.imp (h : ∀ ws p, s.clause ws p → clause ws p) {link : Link} {ws : List σ}
    {cs : List Condition} : IsTail s link ws cs → IsTail { s with clause } link ws cs
  | .last hc => .last (hc.imp h)
  | .more hc ht => .more (hc.imp h) (ht.imp h)

end

end Clauses

variable {inputs inputs' : List (Vocabulary VariableKey TermKey)}
  {outputs outputs' : List (Vocabulary ω ν)}

theorem IsClause.mono (h : Widens inputs inputs') {ws : List String} {p : Proposition}
    (hp : IsClause inputs ws p) : IsClause inputs' ws p := by
  obtain ⟨negated, hedge, hv, hterm⟩ := hp
  obtain ⟨w, hw, hname, hkey, hvalues⟩ := h _ hv
  rw [← hname, ← hkey]
  exact .intro negated hedge hw (hvalues _ _ hterm)

theorem IsExpression.mono (h : Widens inputs inputs') {ws : List String} {c : Condition}
    (hc : IsExpression (.words inputs) ws c) : IsExpression (.words inputs') ws c := by
  show IsExpression { Script.words inputs with clause := IsClause inputs' } ws c
  exact hc.imp fun _ _ hp => IsClause.mono h hp

theorem IsConclusion.mono (h : Widens outputs outputs') {ws : List String} {c : Conclusion ω ν}
    (hc : IsConclusion outputs ws c) : IsConclusion outputs' ws c := by
  induction hc with
  | plain hv hvalue =>
    obtain ⟨w, hw, hname, hkey, hvalues⟩ := h _ hv
    rw [← hname, ← hkey]
    exact .plain hw (hvalues _ _ hvalue)
  | grouped _ ih => exact .grouped ih

/-- **A sentence stays a sentence, and says what it said.** -/
theorem IsSentence.mono (hinputs : Widens inputs inputs') (houtputs : Widens outputs outputs')
    {ws : List String} {rule : Rule ω ν} (hr : IsSentence inputs outputs ws rule) :
    IsSentence inputs' outputs' ws rule := by
  obtain ⟨condition, conclusion, hws, hc, hn, hd⟩ := hr
  exact ⟨condition, conclusion, hws, hc.mono hinputs, hn, hd.mono houtputs⟩

/-! ## The reader -/

/-- **A text that was read is read alike, or it is refused for a collision.** -/
theorem read_of_widens [DecidableEq ω] (hinputs : Widens inputs inputs')
    (houtputs : Widens outputs outputs') (hkeys : (inputs.map (·.key)).Nodup)
    (hkeys' : (outputs.map (·.key)).Nodup) (hwider : (inputs'.map (·.key)).Nodup)
    (hwider' : (outputs'.map (·.key)).Nodup) {text : String} {rule : Rule ω ν}
    (hr : read inputs outputs text = .ok rule) :
    read inputs' outputs' text = .ok rule
      ∨ ∃ name, read inputs' outputs' text = .error (.lexemeCollision name) := by
  obtain ⟨lexicon, hl⟩ := exists_lexicon_of_read hr
  have hs := (isSentence_of_read hl hkeys hkeys' hr).mono hinputs houtputs
  cases hl' : Lexicon.ofVocabularies inputs' outputs' with
  | ok lexicon' => exact Or.inl (read_of_isSentence hl' hwider hwider' hs)
  | error e =>
    obtain ⟨x, -, rfl⟩ := ofVocabularies_eq_error_iff.mp hl'
    refine Or.inr ⟨x.2.1, ?_⟩
    -- the text is not blank, or it would not have been read before
    unfold read at hr ⊢
    split at hr
    · exact absurd hr (by simp)
    · rename_i hblank
      rw [if_neg hblank, tokensOf, hl']
      rfl

end FuzzyInference.RuleText
