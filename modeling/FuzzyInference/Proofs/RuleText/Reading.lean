import FuzzyInference.RuleText.Sentence
import FuzzyInference.Proofs.RuleText.Clauses
import FuzzyInference.Proofs.RuleText.Words

/-!
# The reader reads the grammar

Of any text the reader makes the rule that the grammar derives from its words,
and it refuses a text whose words derive none (`read_eq_ok_iff`). The reader
takes a text apart in passes: it looks words up, cuts the tokens at `if` and
`then`, cuts the first half into items and groups them, and takes the
parentheses off the second half. For each pass there is one statement here or in
the modules before that says which words it accepts.

Parentheses of a condition are counted before it is grouped, and the count goes
wrong where a parenthesis closes nothing. That does no harm, since such a
condition is refused anyhow.
-/

namespace FuzzyInference.RuleText

variable {ω ν : Type} {inputs : List (Vocabulary VariableKey TermKey)}
  {outputs : List (Vocabulary ω ν)} {lexicon : Lexicon ω ν}

/-- `if condition then conclusion`, the parentheses of the condition nested at most 64 deep. -/
def IsSentence (inputs : List (Vocabulary VariableKey TermKey)) (outputs : List (Vocabulary ω ν))
    (ws : List String) (rule : Rule ω ν) : Prop :=
  ∃ condition conclusion, ws = "if" :: (condition ++ "then" :: conclusion)
    ∧ IsExpression (.words inputs) condition rule.condition
    ∧ NestsWithin "(" ")" 64 condition
    ∧ IsConclusion outputs conclusion rule.conclusion

/-! ## The condition -/

/-- **The two passes over a condition accept what the grammar derives, up to the depth.** -/
theorem condition_eq_ok_iff (h : Lexicon.ofVocabularies inputs outputs = .ok lexicon)
    (hkeys : (inputs.map (·.key)).Nodup) {ts : List (Token ω ν)} (hts : Known lexicon ts)
    {c : Condition} :
    (∃ items, itemsOf ts = .ok items ∧ nestingDepth items ≤ maxNesting
        ∧ conditionOf items = .ok c)
      ↔ IsExpression (.words inputs) (ts.map Token.text) c
        ∧ NestsWithin "(" ")" 64 (ts.map Token.text) := by
  refine ⟨fun hh => ?_, fun hh => ?_⟩
  · obtain ⟨items, hitems, hdepth, hc⟩ := hh
    have hs := (itemsOf_eq_ok_iff h hkeys hts).mp hitems
    have hc := conditionOf_eq_ok_iff.mp hc
    refine ⟨hc.of_items hs, (nestsWithin_spells_iff h hs).mpr ?_⟩
    exact (nestingDepth_le_iff hc.balanced).mp hdepth
  · obtain ⟨hc, hn⟩ := hh
    obtain ⟨items, hs, hc⟩ := isExpression_words_iff.mp hc
    refine ⟨items, (itemsOf_eq_ok_iff h hkeys hts).mpr hs, ?_, conditionOf_eq_ok_iff.mpr hc⟩
    exact (nestingDepth_le_iff hc.balanced).mpr ((nestsWithin_spells_iff h hs).mp hn)

/-! ## The conclusion -/

theorem isBracketed_iff (h : Lexicon.ofVocabularies inputs outputs = .ok lexicon)
    {ts : List (Token ω ν)} (hts : Known lexicon ts) :
    isBracketed ts ↔ ∃ o u c, ts = o :: (u ++ [c]) ∧ o.text = "(" ∧ c.text = ")" := by
  simp only [isBracketed, Bool.and_eq_true, decide_eq_true_eq]
  refine ⟨fun hh => ?_, fun hh => ?_⟩
  · obtain ⟨⟨hlen, hhead⟩, hlast⟩ := hh
    cases ts with
    | nil => exact absurd hlen (by simp)
    | cons o rest =>
      have hne : rest ≠ [] := by
        rintro rfl
        exact absurd hlen (by simp)
      obtain ⟨u, c, rfl⟩ : ∃ u c, rest = u ++ [c] :=
        ⟨rest.dropLast, rest.getLast hne, (List.dropLast_concat_getLast hne).symm⟩
      obtain ⟨ho, hrest⟩ := known_cons.mp hts
      have hc := (known_cons.mp (known_append.mp hrest).2).1
      refine ⟨o, u, c, rfl, (isKeyword_iff h ho).mp hhead, ?_⟩
      rw [← List.cons_append, List.getLast?_concat] at hlast
      exact (isKeyword_iff h hc).mp hlast
  · obtain ⟨o, u, c, rfl, ho, hc⟩ := hh
    obtain ⟨ho', hrest⟩ := known_cons.mp hts
    have hc' := (known_cons.mp (known_append.mp hrest).2).1
    refine ⟨⟨?_, (isKeyword_iff h ho').mpr ho⟩, ?_⟩
    · simp only [List.length_cons, List.length_append, List.length_nil]
      omega
    · rw [← List.cons_append, List.getLast?_concat]
      exact (isKeyword_iff h hc').mpr hc

theorem strip_bracketed {o c : Token ω ν} {u : List (Token ω ν)}
    (hb : isBracketed (o :: (u ++ [c]))) : strip (o :: (u ++ [c])) = strip u := by
  rw [strip, dif_pos hb]
  simp only [List.tail_cons, List.dropLast_concat]

theorem strip_of_not_bracketed {ts : List (Token ω ν)} (hb : ¬ isBracketed ts) :
    strip ts = ts := by
  rw [strip, dif_neg hb]

variable [DecidableEq ω]

theorem conclusionOf_bracketed {o c : Token ω ν} {u : List (Token ω ν)}
    (hb : isBracketed (o :: (u ++ [c]))) :
    conclusionOf (o :: (u ++ [c])) = conclusionOf u := by
  unfold conclusionOf
  rw [strip_bracketed hb]

/-- Without parentheses a conclusion is `variable is value`. -/
theorem conclusionOf_plain_iff (h : Lexicon.ofVocabularies inputs outputs = .ok lexicon)
    (hkeys : (outputs.map (·.key)).Nodup) {ts : List (Token ω ν)} (hts : Known lexicon ts)
    (hb : ¬ isBracketed ts) {c : Conclusion ω ν} :
    conclusionOf ts = .ok c
      ↔ ∃ v name value, v ∈ outputs ∧ v.values.lookup name = some value
        ∧ ts.map Token.text = [v.name, "is", name] ∧ c = { subject := v.key, value } := by
  unfold conclusionOf
  rw [strip_of_not_bracketed hb]
  refine ⟨fun hc => ?_, fun hh => ?_⟩
  · split at hc
    · rename_i subject verb value
      obtain ⟨hsubject, hts⟩ := known_cons.mp hts
      obtain ⟨hverb, hts⟩ := known_cons.mp hts
      split at hc
      · rename_i key hl
        obtain ⟨v, hv, hname, rfl⟩ := exists_output h (hsubject.trans (congrArg some hl))
        split at hc
        · rename_i his
          have his' : verb.text = "is" := (isKeyword_iff h hverb).mp his
          split at hc
          · rename_i x hx
            cases hc
            rw [outputValue?_eq h hkeys (known_cons.mp hts).1 hv] at hx
            refine ⟨v, value.text, x, hv, hx, ?_, rfl⟩
            rw [hname, ← his']
            rfl
          · exact absurd hc (by simp)
        · exact absurd hc (by simp)
      · exact absurd hc (by simp)
      · exact absurd hc (by simp)
    · exact absurd hc (by simp)
  · obtain ⟨v, name, x, hv, hx, htexts, rfl⟩ := hh
    obtain ⟨subject, ts, rfl, hsubject, htexts⟩ := List.map_eq_cons_iff.mp htexts
    obtain ⟨verb, ts, rfl, hverb, htexts⟩ := List.map_eq_cons_iff.mp htexts
    obtain ⟨value, ts, rfl, hvalue, htexts⟩ := List.map_eq_cons_iff.mp htexts
    cases List.map_eq_nil_iff.mp htexts
    obtain ⟨hsubject', hts⟩ := known_cons.mp hts
    obtain ⟨hverb', hts⟩ := known_cons.mp hts
    rw [hsubject, get?_output h hv, Option.some.injEq] at hsubject'
    have his : verb.isKeyword .isWord := (isKeyword_iff h hverb').mpr hverb
    have hlookup := outputValue?_eq h hkeys (known_cons.mp hts).1 hv
    rw [hvalue, hx] at hlookup
    simp only [← hsubject', his, if_true, hlookup]

/-- **A conclusion is read exactly if the grammar derives it.** -/
theorem conclusionOf_eq_ok_iff (h : Lexicon.ofVocabularies inputs outputs = .ok lexicon)
    (hkeys : (outputs.map (·.key)).Nodup) {ts : List (Token ω ν)} (hts : Known lexicon ts)
    {c : Conclusion ω ν} :
    conclusionOf ts = .ok c ↔ IsConclusion outputs (ts.map Token.text) c := by
  by_cases hb : isBracketed ts
  · obtain ⟨o, u, e, rfl, ho, he⟩ := (isBracketed_iff h hts).mp hb
    have hu := (known_append.mp (known_cons.mp hts).2).1
    have htexts : (o :: (u ++ [e])).map Token.text = "(" :: (u.map Token.text ++ [")"]) := by
      rw [List.map_cons, List.map_append, List.map_singleton, ho, he]
    have hlen : u.length < (o :: (u ++ [e])).length := by
      simp only [List.length_cons, List.length_append, List.length_nil]
      omega
    rw [conclusionOf_bracketed hb, conclusionOf_eq_ok_iff h hkeys hu, htexts]
    refine ⟨.grouped, fun hc => ?_⟩
    generalize hws : "(" :: (u.map Token.text ++ [")"]) = ws at hc
    cases hc with
    | plain hv hx =>
      -- no output is called like a parenthesis
      rw [List.cons.injEq] at hws
      exact absurd hws.1.symm (output_ne_word h hv .opening)
    | grouped hc =>
      rw [List.cons.injEq] at hws
      rw [List.append_cancel_right hws.2]
      exact hc
  · rw [conclusionOf_plain_iff h hkeys hts hb]
    refine ⟨fun hh => ?_, fun hc => ?_⟩
    · obtain ⟨v, name, value, hv, hx, htexts, rfl⟩ := hh
      rw [htexts]
      exact .plain hv hx
    · generalize hws : ts.map Token.text = ws at hc
      cases hc with
      | plain hv hx => exact ⟨_, _, _, hv, hx, rfl, rfl⟩
      | grouped hc =>
        obtain ⟨o, us, rfl, ho, hus⟩ := List.map_eq_cons_iff.mp hws
        obtain ⟨u, es, rfl, -, hes⟩ := List.map_eq_append_iff.mp hus
        obtain ⟨e, es, rfl, he, hes⟩ := List.map_eq_cons_iff.mp hes
        cases List.map_eq_nil_iff.mp hes
        exact absurd ((isBracketed_iff h hts).mpr ⟨o, u, e, rfl, ho, he⟩) hb
termination_by ts.length

/-! ## The sentence -/

omit [DecidableEq ω]

/-- Where a list is cut in two at the first element that fails a test. -/
theorem cut_iff {σ : Type} {p : σ → Bool} {l u v : List σ} {t : σ} :
    l.takeWhile p = u ∧ l.dropWhile p = t :: v
      ↔ l = u ++ t :: v ∧ (∀ a ∈ u, p a) ∧ p t = false := by
  induction l generalizing u with
  | nil => simp
  | cons b l ih =>
    cases hb : p b with
    | false =>
      rw [List.takeWhile_cons_of_neg (by simp [hb]), List.dropWhile_cons_of_neg (by simp [hb])]
      refine ⟨fun h => ?_, fun h => ?_⟩
      · obtain ⟨rfl, h⟩ := h
        cases h
        exact ⟨rfl, by simp, hb⟩
      · obtain ⟨hl, hu, -⟩ := h
        cases u with
        | nil => exact ⟨rfl, hl⟩
        | cons a u =>
          rw [List.cons_append, List.cons.injEq] at hl
          have ha := hu a List.mem_cons_self
          rw [← hl.1, hb] at ha
          exact absurd ha (by simp)
    | true =>
      rw [List.takeWhile_cons_of_pos hb, List.dropWhile_cons_of_pos hb]
      refine ⟨fun h => ?_, fun h => ?_⟩
      · obtain ⟨rfl, h⟩ := h
        obtain ⟨hl, hu, ht⟩ := ih.mp ⟨rfl, h⟩
        exact ⟨congrArg (b :: ·) hl, List.forall_mem_cons.mpr ⟨hb, hu⟩, ht⟩
      · obtain ⟨hl, hu, ht⟩ := h
        cases u with
        | nil =>
          rw [List.nil_append, List.cons.injEq] at hl
          rw [← hl.1, hb] at ht
          exact absurd ht (by simp)
        | cons a u =>
          rw [List.cons_append, List.cons.injEq] at hl
          obtain ⟨hu', hv⟩ := ih.mpr ⟨hl.2, (List.forall_mem_cons.mp hu).2, ht⟩
          exact ⟨by rw [hu', hl.1], hv⟩

/-- **The halves of a rule** are what stands before and behind its first `then`. -/
theorem halves_eq_ok_iff (h : Lexicon.ofVocabularies inputs outputs = .ok lexicon)
    {ts us vs : List (Token ω ν)} (hts : Known lexicon ts) :
    halves ts = .ok (us, vs)
      ↔ ∃ i t, ts = i :: (us ++ t :: vs) ∧ i.text = "if" ∧ t.text = "then"
        ∧ "then" ∉ us.map Token.text ∧ us ≠ [] ∧ vs ≠ [] := by
  -- of known tokens only the word itself is the keyword
  have hthen : ∀ t : Token ω ν, lexicon.get? t.text = some t.lexeme →
      ((!t.isKeyword .thenWord) = false ↔ t.text = "then") := by
    intro t ht
    rw [Bool.not_eq_false']
    exact isKeyword_iff h ht
  have hnone : ∀ u : List (Token ω ν), Known lexicon u →
      ((∀ t ∈ u, !t.isKeyword .thenWord) ↔ "then" ∉ u.map Token.text) := by
    intro u hu
    rw [List.mem_map, not_exists]
    refine forall_congr' fun t => ?_
    rw [not_and]
    refine forall_congr' fun ht => ?_
    rw [← hthen t (hu t ht), Bool.not_eq_false]
  refine ⟨fun hh => ?_, fun hh => ?_⟩
  · unfold halves at hh
    split at hh
    · exact absurd hh (by simp)
    · rename_i first rest
      obtain ⟨hfirst, hrest⟩ := known_cons.mp hts
      split at hh
      · rename_i hif
        split at hh
        · exact absurd hh (by simp)
        · rename_i t after hafter
          obtain ⟨hcut, hbefore, ht⟩ := cut_iff.mp ⟨rfl, hafter⟩
          rw [hcut] at hrest
          obtain ⟨hu, ht'⟩ := known_append.mp hrest
          dsimp only at hh
          split at hh
          · exact absurd hh (by simp)
          · rename_i hus
            split at hh
            · exact absurd hh (by simp)
            · rename_i hvs
              cases hh
              refine ⟨first, t, by rw [← hcut], (isKeyword_iff h hfirst).mp hif,
                (hthen t (known_cons.mp ht').1).mp ht, (hnone _ hu).mp hbefore, ?_, ?_⟩
              · exact fun hnil => hus (List.isEmpty_iff.mpr hnil)
              · exact fun hnil => hvs (List.isEmpty_iff.mpr hnil)
      · exact absurd hh (by simp)
  · obtain ⟨i, t, rfl, hi, ht, hus, hnil, hnil'⟩ := hh
    obtain ⟨hi', hrest⟩ := known_cons.mp hts
    obtain ⟨hu, hv⟩ := known_append.mp hrest
    have hif : i.isKeyword .ifWord := (isKeyword_iff h hi').mpr hi
    obtain ⟨htake, hdrop⟩ := cut_iff.mpr ⟨(rfl : us ++ t :: vs = us ++ t :: vs),
      (hnone us hu).mpr hus, (hthen t (known_cons.mp hv).1).mpr ht⟩
    unfold halves
    simp only [hif, if_true, hdrop, htake, List.isEmpty_iff, hnil, hnil', if_false]

theorem IsExpression.ne_nil {ws : List String} {c : Condition}
    (h : IsExpression (.words inputs) ws c) : ws ≠ [] := by
  cases h with
  | clause hc =>
    cases hc
    exact List.cons_ne_nil _ _
  | grouped _ => exact List.cons_ne_nil _ _
  | chain _ ht => cases ht <;> simp

theorem IsConclusion.ne_nil {ws : List String} {c : Conclusion ω ν}
    (h : IsConclusion outputs ws c) : ws ≠ [] := by
  cases h <;> exact List.cons_ne_nil _ _

variable [DecidableEq ω]

/-- What the reader goes through, one pass after the other. -/
theorem ruleOf_eq_ok_iff_passes {ts : List (Token ω ν)} {rule : Rule ω ν} :
    ruleOf ts = .ok rule
      ↔ ∃ us vs, halves ts = .ok (us, vs)
        ∧ (∃ items, itemsOf us = .ok items ∧ nestingDepth items ≤ maxNesting
          ∧ conditionOf items = .ok rule.condition)
        ∧ conclusionOf vs = .ok rule.conclusion := by
  unfold ruleOf
  refine ⟨fun hr => ?_, fun hr => ?_⟩
  · obtain ⟨⟨us, vs⟩, hhalves, hr⟩ := bind_eq_ok_iff.mp hr
    obtain ⟨items, hitems, hr⟩ := bind_eq_ok_iff.mp hr
    split at hr
    · exact absurd hr (by simp)
    · rename_i hdepth
      obtain ⟨c, hc, hr⟩ := bind_eq_ok_iff.mp hr
      obtain ⟨d, hd, hr⟩ := bind_eq_ok_iff.mp hr
      cases hr
      exact ⟨us, vs, hhalves, ⟨items, hitems, Nat.le_of_not_gt hdepth, hc⟩, hd⟩
  · obtain ⟨us, vs, hhalves, ⟨items, hitems, hdepth, hc⟩, hd⟩ := hr
    rw [hhalves, ok_bind]
    dsimp only
    rw [hitems, ok_bind, if_neg (Nat.not_lt.mpr hdepth), hc, ok_bind, hd, ok_bind]

/-- **Known tokens are read exactly if they are a sentence.** -/
theorem ruleOf_eq_ok_iff (h : Lexicon.ofVocabularies inputs outputs = .ok lexicon)
    (hinputs : (inputs.map (·.key)).Nodup) (houtputs : (outputs.map (·.key)).Nodup)
    {ts : List (Token ω ν)} (hts : Known lexicon ts) {rule : Rule ω ν} :
    ruleOf ts = .ok rule ↔ IsSentence inputs outputs (ts.map Token.text) rule := by
  rw [ruleOf_eq_ok_iff_passes]
  refine ⟨fun hr => ?_, fun hr => ?_⟩
  · obtain ⟨us, vs, hhalves, hc, hd⟩ := hr
    obtain ⟨i, t, rfl, hi, ht, -, -, -⟩ := (halves_eq_ok_iff h hts).mp hhalves
    obtain ⟨hus, hvs⟩ := known_append.mp (known_cons.mp hts).2
    obtain ⟨hc, hn⟩ := (condition_eq_ok_iff h hinputs hus).mp hc
    refine ⟨us.map Token.text, vs.map Token.text, ?_, hc, hn,
      (conclusionOf_eq_ok_iff h houtputs (known_cons.mp hvs).2).mp hd⟩
    rw [List.map_cons, List.map_append, List.map_cons, hi, ht]
  · obtain ⟨condition, conclusion, htexts, hc, hn, hd⟩ := hr
    obtain ⟨i, rest, rfl, hi, hrest⟩ := List.map_eq_cons_iff.mp htexts
    obtain ⟨us, more, rfl, rfl, hmore⟩ := List.map_eq_append_iff.mp hrest
    obtain ⟨t, vs, rfl, ht, rfl⟩ := List.map_eq_cons_iff.mp hmore
    obtain ⟨hus, hvs⟩ := known_append.mp (known_cons.mp hts).2
    obtain ⟨items, hs, -⟩ := isExpression_words_iff.mp hc
    -- no condition has a `then` in it, so the one behind the condition is the first
    have hhalves : halves (i :: (us ++ t :: vs)) = .ok (us, vs) :=
      (halves_eq_ok_iff h hts).mpr ⟨i, t, rfl, hi, ht, then_not_mem_of_spells h hs,
        fun hnil => hc.ne_nil (hnil ▸ rfl), fun hnil => hd.ne_nil (hnil ▸ rfl)⟩
    exact ⟨us, vs, hhalves, (condition_eq_ok_iff h hinputs hus).mpr ⟨hc, hn⟩,
      (conclusionOf_eq_ok_iff h houtputs (known_cons.mp hvs).2).mpr hd⟩

/-! ## The text -/

omit [DecidableEq ω]

theorem IsClause.known (h : Lexicon.ofVocabularies inputs outputs = .ok lexicon)
    {ws : List String} {p : Proposition} (hc : IsClause inputs ws p) :
    ∀ w ∈ ws, ∃ l, lexicon.get? w = some l := by
  intro w hw
  obtain ⟨negated, hedge, hv, hterm⟩ := hc
  rcases List.mem_cons.mp hw with rfl | hw
  · exact ⟨_, get?_input h hv⟩
  rcases List.mem_cons.mp hw with rfl | hw
  · exact ⟨_, Lexicon.get?_word h .isWord⟩
  rcases List.mem_append.mp hw with hw | hw
  · cases negated with
    | false => exact absurd hw List.not_mem_nil
    | true =>
      rw [List.mem_singleton.mp hw]
      exact ⟨_, Lexicon.get?_word h .notWord⟩
  rcases List.mem_append.mp hw with hw | hw
  · cases hedge with
    | none => exact absurd hw List.not_mem_nil
    | some hedge =>
      rw [List.mem_singleton.mp hw]
      exact ⟨_, Lexicon.get?_word h (.hedge hedge)⟩
  · rw [List.mem_singleton.mp hw]
    exact exists_get?_term h hv hterm

theorem Spells.known (h : Lexicon.ofVocabularies inputs outputs = .ok lexicon)
    {ws : List String} {items : List Item} (hs : Spells inputs ws items) :
    ∀ w ∈ ws, ∃ l, lexicon.get? w = some l := by
  induction hs with
  | nil => exact fun w hw => absurd hw List.not_mem_nil
  | cons hi _ ih =>
    intro w hw
    rcases List.mem_append.mp hw with hw | hw
    · cases hi with
      | clause hc => exact hc.known h w hw
      | mark hk =>
        rw [List.mem_singleton.mp hw]
        exact ⟨_, Lexicon.get?_word h _⟩
    · exact ih w hw

theorem IsConclusion.known (h : Lexicon.ofVocabularies inputs outputs = .ok lexicon)
    {ws : List String} {c : Conclusion ω ν} (hc : IsConclusion outputs ws c) :
    ∀ w ∈ ws, ∃ l, lexicon.get? w = some l := by
  induction hc with
  | plain hv hx =>
    intro w hw
    simp only [List.mem_cons, List.not_mem_nil, or_false] at hw
    rcases hw with rfl | rfl | rfl
    · exact ⟨_, get?_output h hv⟩
    · exact ⟨_, Lexicon.get?_word h .isWord⟩
    · exact exists_get?_value h hv hx
  | grouped _ ih =>
    intro w hw
    rcases List.mem_cons.mp hw with rfl | hw
    · exact ⟨_, Lexicon.get?_word h .opening⟩
    rcases List.mem_append.mp hw with hw | hw
    · exact ih w hw
    · rw [List.mem_singleton.mp hw]
      exact ⟨_, Lexicon.get?_word h .closing⟩

/-- A sentence has no unknown words. -/
theorem IsSentence.known (h : Lexicon.ofVocabularies inputs outputs = .ok lexicon)
    {ws : List String} {rule : Rule ω ν} (hr : IsSentence inputs outputs ws rule) :
    ∀ w ∈ ws, ∃ l, lexicon.get? w = some l := by
  obtain ⟨condition, conclusion, rfl, hc, -, hd⟩ := hr
  obtain ⟨items, hs, -⟩ := isExpression_words_iff.mp hc
  intro w hw
  rcases List.mem_cons.mp hw with rfl | hw
  · exact ⟨_, Lexicon.get?_word h .ifWord⟩
  rcases List.mem_append.mp hw with hw | hw
  · exact hs.known h w hw
  rcases List.mem_cons.mp hw with rfl | hw
  · exact ⟨_, Lexicon.get?_word h .thenWord⟩
  · exact hd.known h w hw

/-- The tokens of a text are its words, all of which must be known. -/
theorem tokensOf_eq_ok_iff (h : Lexicon.ofVocabularies inputs outputs = .ok lexicon) {text : String}
    {ts : List (Token ω ν)} :
    tokensOf inputs outputs text = .ok ts ↔ ts.map Token.text = words text ∧ Known lexicon ts := by
  unfold tokensOf
  rw [h, ok_bind, wordsOf_normalize, ofWords_eq_ok_iff]

variable [DecidableEq ω]

/-- Vocabularies that a text is read with make up a lexicon. -/
theorem exists_lexicon_of_read {text : String} {rule : Rule ω ν}
    (h : read inputs outputs text = .ok rule) :
    ∃ lexicon, Lexicon.ofVocabularies inputs outputs = .ok lexicon := by
  unfold read at h
  split at h
  · exact absurd h (by simp)
  · obtain ⟨_, htokens, -⟩ := bind_eq_ok_iff.mp h
    obtain ⟨lexicon, hlexicon, -⟩ := bind_eq_ok_iff.mp htokens
    exact ⟨lexicon, hlexicon⟩

/-- **What is read is a sentence.** -/
theorem isSentence_of_read (h : Lexicon.ofVocabularies inputs outputs = .ok lexicon)
    (hinputs : (inputs.map (·.key)).Nodup) (houtputs : (outputs.map (·.key)).Nodup)
    {text : String} {rule : Rule ω ν} (hr : read inputs outputs text = .ok rule) :
    IsSentence inputs outputs (words text) rule := by
  unfold read at hr
  split at hr
  · exact absurd hr (by simp)
  · obtain ⟨ts, hts, hr⟩ := bind_eq_ok_iff.mp hr
    obtain ⟨htexts, hknown⟩ := (tokensOf_eq_ok_iff h).mp hts
    rw [← htexts]
    exact (ruleOf_eq_ok_iff h hinputs houtputs hknown).mp hr

/-- **A sentence is read**, however its words are spaced. -/
theorem read_of_isSentence (h : Lexicon.ofVocabularies inputs outputs = .ok lexicon)
    (hinputs : (inputs.map (·.key)).Nodup) (houtputs : (outputs.map (·.key)).Nodup)
    {text : String} {rule : Rule ω ν} (hr : IsSentence inputs outputs (words text) rule) :
    read inputs outputs text = .ok rule := by
  unfold read
  split
  · rename_i hblank
    rw [words_eq_nil hblank] at hr
    obtain ⟨_, _, hnil, -⟩ := hr
    exact absurd hnil (by simp)
  · obtain ⟨ts, htexts, hknown⟩ := exists_known (hr.known h)
    rw [← htexts] at hr
    exact bind_eq_ok_iff.mpr ⟨ts, (tokensOf_eq_ok_iff h).mpr ⟨htexts, hknown⟩,
      (ruleOf_eq_ok_iff h hinputs houtputs hknown).mpr hr⟩

/-- **A text is read as a rule exactly if its words are a sentence of the grammar**, and then as
the rule that the grammar derives. -/
theorem read_eq_ok_iff (h : Lexicon.ofVocabularies inputs outputs = .ok lexicon)
    (hinputs : (inputs.map (·.key)).Nodup) (houtputs : (outputs.map (·.key)).Nodup)
    (text : String) (rule : Rule ω ν) :
    read inputs outputs text = .ok rule ↔ IsSentence inputs outputs (words text) rule :=
  ⟨isSentence_of_read h hinputs houtputs, read_of_isSentence h hinputs houtputs⟩

/-- A sentence about a cruise control, oddly spaced. -/
theorem read_cruise_control :
    read [⟨"error", ⟨1⟩, [("low", ⟨1⟩), ("high", ⟨2⟩)]⟩]
        [(⟨"throttle", ⟨2⟩, [("low", ⟨3⟩)]⟩ : Vocabulary VariableKey TermKey)]
        " if error is not  very high\nthen(throttle is low )"
      = .ok ⟨.single ⟨⟨1⟩, ⟨2⟩, true, some .very⟩, ⟨⟨2⟩, ⟨3⟩⟩⟩ := by
  refine (read_eq_ok_iff rfl (by decide) (by decide) _ _).mpr
    ⟨["error", "is", "not", "very", "high"], ["(", "throttle", "is", "low", ")"], ?_, ?_, ?_, ?_⟩
  · rw [← wordsOf_normalize]
    decide
  · exact .clause (.intro true (some .very) List.mem_cons_self rfl)
  · exact nestsWithin_iff_covered.mpr
      ((covered_of_not_mem (by decide) (by decide)).mpr (Nat.zero_le 64))
  · exact .grouped (.plain List.mem_cons_self rfl)

end FuzzyInference.RuleText
