import FuzzyInference.Proofs.RuleText.Grouping
import FuzzyInference.Proofs.RuleText.Lexicon

/-!
# Clauses become items

The first pass over a condition cuts its words into items, and it cuts them the
one way there is (`itemsOf_eq_ok_iff`). That the way is unique rests on the
lexicon: it has taken no name that is a keyword, so `not` and a hedge after `is`
cannot be the name of a term, and no word within a clause can be a link or a
parenthesis.

What the grammar says of items it therefore says of the words they are cut from
(`isExpression_words_iff`), and parentheses nest equally deep in both.
-/

namespace FuzzyInference.RuleText

variable {ω ν : Type}

theorem word_injective {k l : Keyword} (h : k.word = l.word) : k = l := by
  have hk : (Lexicon.keywords : Lexicon Unit Unit).get? k.word = some (.keyword k) :=
    keywords_word k
  rw [h, keywords_word] at hk
  cases hk
  rfl

/-! ## Known words -/

/-- Every token is a word of the lexicon and what it stands for. -/
def Known (lexicon : Lexicon ω ν) (tokens : List (Token ω ν)) : Prop :=
  ∀ t ∈ tokens, lexicon.get? t.text = some t.lexeme

theorem known_append {lexicon : Lexicon ω ν} {u v : List (Token ω ν)} :
    Known lexicon (u ++ v) ↔ Known lexicon u ∧ Known lexicon v :=
  List.forall_mem_append

theorem known_cons {lexicon : Lexicon ω ν} {t : Token ω ν} {v : List (Token ω ν)} :
    Known lexicon (t :: v) ↔ lexicon.get? t.text = some t.lexeme ∧ Known lexicon v :=
  List.forall_mem_cons

/-- Looking words up makes known tokens of them. -/
theorem ofWords_eq_ok_iff {lexicon : Lexicon ω ν} {ws : List String} {ts : List (Token ω ν)} :
    Token.ofWords lexicon ws = .ok ts ↔ ts.map Token.text = ws ∧ Known lexicon ts := by
  unfold Token.ofWords
  induction ws generalizing ts with
  | nil =>
    rw [List.mapM_nil, List.map_eq_nil_iff]
    refine ⟨fun h => ?_, fun h => ?_⟩
    · cases h
      exact ⟨rfl, fun t ht => absurd ht (by simp)⟩
    · rw [h.1]
      rfl
  | cons w ws ih =>
    rw [List.mapM_cons, bind_eq_ok_iff]
    refine ⟨fun h => ?_, fun h => ?_⟩
    · obtain ⟨t, ht, h⟩ := h
      obtain ⟨us, hus, h⟩ := bind_eq_ok_iff.mp h
      cases h
      obtain ⟨htexts, hknown⟩ := ih.mp hus
      split at ht
      · rename_i l hl
        cases ht
        exact ⟨by rw [List.map_cons, htexts], known_cons.mpr ⟨hl, hknown⟩⟩
      · exact absurd ht (by simp)
    · obtain ⟨htexts, hknown⟩ := h
      obtain ⟨t, us, rfl, rfl, hus⟩ := List.map_eq_cons_iff.mp htexts
      obtain ⟨ht, hknown⟩ := known_cons.mp hknown
      refine ⟨t, by rw [ht], bind_eq_ok_iff.mpr ⟨us, ih.mpr ⟨hus, hknown⟩, rfl⟩⟩

/-- Words that all have a meaning can be looked up. -/
theorem exists_known {lexicon : Lexicon ω ν} {ws : List String}
    (h : ∀ w ∈ ws, ∃ l, lexicon.get? w = some l) :
    ∃ ts : List (Token ω ν), ts.map Token.text = ws ∧ Known lexicon ts := by
  induction ws with
  | nil => exact ⟨[], rfl, fun t ht => absurd ht (by simp)⟩
  | cons w ws ih =>
    obtain ⟨l, hl⟩ := h w List.mem_cons_self
    obtain ⟨ts, hts, hknown⟩ := ih fun w' hw' => h w' (List.mem_cons_of_mem w hw')
    exact ⟨⟨w, l⟩ :: ts, by rw [List.map_cons, hts], known_cons.mpr ⟨hl, hknown⟩⟩

/-! ## Items in words -/

/-- The item that a keyword is by itself. -/
def markOf? : Keyword → Option Item
  | .link link => some (.link link)
  | .opening => some .opening
  | .closing => some .closing
  | _ => none

/-- What is written for an item. -/
inductive IsItem (inputs : List (Vocabulary VariableKey TermKey)) : List String → Item → Prop where
  | clause {subject : String} {ws : List String} {p : Proposition} :
      IsClause inputs (subject :: ws) p → IsItem inputs (subject :: ws) (.clause p subject)
  | mark {k : Keyword} {item : Item} : markOf? k = some item → IsItem inputs [k.word] item

/-- `Spells inputs ws items`: the words are those of the items, one item after the other. -/
inductive Spells (inputs : List (Vocabulary VariableKey TermKey)) :
    List String → List Item → Prop where
  | nil : Spells inputs [] []
  | cons {u ws : List String} {item : Item} {items : List Item} :
      IsItem inputs u item → Spells inputs ws items → Spells inputs (u ++ ws) (item :: items)

section Spelling

variable {inputs : List (Vocabulary VariableKey TermKey)}

theorem IsItem.spells {u : List String} {item : Item} (h : IsItem inputs u item) :
    Spells inputs u [item] := by
  have := Spells.cons h .nil
  rwa [List.append_nil] at this

theorem Spells.append {u v : List String} {is js : List Item} (hu : Spells inputs u is)
    (hv : Spells inputs v js) : Spells inputs (u ++ v) (is ++ js) := by
  induction hu with
  | nil => exact hv
  | cons hi _ ih =>
    rw [List.append_assoc, List.cons_append]
    exact .cons hi ih

theorem spells_cons_iff {ws : List String} {item : Item} {items : List Item} :
    Spells inputs ws (item :: items)
      ↔ ∃ u v, ws = u ++ v ∧ IsItem inputs u item ∧ Spells inputs v items := by
  refine ⟨fun h => ?_, fun h => ?_⟩
  · cases h with
    | cons hi hs => exact ⟨_, _, rfl, hi, hs⟩
  · obtain ⟨u, v, rfl, hi, hs⟩ := h
    exact .cons hi hs

theorem spells_nil_iff {ws : List String} : Spells inputs ws [] ↔ ws = [] := by
  refine ⟨fun h => ?_, fun h => ?_⟩
  · cases h
    rfl
  · subst h
    exact .nil

/-- Where items are cut in two, so are the words. -/
theorem spells_append_iff {ws : List String} {is js : List Item} :
    Spells inputs ws (is ++ js)
      ↔ ∃ u v, ws = u ++ v ∧ Spells inputs u is ∧ Spells inputs v js := by
  refine ⟨fun h => ?_, fun h => ?_⟩
  · induction is generalizing ws with
    | nil => exact ⟨[], ws, rfl, .nil, h⟩
    | cons item is ih =>
      obtain ⟨u, v, rfl, hi, hs⟩ := spells_cons_iff.mp h
      obtain ⟨u', v', rfl, hu', hv'⟩ := ih hs
      exact ⟨u ++ u', v', (List.append_assoc u u' v').symm, .cons hi hu', hv'⟩
  · obtain ⟨u, v, rfl, hu, hv⟩ := h
    exact hu.append hv

theorem text_of_markOf? {k : Keyword} {item : Item} (h : markOf? k = some item) :
    item.text = k.word := by
  cases k <;> cases h <;> rfl

theorem word_eq_word_iff {k l : Keyword} {i j : Item} (hi : markOf? k = some i)
    (hj : markOf? l = some j) : k.word = l.word ↔ i = j := by
  refine ⟨fun h => ?_, fun h => ?_⟩
  · cases word_injective h
    exact Option.some.inj (hi.symm.trans hj)
  · subst h
    exact (text_of_markOf? hi).symm.trans (text_of_markOf? hj)

theorem markOf?_ne_clause {k : Keyword} {p : Proposition} {subject : String} :
    markOf? k ≠ some (.clause p subject) := by
  cases k <;> simp [markOf?]

/-- There is one way to write a keyword. -/
theorem isItem_mark_iff {u : List String} {k : Keyword} {item : Item} (hk : markOf? k = some item) :
    IsItem inputs u item ↔ u = [k.word] := by
  refine ⟨fun h => ?_, fun h => ?_⟩
  · cases h with
    | clause hc => exact absurd hk markOf?_ne_clause
    | mark hk' => rw [(word_eq_word_iff hk' hk).mpr rfl]
  · subst h
    exact .mark hk

theorem spells_link_iff {ws : List String} {link : Link} {items : List Item} :
    Spells inputs ws (.link link :: items)
      ↔ ∃ v, ws = link.word :: v ∧ Spells inputs v items := by
  refine ⟨fun h => ?_, fun h => ?_⟩
  · obtain ⟨u, v, rfl, hu, hv⟩ := spells_cons_iff.mp h
    rw [(isItem_mark_iff (k := .link link) rfl).mp hu]
    exact ⟨v, rfl, hv⟩
  · obtain ⟨v, rfl, hv⟩ := h
    exact .cons (.mark (k := .link link) rfl) hv

theorem spells_grouped_iff {ws : List String} {items : List Item} :
    Spells inputs ws (.opening :: (items ++ [.closing]))
      ↔ ∃ u, ws = "(" :: (u ++ [")"]) ∧ Spells inputs u items := by
  refine ⟨fun h => ?_, fun h => ?_⟩
  · obtain ⟨o, v, rfl, ho, hv⟩ := spells_cons_iff.mp h
    obtain ⟨u, c, rfl, hu, hc⟩ := spells_append_iff.mp hv
    obtain ⟨c, e, rfl, hc, he⟩ := spells_cons_iff.mp hc
    rw [(isItem_mark_iff (k := .opening) rfl).mp ho, (isItem_mark_iff (k := .closing) rfl).mp hc,
      spells_nil_iff.mp he]
    exact ⟨u, rfl, hu⟩
  · obtain ⟨u, rfl, hu⟩ := h
    have hclosing : IsItem inputs [")"] .closing := .mark (k := .closing) rfl
    exact .cons (.mark (k := .opening) rfl) (hu.append hclosing.spells)

/-! ## The grammar of items is the grammar of their words -/

theorem isClause_of_items {items : List Item} {p : Proposition} {ws : List String}
    (h : Script.items.clause items p) (hs : Spells inputs ws items) : IsClause inputs ws p := by
  obtain ⟨subject, rfl⟩ := h
  obtain ⟨u, v, rfl, hi, hv⟩ := spells_cons_iff.mp hs
  rw [spells_nil_iff.mp hv, List.append_nil]
  cases hi with
  | clause hc => exact hc
  | mark hk => exact absurd hk markOf?_ne_clause

mutual

theorem IsExpression.of_items {items : List Item} {c : Condition} :
    IsExpression .items items c → ∀ {ws : List String}, Spells inputs ws items →
      IsExpression (.words inputs) ws c
  | .clause hc, _, hs => .clause (isClause_of_items hc hs)
  | .grouped h, _, hs => by
      obtain ⟨u, rfl, hu⟩ := spells_grouped_iff.mp hs
      exact .grouped (h.of_items hu)
  | .chain h ht, _, hs => by
      obtain ⟨u, v, rfl, hu, hv⟩ := spells_append_iff.mp hs
      exact .chain (h.of_items hu) (ht.of_items hv)

theorem IsOperand.of_items {items : List Item} {c : Condition} :
    IsOperand .items items c → ∀ {ws : List String}, Spells inputs ws items →
      IsOperand (.words inputs) ws c
  | .clause hc, _, hs => .clause (isClause_of_items hc hs)
  | .grouped h, _, hs => by
      obtain ⟨u, rfl, hu⟩ := spells_grouped_iff.mp hs
      exact .grouped (h.of_items hu)

theorem IsTail.of_items {link : Link} {items : List Item} {cs : List Condition} :
    IsTail .items link items cs → ∀ {ws : List String}, Spells inputs ws items →
      IsTail (.words inputs) link ws cs
  | .last h, _, hs => by
      obtain ⟨u, rfl, hu⟩ := spells_link_iff.mp hs
      exact .last (h.of_items hu)
  | .more h ht, _, hs => by
      obtain ⟨w, rfl, hw⟩ := spells_link_iff.mp hs
      obtain ⟨u, v, rfl, hu, hv⟩ := spells_append_iff.mp hw
      exact .more (h.of_items hu) (ht.of_items hv)

end

theorem exists_items_of_isClause {ws : List String} {p : Proposition} (h : IsClause inputs ws p) :
    ∃ items, Spells inputs ws items ∧ Script.items.clause items p := by
  have hc := h
  cases h with
  | intro negated hedge hv hterm => exact ⟨_, (IsItem.clause hc).spells, _, rfl⟩

mutual

theorem IsExpression.exists_items {ws : List String} {c : Condition} :
    IsExpression (.words inputs) ws c →
      ∃ items, Spells inputs ws items ∧ IsExpression .items items c
  | .clause hc => by
      obtain ⟨items, hs, hi⟩ := exists_items_of_isClause hc
      exact ⟨items, hs, .clause hi⟩
  | .grouped h => by
      obtain ⟨items, hs, hi⟩ := h.exists_items
      exact ⟨_, spells_grouped_iff.mpr ⟨_, rfl, hs⟩, .grouped hi⟩
  | .chain h ht => by
      obtain ⟨is, hs, hi⟩ := h.exists_items
      obtain ⟨js, hs', hj⟩ := ht.exists_items
      exact ⟨is ++ js, hs.append hs', .chain hi hj⟩

theorem IsOperand.exists_items {ws : List String} {c : Condition} :
    IsOperand (.words inputs) ws c →
      ∃ items, Spells inputs ws items ∧ IsOperand .items items c
  | .clause hc => by
      obtain ⟨items, hs, hi⟩ := exists_items_of_isClause hc
      exact ⟨items, hs, .clause hi⟩
  | .grouped h => by
      obtain ⟨items, hs, hi⟩ := h.exists_items
      exact ⟨_, spells_grouped_iff.mpr ⟨_, rfl, hs⟩, .grouped hi⟩

theorem IsTail.exists_items {link : Link} {ws : List String} {cs : List Condition} :
    IsTail (.words inputs) link ws cs →
      ∃ items, Spells inputs ws items ∧ IsTail .items link items cs
  | .last h => by
      obtain ⟨items, hs, hi⟩ := h.exists_items
      exact ⟨_, spells_link_iff.mpr ⟨_, rfl, hs⟩, .last hi⟩
  | .more h ht => by
      obtain ⟨is, hs, hi⟩ := h.exists_items
      obtain ⟨js, hs', hj⟩ := ht.exists_items
      exact ⟨_, spells_link_iff.mpr ⟨_, rfl, hs.append hs'⟩, .more hi hj⟩

end

/-- **Words are a condition exactly if they spell items that are.** -/
theorem isExpression_words_iff {ws : List String} {c : Condition} :
    IsExpression (.words inputs) ws c
      ↔ ∃ items, Spells inputs ws items ∧ IsExpression .items items c :=
  ⟨fun h => h.exists_items, fun ⟨_, hs, hi⟩ => hi.of_items hs⟩

end Spelling

/-! ## Keywords among the words -/

section Reading

variable {inputs : List (Vocabulary VariableKey TermKey)} {outputs : List (Vocabulary ω ν)}
  {lexicon : Lexicon ω ν}

/-- The name of an entry is no keyword. -/
theorem ne_word_of_mem_entries (h : Lexicon.ofVocabularies inputs outputs = .ok lexicon)
    {e : String × Entry ω ν} (he : e ∈ entries inputs outputs) (k : Keyword) : e.1 ≠ k.word := by
  intro hk
  have hnone := Lexicon.keywords_eq_none_of_mem h he
  rw [hk, keywords_word] at hnone
  exact absurd hnone (by simp)

theorem input_ne_word (h : Lexicon.ofVocabularies inputs outputs = .ok lexicon)
    {v : Vocabulary VariableKey TermKey} (hv : v ∈ inputs) (k : Keyword) : v.name ≠ k.word :=
  ne_word_of_mem_entries h (e := (v.name, .input v.key))
    (List.mem_append_left _ (List.mem_flatMap.mpr ⟨v, hv, List.mem_cons_self⟩)) k

theorem output_ne_word (h : Lexicon.ofVocabularies inputs outputs = .ok lexicon)
    {v : Vocabulary ω ν} (hv : v ∈ outputs) (k : Keyword) : v.name ≠ k.word :=
  ne_word_of_mem_entries h (e := (v.name, .output v.key))
    (List.mem_append_right _ (List.mem_flatMap.mpr ⟨v, hv, List.mem_cons_self⟩)) k

theorem term_ne_word (h : Lexicon.ofVocabularies inputs outputs = .ok lexicon)
    {v : Vocabulary VariableKey TermKey} (hv : v ∈ inputs) {name : String} {x : TermKey}
    (hx : v.values.lookup name = some x) (k : Keyword) : name ≠ k.word :=
  ne_word_of_mem_entries h (e := (name, .value (.input v.key x)))
    (List.mem_append_left _ (List.mem_flatMap.mpr ⟨v, hv, mem_entries_of_lookup hx⟩)) k

theorem value_ne_word (h : Lexicon.ofVocabularies inputs outputs = .ok lexicon)
    {v : Vocabulary ω ν} (hv : v ∈ outputs) {name : String} {x : ν}
    (hx : v.values.lookup name = some x) (k : Keyword) : name ≠ k.word :=
  ne_word_of_mem_entries h (e := (name, .value (.output v.key x)))
    (List.mem_append_right _ (List.mem_flatMap.mpr ⟨v, hv, mem_entries_of_lookup hx⟩)) k

/-- The only keywords within a clause are `is`, `not` and hedges. -/
theorem IsClause.keyword_of_mem (h : Lexicon.ofVocabularies inputs outputs = .ok lexicon)
    {ws : List String} {p : Proposition} (hc : IsClause inputs ws p) {k : Keyword}
    (hk : k.word ∈ ws) : k = .isWord ∨ k = .notWord ∨ ∃ hedge, k = .hedge hedge := by
  -- the names in a clause are no keywords, which leaves the words between them
  obtain ⟨negated, hedge, hv, hterm⟩ := hc
  rcases List.mem_cons.mp hk with hk | hk
  · exact absurd hk.symm (input_ne_word h hv k)
  rcases List.mem_cons.mp hk with hk | hk
  · exact Or.inl (word_injective hk)
  rcases List.mem_append.mp hk with hk | hk
  · cases negated with
    | false => exact absurd hk (by simp [notWords])
    | true => exact Or.inr (Or.inl (word_injective (List.mem_singleton.mp hk)))
  rcases List.mem_append.mp hk with hk | hk
  · cases hedge with
    | none => exact absurd hk (by simp [hedgeWords])
    | some hedge =>
      exact Or.inr (Or.inr ⟨hedge, word_injective (List.mem_singleton.mp hk)⟩)
  · exact absurd (List.mem_singleton.mp hk).symm (term_ne_word h hv hterm k)

/-- There are no parentheses within a clause. -/
theorem IsClause.parenthesis_not_mem (h : Lexicon.ofVocabularies inputs outputs = .ok lexicon)
    {ws : List String} {p : Proposition} (hc : IsClause inputs ws p) : "(" ∉ ws ∧ ")" ∉ ws := by
  refine ⟨fun hm => ?_, fun hm => ?_⟩
  · simpa using hc.keyword_of_mem h (k := .opening) hm
  · simpa using hc.keyword_of_mem h (k := .closing) hm

/-- A known token is a keyword exactly if it is the word for it. -/
theorem keyword?_eq_some_iff (h : Lexicon.ofVocabularies inputs outputs = .ok lexicon)
    {t : Token ω ν} (ht : lexicon.get? t.text = some t.lexeme) {k : Keyword} :
    t.keyword? = some k ↔ t.text = k.word := by
  unfold Token.keyword?
  refine ⟨fun hk => ?_, fun hk => ?_⟩
  · split at hk
    · rename_i k' hl
      cases hk
      exact Lexicon.eq_word_of_get? h (ht.trans (congrArg some hl))
    · exact absurd hk (by simp)
  · rw [hk, Lexicon.get?_word h, Option.some.injEq] at ht
    rw [← ht]

theorem isKeyword_iff (h : Lexicon.ofVocabularies inputs outputs = .ok lexicon)
    {t : Token ω ν} (ht : lexicon.get? t.text = some t.lexeme) {k : Keyword} :
    t.isKeyword k ↔ t.text = k.word := by
  rw [← keyword?_eq_some_iff h ht, Token.isKeyword, decide_eq_true_iff]

/-! ## One clause -/

theorem takeNot_sound (h : Lexicon.ofVocabularies inputs outputs = .ok lexicon)
    {ts : List (Token ω ν)} (hts : Known lexicon ts) :
    ∃ u, ts = u ++ (takeNot ts).2 ∧ u.map Token.text = notWords (takeNot ts).1 := by
  cases ts with
  | nil => exact ⟨[], rfl, rfl⟩
  | cons t rest =>
    have ht := (known_cons.mp hts).1
    rw [takeNot]
    split
    · rename_i hnot
      refine ⟨[t], rfl, ?_⟩
      rw [List.map_singleton, (isKeyword_iff h ht).mp hnot]
      rfl
    · exact ⟨[], rfl, rfl⟩

theorem takeNot_complete (h : Lexicon.ofVocabularies inputs outputs = .ok lexicon)
    {u rest : List (Token ω ν)} {t : Token ω ν} {negated : Bool}
    (hts : Known lexicon (u ++ t :: rest)) (hu : u.map Token.text = notWords negated)
    (ht : t.text ≠ "not") : takeNot (u ++ t :: rest) = (negated, t :: rest) := by
  obtain ⟨hknown, hrest⟩ := known_append.mp hts
  cases negated with
  | false =>
    rw [List.map_eq_nil_iff.mp hu, List.nil_append, takeNot, if_neg]
    intro hnot
    exact ht ((isKeyword_iff h (known_cons.mp hrest).1).mp hnot)
  | true =>
    obtain ⟨w, v, rfl, hw, hv⟩ := List.map_eq_cons_iff.mp hu
    rw [List.map_eq_nil_iff.mp hv, List.cons_append, List.nil_append, takeNot, if_pos]
    exact (isKeyword_iff h (known_cons.mp hknown).1).mpr hw

theorem takeHedge_sound (h : Lexicon.ofVocabularies inputs outputs = .ok lexicon)
    {ts : List (Token ω ν)} (hts : Known lexicon ts) :
    ∃ u, ts = u ++ (takeHedge ts).2 ∧ u.map Token.text = hedgeWords (takeHedge ts).1 := by
  cases ts with
  | nil => exact ⟨[], rfl, rfl⟩
  | cons t rest =>
    have ht := (known_cons.mp hts).1
    rw [takeHedge]
    split
    · rename_i hedge hk
      refine ⟨[t], rfl, ?_⟩
      rw [List.map_singleton, (keyword?_eq_some_iff h ht).mp hk]
      rfl
    · exact ⟨[], rfl, rfl⟩

theorem takeHedge_complete (h : Lexicon.ofVocabularies inputs outputs = .ok lexicon)
    {u rest : List (Token ω ν)} {t : Token ω ν} {hedge : Option Hedge}
    (hts : Known lexicon (u ++ t :: rest)) (hu : u.map Token.text = hedgeWords hedge)
    (ht : ∀ hedge : Hedge, t.text ≠ hedge.word) :
    takeHedge (u ++ t :: rest) = (hedge, t :: rest) := by
  obtain ⟨hknown, hrest⟩ := known_append.mp hts
  cases hedge with
  | none =>
    rw [List.map_eq_nil_iff.mp hu, List.nil_append, takeHedge]
    split
    · rename_i hedge hk
      exact absurd ((keyword?_eq_some_iff h (known_cons.mp hrest).1).mp hk) (ht hedge)
    · rfl
  | some hedge =>
    obtain ⟨w, v, rfl, hw, hv⟩ := List.map_eq_cons_iff.mp hu
    have hk : w.keyword? = some (.hedge hedge) :=
      (keyword?_eq_some_iff h (known_cons.mp hknown).1).mpr hw
    rw [List.map_eq_nil_iff.mp hv, List.cons_append, List.nil_append, takeHedge, hk]

/-- **What is read as a clause is one**, and what follows it is left. -/
theorem clause_sound (h : Lexicon.ofVocabularies inputs outputs = .ok lexicon)
    (hkeys : (inputs.map (·.key)).Nodup) {v : Vocabulary VariableKey TermKey} (hv : v ∈ inputs)
    {ts rest : List (Token ω ν)} (hts : Known lexicon ts) {p : Proposition}
    (hc : clause v.name v.key ts = .ok (p, rest)) :
    ∃ u, ts = u ++ rest ∧ IsClause inputs (v.name :: u.map Token.text) p := by
  unfold clause at hc
  split at hc
  · rename_i verb next more
    obtain ⟨hverb, hts⟩ := known_cons.mp hts
    split at hc
    · rename_i his
      obtain ⟨u, hu, hnot⟩ := takeNot_sound h hts
      have hafter := (known_append.mp (hu ▸ hts)).2
      obtain ⟨u', hu', hhedge⟩ := takeHedge_sound h hafter
      have hafter' := (known_append.mp (hu' ▸ hafter)).2
      dsimp only at hc
      split at hc
      · exact absurd hc (by simp)
      · rename_i value after hvalue
        split at hc
        · rename_i term hterm
          cases hc
          rw [hvalue] at hu' hafter'
          rw [inputTerm?_eq h hkeys (known_cons.mp hafter').1 hv] at hterm
          refine ⟨verb :: (u ++ (u' ++ [value])), ?_, ?_⟩
          · rw [hu, hu']
            simp only [List.cons_append, List.append_assoc, List.nil_append]
          · have hclause := IsClause.intro (takeNot (next :: more)).1
              (takeHedge (takeNot (next :: more)).2).1 hv hterm
            have his' : verb.text = "is" := (isKeyword_iff h hverb).mp his
            rw [List.map_cons, List.map_append, List.map_append, hnot, hhedge, his']
            exact hclause
        · exact absurd hc (by simp)
    · exact absurd hc (by simp)
  · exact absurd hc (by simp)

/-- **A clause is read**, whatever follows it. -/
theorem clause_complete (h : Lexicon.ofVocabularies inputs outputs = .ok lexicon)
    (hkeys : (inputs.map (·.key)).Nodup) {v : Vocabulary VariableKey TermKey} (hv : v ∈ inputs)
    {name : String} {term : TermKey} (hterm : v.values.lookup name = some term) {negated : Bool}
    {hedge : Option Hedge} {u rest : List (Token ω ν)} (hts : Known lexicon (u ++ rest))
    (hu : u.map Token.text = "is" :: (notWords negated ++ (hedgeWords hedge ++ [name])))
    (subject : String) :
    clause subject v.key (u ++ rest) = .ok (⟨v.key, term, negated, hedge⟩, rest) := by
  obtain ⟨verb, u, rfl, hverb, hu⟩ := List.map_eq_cons_iff.mp hu
  obtain ⟨n, u, rfl, hn, hu⟩ := List.map_eq_append_iff.mp hu
  obtain ⟨g, u, rfl, hg, hu⟩ := List.map_eq_append_iff.mp hu
  obtain ⟨value, u, rfl, hvalue, hu⟩ := List.map_eq_cons_iff.mp hu
  cases List.map_eq_nil_iff.mp hu
  simp only [List.cons_append, List.append_assoc, List.nil_append] at hts ⊢
  obtain ⟨hknown, hts⟩ := known_cons.mp hts
  have hhedges := (known_append.mp hts).2
  have hlast := (known_append.mp hhedges).2
  have hne := term_ne_word h hv hterm
  -- behind `not` comes a hedge or the name, and neither is `not`
  obtain ⟨t, more, hnext, hnot⟩ :
      ∃ t more, g ++ value :: rest = t :: more ∧ t.text ≠ "not" := by
    cases hedge with
    | none =>
      refine ⟨value, rest, by rw [List.map_eq_nil_iff.mp hg, List.nil_append], ?_⟩
      rw [hvalue]
      exact hne .notWord
    | some hedge =>
      obtain ⟨w, g', rfl, hw, -⟩ := List.map_eq_cons_iff.mp hg
      refine ⟨w, g' ++ value :: rest, rfl, ?_⟩
      rw [hw]
      cases hedge <;> decide
  have htakeNot : takeNot (n ++ (g ++ value :: rest)) = (negated, g ++ value :: rest) := by
    rw [hnext] at hts ⊢
    exact takeNot_complete h hts hn hnot
  have htakeHedge : takeHedge (g ++ value :: rest) = (hedge, value :: rest) :=
    takeHedge_complete h hhedges hg fun hedge' => hvalue ▸ hne (.hedge hedge')
  have hlookup : value.inputTerm? v.key = some term := by
    rw [inputTerm?_eq h hkeys (known_cons.mp hlast).1 hv, hvalue, hterm]
  obtain ⟨next, following, hfollowing⟩ :
      ∃ next following, n ++ (g ++ value :: rest) = next :: following := by
    rw [hnext]
    cases n <;> exact ⟨_, _, rfl⟩
  have his : verb.isKeyword .isWord := (isKeyword_iff h hknown).mpr hverb
  unfold clause
  rw [hfollowing] at htakeNot ⊢
  simp only [his, if_true, htakeNot, htakeHedge, hlookup]

/-! ## All items -/

/-- What tokens are cut into: a clause at the name of an input, a single item at a keyword that is
one, and nothing else. -/
theorem itemsOf_cons_eq_ok_iff {first : Token ω ν} {rest : List (Token ω ν)} {items : List Item} :
    itemsOf (first :: rest) = .ok items
      ↔ (∃ key p after is, first.lexeme = .input key ∧ clause first.text key rest = .ok (p, after)
          ∧ itemsOf after = .ok is ∧ .clause p first.text :: is = items)
        ∨ ∃ k item is, first.lexeme = .keyword k ∧ markOf? k = some item ∧ itemsOf rest = .ok is
          ∧ item :: is = items := by
  rw [itemsOf]
  split
  · rename_i key hl
    split
    · rename_i e he
      simp [hl, he]
    · rename_i p after hc
      simp [hl, hc, map_eq_ok_iff, and_assoc]
  · rename_i hl
    simp [hl]
  · rename_i link hl
    simp [hl, markOf?, map_eq_ok_iff]
  · rename_i hl
    simp [hl, markOf?, map_eq_ok_iff]
  · rename_i hl
    simp [hl, markOf?, map_eq_ok_iff]
  · -- no other lexeme begins an item
    rename_i hinput _ hlink hopening hclosing
    refine ⟨fun hi => absurd hi (by simp), ?_⟩
    rintro (⟨key, _, _, _, hl, -⟩ | ⟨k, item, _, hl, hk, -⟩)
    · exact absurd hl (hinput key)
    · cases k with
      | link link => exact absurd hl (hlink link)
      | opening => exact absurd hl hopening
      | closing => exact absurd hl hclosing
      | _ => cases hk

/-- What is cut into items spells them. -/
theorem spells_of_itemsOf (h : Lexicon.ofVocabularies inputs outputs = .ok lexicon)
    (hkeys : (inputs.map (·.key)).Nodup) {ts : List (Token ω ν)} (hts : Known lexicon ts)
    {items : List Item} (hi : itemsOf ts = .ok items) :
    Spells inputs (ts.map Token.text) items := by
  cases ts with
  | nil =>
    rw [itemsOf] at hi
    cases hi
    exact .nil
  | cons first rest =>
    obtain ⟨hfirst, hrest⟩ := known_cons.mp hts
    rcases itemsOf_cons_eq_ok_iff.mp hi with
      ⟨key, p, after, is, hl, hc, hafter, rfl⟩ | ⟨k, item, is, hl, hk, hafter, rfl⟩
    · obtain ⟨v, hv, hname, rfl⟩ := exists_input h (hfirst.trans (congrArg some hl))
      -- a clause takes tokens, so what is left is shorter
      have hlen := clause_length_lt hc
      rw [← hname] at hc ⊢
      obtain ⟨u, rfl, hu⟩ := clause_sound h hkeys hv hrest hc
      have hspells := spells_of_itemsOf h hkeys (known_append.mp hrest).2 hafter
      rw [List.map_cons, List.map_append, ← hname]
      exact .cons (.clause hu) hspells
    · have htext := Lexicon.eq_word_of_get? h (hfirst.trans (congrArg some hl))
      rw [List.map_cons, htext]
      exact .cons (.mark hk) (spells_of_itemsOf h hkeys hrest hafter)
termination_by ts.length

/-- What spells items is cut into them. -/
theorem itemsOf_of_spells (h : Lexicon.ofVocabularies inputs outputs = .ok lexicon)
    (hkeys : (inputs.map (·.key)).Nodup) {ts : List (Token ω ν)} (hts : Known lexicon ts)
    {ws : List String} {items : List Item} (hs : Spells inputs ws items)
    (hws : ts.map Token.text = ws) : itemsOf ts = .ok items := by
  induction hs generalizing ts with
  | nil =>
    rw [List.map_eq_nil_iff.mp hws, itemsOf]
  | cons hi _ ih =>
    obtain ⟨u, rest, rfl, hu, hrest⟩ := List.map_eq_append_iff.mp hws
    have hafter := ih (known_append.mp hts).2 hrest
    cases hi with
    | clause hc =>
      obtain ⟨first, us, rfl, hfirst, hus⟩ := List.map_eq_cons_iff.mp hu
      have hknown := (known_cons.mp hts).1
      cases hc with
      | intro negated hedge hv hterm =>
        rw [hfirst, get?_input h hv, Option.some.injEq] at hknown
        have hclause := clause_complete h hkeys hv hterm (known_cons.mp hts).2 hus first.text
        refine itemsOf_cons_eq_ok_iff.mpr (Or.inl ⟨_, _, rest, _, hknown.symm, hclause, hafter, ?_⟩)
        rw [hfirst]
    | mark hk =>
      obtain ⟨first, us, rfl, hfirst, hus⟩ := List.map_eq_cons_iff.mp hu
      have hknown := (known_cons.mp hts).1
      cases List.map_eq_nil_iff.mp hus
      rw [hfirst, Lexicon.get?_word h, Option.some.injEq] at hknown
      exact itemsOf_cons_eq_ok_iff.mpr (Or.inr ⟨_, _, _, hknown.symm, hk, hafter, rfl⟩)

/-- **Known words are cut into the items they spell, and if they spell none they are refused.** -/
theorem itemsOf_eq_ok_iff (h : Lexicon.ofVocabularies inputs outputs = .ok lexicon)
    (hkeys : (inputs.map (·.key)).Nodup) {ts : List (Token ω ν)} (hts : Known lexicon ts)
    {items : List Item} : itemsOf ts = .ok items ↔ Spells inputs (ts.map Token.text) items :=
  ⟨spells_of_itemsOf h hkeys hts, fun hs => itemsOf_of_spells h hkeys hts hs rfl⟩

/-! ## Nesting -/

theorem covered_of_not_mem {x y : String} {a b : Nat} {ws : List String} (hx : x ∉ ws)
    (hy : y ∉ ws) : Covered x y a b ws ↔ a ≤ b := by
  refine ⟨fun h => ?_, fun h p hp => ?_⟩
  · simpa using h [] List.nil_prefix
  · rw [List.count_eq_zero.mpr fun hm => hx (hp.subset hm),
      List.count_eq_zero.mpr fun hm => hy (hp.subset hm)]
    exact h

theorem covered_spells_iff (h : Lexicon.ofVocabularies inputs outputs = .ok lexicon)
    {ws : List String} {items : List Item} (hs : Spells inputs ws items) {a b : Nat} :
    Covered "(" ")" a b ws ↔ Covered .opening .closing a b items := by
  induction hs generalizing a b with
  | nil => rw [covered_nil, covered_nil]
  | @cons u ws item items hi _ ih =>
    cases hi with
    | @clause subject us p hc =>
      -- a clause does not count, and neither does its item
      obtain ⟨hopening, hclosing⟩ := hc.parenthesis_not_mem h
      rw [covered_append, covered_of_not_mem hopening hclosing, List.count_eq_zero.mpr hopening,
        List.count_eq_zero.mpr hclosing, ih, covered_cons]
      rfl
    | @mark k item hk =>
      have hopening : k.word = "(" ↔ item = .opening := word_eq_word_iff (l := .opening) hk rfl
      have hclosing : k.word = ")" ↔ item = .closing := word_eq_word_iff (l := .closing) hk rfl
      rw [List.singleton_append, covered_cons, covered_cons, ih]
      simp only [hopening, hclosing]

/-- Words nest as deeply as the items they spell. -/
theorem nestsWithin_spells_iff (h : Lexicon.ofVocabularies inputs outputs = .ok lexicon)
    {ws : List String} {items : List Item} (hs : Spells inputs ws items) {n : Nat} :
    NestsWithin "(" ")" n ws ↔ NestsWithin .opening .closing n items := by
  rw [nestsWithin_iff_covered, nestsWithin_iff_covered, covered_spells_iff h hs]

/-- There is no `then` in what spells items. -/
theorem then_not_mem_of_spells (h : Lexicon.ofVocabularies inputs outputs = .ok lexicon)
    {ws : List String} {items : List Item} (hs : Spells inputs ws items) : "then" ∉ ws := by
  induction hs with
  | nil => exact List.not_mem_nil
  | cons hi _ ih =>
    intro hm
    rcases List.mem_append.mp hm with hm | hm
    · cases hi with
      | clause hc => simpa using hc.keyword_of_mem h (k := .thenWord) hm
      | mark hk =>
        cases word_injective (k := .thenWord) (List.mem_singleton.mp hm)
        exact absurd hk (by simp [markOf?])
    · exact ih hm

end Reading

end FuzzyInference.RuleText
