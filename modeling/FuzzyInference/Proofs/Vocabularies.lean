import FuzzyInference.Proofs.Registry
import FuzzyInference.Proofs.RuleText.Names
import FuzzyInference.Proofs.RuleText.Widening
import FuzzyInference.Proofs.RuleText.Writing

/-!
# Rules in the names of registries

A rule refers to entries of registries by key, and its text refers to them by
name. `Named` says what is required of the vocabularies that a system makes of
its registries for the two to correspond. Then a rule about entries that own
what they should is read back from its text (`read_rule`), and whatever is read
is about such entries (`owns_of_read`).

Names of variables and names of what they own must differ: the grammar tells
them apart by their place, the lexicon cannot.
-/

namespace FuzzyInference

open RuleText

namespace Registry

variable {table table' : Table} {β γ : Type} {label : β → String} {label' : γ → String}
  {r : Registry table β} {q : Registry table' γ}

/-- What an entry is called: by its label, or by its key if there is no such entry. -/
def nameOf (label : β → String) (r : Registry table β) (key : Key table) : String :=
  match r.get? key with
  | some b => label b
  | none => key.description

theorem nameOf_eq {key : Key table} {b : β} (h : r.get? key = some b) :
    r.nameOf label key = label b := by
  unfold nameOf
  rw [h]

/-- No label of the one registry is a label of the other. -/
def Apart (label : β → String) (label' : γ → String) (r : Registry table β)
    (q : Registry table' γ) : Prop :=
  ∀ b ∈ r.entries, ∀ c ∈ q.entries, label b ≠ label' c

instance : Decidable (Apart label label' r q) :=
  inferInstanceAs (Decidable (∀ b ∈ r.entries, ∀ c ∈ q.entries, label b ≠ label' c))

theorem Apart.ne (h : Apart label label' r q) {k : Key table} {l : Key table'} {b : β} {c : γ}
    (hb : r.get? k = some b) (hc : q.get? l = some c) : label b ≠ label' c :=
  h b (mem_entries_of_get? hb) c (mem_entries_of_get? hc)

end Registry

namespace Ownership

variable {owners items : Table} {β γ : Type} {o : Ownership owners items β γ} {label : β → String}
  {r : Registry owners β} {r' : Registry items γ}
  {vs : List (Vocabulary (Key owners) (Key items))}

/-- Vocabularies of some owners, which list their own items and have names of their own. -/
structure Named (o : Ownership owners items β γ) (label : β → String) (r : Registry owners β)
    (r' : Registry items γ) (vs : List (Vocabulary (Key owners) (Key items))) : Prop where
  holds : o.Holds r r'
  /-- A rule can mention an owner. -/
  valid : ∀ k b, r.get? k = some b → Name.isValid (label b)
  /-- Owners have different names. -/
  distinct : r.Distinct label
  /-- There is one vocabulary for an owner at most. -/
  nodup : (vs.map (·.key)).Nodup
  /-- A vocabulary says what its owner and the items are called. -/
  entry : ∀ v ∈ vs, ∃ b, r.get? v.key = some b ∧ v.name = label b
    ∧ v.values = (o.listed r r' v.key).map fun e => (o.name e.2, e.1)

/-- An item exists and belongs to the owner. -/
def Owns (o : Ownership owners items β γ) (r' : Registry items γ) (k : Key owners)
    (i : Key items) : Prop :=
  ∃ c, r'.get? i = some c ∧ o.owner c = k

/-- **A name finds the item of that name in a vocabulary.** -/
theorem Named.lookup_iff (h : o.Named label r r' vs) {v : Vocabulary (Key owners) (Key items)}
    (hv : v ∈ vs) {name : String} {i : Key items} :
    v.values.lookup name = some i
      ↔ ∃ c, r'.get? i = some c ∧ o.owner c = v.key ∧ o.name c = name := by
  obtain ⟨_, -, -, hvalues⟩ := h.entry v hv
  rw [hvalues]
  exact h.holds.lookup_listed_iff

/-- What a vocabulary lists is the name of an item. -/
theorem Named.exists_item (h : o.Named label r r' vs) {v : Vocabulary (Key owners) (Key items)}
    (hv : v ∈ vs) {x : String × Key items} (hx : x ∈ v.values) :
    ∃ c, r'.get? x.2 = some c ∧ x.1 = o.name c := by
  obtain ⟨_, -, -, hvalues⟩ := h.entry v hv
  rw [hvalues] at hx
  obtain ⟨⟨i, c⟩, hmem, rfl⟩ := List.mem_map.mp hx
  exact ⟨c, (h.holds.mem_listed_iff.mp hmem).1, rfl⟩

/-- The name of a vocabulary is that of an owner. -/
theorem Named.exists_owner (h : o.Named label r r' vs) {name : String}
    (hname : name ∈ vs.map (·.name)) : ∃ k b, r.get? k = some b ∧ name = label b := by
  obtain ⟨v, hv, rfl⟩ := List.mem_map.mp hname
  obtain ⟨b, hb, heq, -⟩ := h.entry v hv
  exact ⟨v.key, b, hb, heq⟩

/-- Vocabularies have different names. -/
theorem Named.names_nodup (h : o.Named label r r' vs) : (vs.map (·.name)).Nodup := by
  have hkeys := h.nodup
  unfold List.Nodup at hkeys ⊢
  rw [List.pairwise_map] at hkeys ⊢
  refine hkeys.imp_of_mem fun {v w} hv hw hne heq => ?_
  -- vocabularies of one name are of one owner
  obtain ⟨b, hb, hvname, -⟩ := h.entry v hv
  obtain ⟨c, hc, hwname, -⟩ := h.entry w hw
  exact hne (h.distinct v.key w.key b c hb hc (hvname.symm.trans (heq.trans hwname)))

/-- All names in vocabularies are valid. -/
theorem Named.valid_of_mem_entries (h : o.Named label r r' vs) {ω ν : Type}
    {subject : Key owners → Entry ω ν} {candidate : Key owners → Key items → Candidate ω ν}
    {e : String × Entry ω ν} (he : e ∈ vs.flatMap (Vocabulary.entries subject candidate)) :
    Name.isValid e.1 := by
  obtain ⟨v, hv, he⟩ := List.mem_flatMap.mp he
  rcases List.mem_cons.mp he with rfl | he
  · obtain ⟨b, hb, hname, -⟩ := h.entry v hv
    rw [hname]
    exact h.valid v.key b hb
  · obtain ⟨x, hx, rfl⟩ := List.mem_map.mp he
    obtain ⟨c, hc, hname⟩ := h.exists_item hv hx
    rw [hname]
    exact h.holds.valid x.2 c hc

/-- **Owner and item are called what the vocabularies call them**, each by a single word. -/
theorem Named.exists_of_owns (h : o.Named label r r' vs) {k : Key owners} {i : Key items}
    (hk : k ∈ vs.map (·.key)) (hi : o.Owns r' k i) :
    (∃ v ∈ vs, v.key = k ∧ v.name = r.nameOf label k
        ∧ v.values.lookup (r'.nameOf o.name i) = some i)
      ∧ words (r.nameOf label k) = [r.nameOf label k]
      ∧ words (r'.nameOf o.name i) = [r'.nameOf o.name i] := by
  obtain ⟨v, hv, rfl⟩ := List.mem_map.mp hk
  obtain ⟨b, hb, hname, -⟩ := h.entry v hv
  obtain ⟨c, hc, howner⟩ := hi
  rw [Registry.nameOf_eq hb, Registry.nameOf_eq hc]
  exact ⟨⟨v, hv, rfl, hname, (h.lookup_iff hv).mpr ⟨c, hc, howner, rfl⟩⟩,
    words_name (h.valid v.key b hb), words_name (h.holds.valid i c hc)⟩

theorem Named.owns_of_lookup (h : o.Named label r r' vs) {v : Vocabulary (Key owners) (Key items)}
    (hv : v ∈ vs) {name : String} {i : Key items} (hi : v.values.lookup name = some i) :
    o.Owns r' v.key i := by
  obtain ⟨c, hc, howner, -⟩ := (h.lookup_iff hv).mp hi
  exact ⟨c, hc, howner⟩

/-- **Vocabularies grow with what they are about**: with the owners that they list, as long as these
keep their names, and with the items. -/
theorem Named.widens (h : o.Named label r r' vs) {q : Registry owners β} {q' : Registry items γ}
    {ws : List (Vocabulary (Key owners) (Key items))} (h' : o.Named label q q' ws)
    (hkeys : vs.map (·.key) ⊆ ws.map (·.key))
    (howners : ∀ k b, r.get? k = some b → ∃ b', q.get? k = some b' ∧ label b' = label b)
    (hitems : ∀ i c, r'.get? i = some c → q'.get? i = some c) : Widens vs ws := by
  intro v hv
  obtain ⟨w, hw, hkey⟩ := List.mem_map.mp (hkeys (List.mem_map_of_mem hv))
  obtain ⟨b, hb, hname, -⟩ := h.entry v hv
  obtain ⟨b', hb', hname', -⟩ := h'.entry w hw
  obtain ⟨b'', hb'', hlabel⟩ := howners v.key b hb
  rw [hkey, hb''] at hb'
  cases hb'
  refine ⟨w, hw, hname'.trans (hlabel.trans hname.symm), hkey, fun name i hi => ?_⟩
  obtain ⟨c, hc, howner, hitem⟩ := (h.lookup_iff hv).mp hi
  exact (h'.lookup_iff hw).mpr ⟨c, hitems i c hc, howner.trans hkey.symm, hitem⟩

end Ownership

/-! ## Rules about what is owned -/

section Rules

variable {owners items : Table} {β γ β' γ' : Type}
  {o : Ownership .variables .terms β γ} {label : β → String}
  {r : Registry .variables β} {r' : Registry .terms γ}
  {o' : Ownership owners items β' γ'} {label' : β' → String}
  {q : Registry owners β'} {q' : Registry items γ'}
  {inputs : List (Vocabulary VariableKey TermKey)}
  {outputs : List (Vocabulary (Key owners) (Key items))}
  {n : Naming (Key owners) (Key items)}

/-- What is called like neither an input nor an output is not among their names. -/
theorem not_mem_variableNames (h : o.Named label r r' inputs) (h' : o'.Named label' q q' outputs)
    {table : Table} {δ : Type} {p : Registry table δ} {name : δ → String}
    (hr : p.Apart name label r) (hq : p.Apart name label' q) {key : Key table} {d : δ}
    (hd : p.get? key = some d) : name d ∉ variableNames inputs outputs := by
  intro hmem
  rcases List.mem_append.mp hmem with hmem | hmem
  · obtain ⟨k, b, hb, heq⟩ := h.exists_owner hmem
    exact hr.ne hd hb heq
  · obtain ⟨k, b, hb, heq⟩ := h'.exists_owner hmem
    exact hq.ne hd hb heq

/-- Vocabularies are well named if inputs and outputs have different names and nothing that they own
is called like one of them. -/
theorem wellNamed (h : o.Named label r r' inputs) (h' : o'.Named label' q q' outputs)
    (hdisjoint : ∀ v ∈ inputs, ∀ w ∈ outputs, v.name ≠ w.name)
    (hterms : r'.Apart o.name label r ∧ r'.Apart o.name label' q)
    (hvalues : q'.Apart o'.name label r ∧ q'.Apart o'.name label' q) :
    WellNamed inputs outputs where
  valid := by
    intro e he
    rcases List.mem_append.mp he with he | he
    · exact h.valid_of_mem_entries he
    · exact h'.valid_of_mem_entries he
  distinct := by
    unfold variableNames
    rw [List.nodup_append]
    refine ⟨h.names_nodup, h'.names_nodup, fun a ha b hb => ?_⟩
    obtain ⟨v, hv, rfl⟩ := List.mem_map.mp ha
    obtain ⟨w, hw, rfl⟩ := List.mem_map.mp hb
    exact hdisjoint v hv w hw
  terms := by
    intro v hv x hx
    obtain ⟨c, hc, hname⟩ := h.exists_item hv hx
    rw [hname]
    exact not_mem_variableNames h h' hterms.1 hterms.2 hc
  values := by
    intro v hv x hx
    obtain ⟨c, hc, hname⟩ := h'.exists_item hv hx
    rw [hname]
    exact not_mem_variableNames h h' hvalues.1 hvalues.2 hc

/-- Propositions about terms of inputs are written as clauses. -/
theorem spelled_of_owns (h : o.Named label r r' inputs) (hinput : n.input = r.nameOf label)
    (hterm : n.term = r'.nameOf o.name) {ps : List Proposition}
    (hps : ∀ p ∈ ps, p.subject ∈ inputs.map (·.key) ∧ o.Owns r' p.subject p.term) :
    Spelled n inputs ps := by
  intro p hp
  obtain ⟨hsubject, howns⟩ := hps p hp
  obtain ⟨⟨v, hv, hkey, hname, hlookup⟩, hword, hword'⟩ := h.exists_of_owns hsubject howns
  rw [← hinput] at hname hword
  rw [← hterm] at hlookup hword'
  exact isClause_proposition hv hkey hname hlookup hword hword'

/-- A clause is about a term of an input. -/
theorem owns_of_isClause (h : o.Named label r r' inputs) {ws : List String} {p : Proposition}
    (hp : IsClause inputs ws p) : p.subject ∈ inputs.map (·.key) ∧ o.Owns r' p.subject p.term := by
  obtain ⟨negated, hedge, hv, hterm⟩ := hp
  exact ⟨List.mem_map_of_mem hv, h.owns_of_lookup hv hterm⟩

/-- A conclusion about a value of an output is written as one. -/
theorem isConclusion_of_owns (h : o'.Named label' q q' outputs)
    (houtput : n.output = q.nameOf label') (hvalue : n.value = q'.nameOf o'.name)
    {c : Conclusion (Key owners) (Key items)}
    (hc : c.subject ∈ outputs.map (·.key) ∧ o'.Owns q' c.subject c.value) :
    IsConclusion outputs (words (n.output c.subject) ++ "is" :: words (n.value c.value)) c := by
  obtain ⟨⟨v, hv, hkey, hname, hlookup⟩, hword, hword'⟩ := h.exists_of_owns hc.1 hc.2
  rw [houtput, hvalue, hword, hword', ← hname]
  have hplain := IsConclusion.plain hv hlookup
  rw [hkey] at hplain
  exact hplain

/-- What is concluded is a value of an output. -/
theorem owns_of_isConclusion (h : o'.Named label' q q' outputs) {ws : List String}
    {c : Conclusion (Key owners) (Key items)} (hc : IsConclusion outputs ws c) :
    c.subject ∈ outputs.map (·.key) ∧ o'.Owns q' c.subject c.value := by
  induction hc with
  | plain hv hvalue => exact ⟨List.mem_map_of_mem hv, h.owns_of_lookup hv hvalue⟩
  | grouped _ ih => exact ih

/-- **A rule about what is owned is read back from its text**, if it can be written at all. -/
theorem read_rule (h : o.Named label r r' inputs) (h' : o'.Named label' q q' outputs)
    (hinput : n.input = r.nameOf label) (hterm : n.term = r'.nameOf o.name)
    (houtput : n.output = q.nameOf label') (hvalue : n.value = q'.nameOf o'.name)
    (hnames : WellNamed inputs outputs) {rule : Rule (Key owners) (Key items)}
    (hcondition : ∀ p ∈ rule.condition.propositions,
      p.subject ∈ inputs.map (·.key) ∧ o.Owns r' p.subject p.term)
    (hconclusion : rule.conclusion.subject ∈ outputs.map (·.key)
      ∧ o'.Owns q' rule.conclusion.subject rule.conclusion.value)
    (hw : Writable rule.condition) : read inputs outputs (n.rule rule) = .ok rule := by
  obtain ⟨lexicon, hl⟩ := exists_lexicon hnames
  refine read_of_isSentence hl h.nodup h'.nodup (isSentence_rule hl ?_ hw ?_)
  · exact spelled_of_owns h hinput hterm hcondition
  · exact isConclusion_of_owns h' houtput hvalue hconclusion

/-- **A rule that is read is about what is owned.** -/
theorem owns_of_read (h : o.Named label r r' inputs) (h' : o'.Named label' q q' outputs)
    {text : String} {rule : Rule (Key owners) (Key items)}
    (hr : read inputs outputs text = .ok rule) :
    (∀ p ∈ rule.condition.propositions,
        p.subject ∈ inputs.map (·.key) ∧ o.Owns r' p.subject p.term)
      ∧ rule.conclusion.subject ∈ outputs.map (·.key)
        ∧ o'.Owns q' rule.conclusion.subject rule.conclusion.value := by
  obtain ⟨lexicon, hl⟩ := exists_lexicon_of_read hr
  obtain ⟨condition, conclusion, -, hc, -, hd⟩ := isSentence_of_read hl h.nodup h'.nodup hr
  refine ⟨fun p hp => ?_, owns_of_isConclusion h' hd⟩
  obtain ⟨us, hus⟩ := hc.exists_clause p hp
  exact owns_of_isClause h hus

end Rules

end FuzzyInference
