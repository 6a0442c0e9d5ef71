import FuzzyInference.Name
import FuzzyInference.Registry
import Mathlib.Data.List.Basic

/-!
# Registries that refer to each other

Some entries list entries of another registry, and those know the entry that
lists them: variables and their terms, outputs and their functions. `Ownership`
names the three things that such a pair of registries consists of, and `Holds`
says that both sides tell the same story.

The story is told in two places, so adding an item has to change both, and the
interest of `Holds.pushItem` is that changing both is enough. It needs no more
than that the name is new among the items of that one owner.
-/

namespace FuzzyInference

theorem nodup_snoc {γ : Type} {l : List γ} {a : γ} (hl : l.Nodup) (ha : a ∉ l) :
    (l ++ [a]).Nodup := by
  rw [List.nodup_append]
  refine ⟨hl, by simp, fun b hb c hc heq => ?_⟩
  rw [List.mem_singleton.mp hc] at heq
  exact ha (heq ▸ hb)

/-- Where one member at most passes a test, it is the one that is found. -/
theorem find?_eq_some_iff_of_unique {γ : Type} {l : List γ} {p : γ → Bool}
    (hunique : ∀ a ∈ l, ∀ b ∈ l, p a → p b → a = b) {a : γ} :
    l.find? p = some a ↔ a ∈ l ∧ p a := by
  refine ⟨fun h => ⟨List.mem_of_find?_eq_some h, List.find?_some h⟩, fun h => ?_⟩
  obtain ⟨ha, hp⟩ := h
  cases hfound : l.find? p with
  | none => exact absurd hp (List.find?_eq_none.mp hfound a ha)
  | some b =>
    have hb := List.mem_of_find?_eq_some hfound
    rw [hunique b hb a ha (List.find?_some hfound) hp]

namespace Registry

variable {table : Table} {β : Type} {r : Registry table β}

/-- A new registry is without entries. -/
theorem get?_empty_ne (key : Key table) (b : β) : ({} : Registry table β).get? key ≠ some b := by
  obtain ⟨n⟩ := key
  cases n <;> simp [get?]

theorem mem_entries_of_get? {key : Key table} {b : β} (h : r.get? key = some b) :
    b ∈ r.entries := by
  obtain ⟨n⟩ := key
  cases n with
  | zero => exact absurd h (by simp [get?])
  | succ n => exact List.mem_of_getElem? h

theorem mem_toList_iff {key : Key table} {b : β} : (key, b) ∈ r.toList ↔ r.get? key = some b := by
  obtain ⟨n⟩ := key
  unfold toList
  rw [List.mem_map]
  cases n with
  | zero =>
    refine ⟨fun h => ?_, fun h => absurd h (by simp [get?])⟩
    obtain ⟨⟨c, i⟩, -, hc⟩ := h
    exact absurd hc (by simp)
  | succ n =>
    rw [get?_mk_succ]
    refine ⟨fun h => ?_, fun h => ?_⟩
    · obtain ⟨⟨c, i⟩, hmem, hc⟩ := h
      rw [List.mem_zipIdx_iff_getElem?] at hmem
      cases hc
      exact hmem
    · exact ⟨(b, n), List.mem_zipIdx_iff_getElem?.mpr h, rfl⟩

theorem mem_keys_iff {key : Key table} : key ∈ r.keys ↔ ∃ b, r.get? key = some b := by
  unfold keys
  rw [List.mem_map]
  refine ⟨fun h => ?_, fun h => ?_⟩
  · obtain ⟨⟨k, b⟩, hmem, rfl⟩ := h
    exact ⟨b, mem_toList_iff.mp hmem⟩
  · obtain ⟨b, hb⟩ := h
    exact ⟨(key, b), mem_toList_iff.mpr hb, rfl⟩

/-- Nothing is found exactly if no entry passes the test. -/
theorem findKey?_eq_none_iff {p : β → Bool} :
    r.findKey? p = none ↔ ∀ key b, r.get? key = some b → p b = false := by
  unfold findKey?
  rw [Option.map_eq_none_iff, List.find?_eq_none]
  refine ⟨fun h key b hb => ?_, fun h e he => ?_⟩
  · have := h (key, b) (mem_toList_iff.mpr hb)
    rwa [Bool.not_eq_true] at this
  · rw [Bool.not_eq_true]
    exact h e.1 e.2 (mem_toList_iff.mp he)

/-- Every entry is listed once. -/
theorem nodup_keys (r : Registry table β) : r.keys.Nodup := by
  have hkeys : r.keys = (List.range r.entries.length).map fun n => (⟨n + 1⟩ : Key table) := by
    unfold keys toList
    rw [List.map_map, List.range_eq_range', ← List.zipIdx_map_snd 0 r.entries, List.map_map]
    rfl
  rw [hkeys]
  refine List.Pairwise.map _ (fun a b hab heq => hab ?_) List.nodup_range
  cases heq
  rfl

theorem get?_push_self (r : Registry table β) (b : β) : (r.push b).get? r.nextKey = some b := by
  rw [get?_push, if_pos rfl]

/-- An entry after a push is the new one or was there before. -/
theorem get?_push_cases {b c : β} {key : Key table} (h : (r.push b).get? key = some c) :
    key = r.nextKey ∧ c = b ∨ key ≠ r.nextKey ∧ r.get? key = some c := by
  rw [get?_push] at h
  split at h
  · rename_i hkey
    exact Or.inl ⟨hkey, (Option.some.inj h).symm⟩
  · rename_i hkey
    exact Or.inr ⟨hkey, h⟩

/-- An entry after a change is the changed one or was there before. -/
theorem get?_modify_cases {key other : Key table} {f : β → β} {c : β}
    (h : (r.modify key f).get? other = some c) :
    ∃ b, r.get? other = some b ∧ (other = key ∧ c = f b ∨ other ≠ key ∧ c = b) := by
  rw [get?_modify] at h
  split at h
  · rename_i hkey
    obtain ⟨b, hb, hc⟩ := Option.map_eq_some_iff.mp h
    exact ⟨b, hb, Or.inl ⟨hkey, hc.symm⟩⟩
  · rename_i hkey
    exact ⟨c, h, Or.inr ⟨hkey, rfl⟩⟩

/-- A change removes no entry. -/
theorem exists_get?_modify {key other : Key table} {f : β → β} {b : β}
    (h : r.get? other = some b) :
    ∃ c, (r.modify key f).get? other = some c ∧ (c = f b ∨ c = b) := by
  rw [get?_modify, h]
  split
  · exact ⟨f b, rfl, Or.inl rfl⟩
  · exact ⟨b, rfl, Or.inr rfl⟩

/-! ## Labels -/

/-- No two entries have the same label. -/
def Distinct (label : β → String) (r : Registry table β) : Prop :=
  ∀ k l b c, r.get? k = some b → r.get? l = some c → label b = label c → k = l

theorem distinct_empty (label : β → String) : Distinct label ({} : Registry table β) := by
  intro k l b c hb
  exact absurd hb (get?_empty_ne k b)

theorem Distinct.push {label : β → String} (h : Distinct label r) {b : β}
    (hnew : ∀ k c, r.get? k = some c → label c ≠ label b) : Distinct label (r.push b) := by
  intro k l c d hc hd heq
  rcases get?_push_cases hc with ⟨rfl, rfl⟩ | ⟨-, hc'⟩
  · rcases get?_push_cases hd with ⟨rfl, rfl⟩ | ⟨-, hd'⟩
    · rfl
    · exact absurd heq.symm (hnew l d hd')
  · rcases get?_push_cases hd with ⟨rfl, rfl⟩ | ⟨-, hd'⟩
    · exact absurd heq (hnew k c hc')
    · exact h k l c d hc' hd' heq

theorem Distinct.modify {label : β → String} (h : Distinct label r) {key : Key table} {f : β → β}
    (hf : ∀ b, label (f b) = label b) : Distinct label (r.modify key f) := by
  have hlabel : ∀ k c, (r.modify key f).get? k = some c →
      ∃ b, r.get? k = some b ∧ label b = label c := by
    intro k c hc
    obtain ⟨b, hb, ⟨-, rfl⟩ | ⟨-, rfl⟩⟩ := get?_modify_cases hc
    · exact ⟨b, hb, (hf b).symm⟩
    · exact ⟨c, hb, rfl⟩
  intro k l c d hc hd heq
  obtain ⟨b, hb, hbc⟩ := hlabel k c hc
  obtain ⟨e, he, hed⟩ := hlabel l d hd
  exact h k l b e hb he (hbc.trans (heq.trans hed.symm))

/-- **A label finds the entry of that label.** -/
theorem Distinct.findKey?_eq_some_iff {label : β → String} (h : Distinct label r) {name : String}
    {key : Key table} :
    (r.findKey? fun b => label b = name) = some key
      ↔ ∃ b, r.get? key = some b ∧ label b = name := by
  have hunique : ∀ e ∈ r.toList, ∀ f ∈ r.toList, decide (label e.2 = name) →
      decide (label f.2 = name) → e = f := by
    intro e he f hf hename hfname
    obtain ⟨k, b⟩ := e
    obtain ⟨l, c⟩ := f
    have hb := mem_toList_iff.mp he
    have hc := mem_toList_iff.mp hf
    have hkey := h k l b c hb hc
      ((of_decide_eq_true hename).trans (of_decide_eq_true hfname).symm)
    subst hkey
    cases hb.symm.trans hc
    rfl
  unfold findKey?
  rw [Option.map_eq_some_iff]
  simp only [find?_eq_some_iff_of_unique hunique]
  refine ⟨fun hk => ?_, fun hk => ?_⟩
  · obtain ⟨⟨k, b⟩, ⟨hmem, hname⟩, rfl⟩ := hk
    exact ⟨b, mem_toList_iff.mp hmem, of_decide_eq_true hname⟩
  · obtain ⟨b, hb, hname⟩ := hk
    exact ⟨(key, b), ⟨mem_toList_iff.mpr hb, decide_eq_true hname⟩, rfl⟩

end Registry

/-! ## Owners and items -/

/-- Owners list items, and items know their owner and have a name. -/
structure Ownership (owners items : Table) (β γ : Type) where
  list : β → List (Key items)
  owner : γ → Key owners
  name : γ → String

namespace Ownership

variable {owners items : Table} {β γ : Type}

/-- Owners and items agree on who owns what, and names of items are as they should be. -/
structure Holds (o : Ownership owners items β γ) (r : Registry owners β) (r' : Registry items γ) :
    Prop where
  /-- An owner lists the items that know it as their owner. -/
  mem_iff : ∀ k b i, r.get? k = some b → (i ∈ o.list b ↔ ∃ c, r'.get? i = some c ∧ o.owner c = k)
  /-- No item is listed twice. -/
  nodup : ∀ k b, r.get? k = some b → (o.list b).Nodup
  /-- Every item has an owner. -/
  exists_owner : ∀ i c, r'.get? i = some c → ∃ b, r.get? (o.owner c) = some b
  /-- A rule can mention an item. -/
  valid : ∀ i c, r'.get? i = some c → Name.isValid (o.name c)
  /-- Items of one owner have different names. -/
  distinct : ∀ i j c d, r'.get? i = some c → r'.get? j = some d → o.owner c = o.owner d →
    o.name c = o.name d → i = j

variable {o : Ownership owners items β γ} {r : Registry owners β} {r' : Registry items γ}

theorem holds_empty (o : Ownership owners items β γ) : o.Holds {} {} where
  mem_iff := fun k b _ h => absurd h (Registry.get?_empty_ne k b)
  nodup := fun k b h => absurd h (Registry.get?_empty_ne k b)
  exists_owner := fun i c h => absurd h (Registry.get?_empty_ne i c)
  valid := fun i c h => absurd h (Registry.get?_empty_ne i c)
  distinct := fun i _ c _ h => absurd h (Registry.get?_empty_ne i c)

/-- **A new owner without items changes nothing for the others.** -/
theorem Holds.pushOwner (h : o.Holds r r') {b : β} (hb : o.list b = []) :
    o.Holds (r.push b) r' where
  mem_iff := by
    intro k c i hc
    rcases Registry.get?_push_cases hc with ⟨rfl, rfl⟩ | ⟨-, hc⟩
    · rw [hb]
      refine ⟨fun hi => absurd hi List.not_mem_nil, fun hi => ?_⟩
      -- no item can know the new owner, since every item has one already
      obtain ⟨d, hd, howner⟩ := hi
      obtain ⟨e, he⟩ := h.exists_owner i d hd
      rw [howner, Registry.get?_nextKey] at he
      exact absurd he (by simp)
    · exact h.mem_iff k c i hc
  nodup := by
    intro k c hc
    rcases Registry.get?_push_cases hc with ⟨rfl, rfl⟩ | ⟨-, hc⟩
    · rw [hb]
      exact List.nodup_nil
    · exact h.nodup k c hc
  exists_owner := by
    intro i c hc
    obtain ⟨d, hd⟩ := h.exists_owner i c hc
    exact ⟨d, Registry.get?_push_of_eq_some b hd⟩
  valid := h.valid
  distinct := h.distinct

/-- A new item is owned by its owner, and nothing else changes hands. -/
theorem owned_push_iff {c : γ} {i : Key items} {k : Key owners} :
    (∃ d, (r'.push c).get? i = some d ∧ o.owner d = k)
      ↔ (∃ d, r'.get? i = some d ∧ o.owner d = k) ∨ i = r'.nextKey ∧ o.owner c = k := by
  refine ⟨fun hi => ?_, fun hi => ?_⟩
  · obtain ⟨d, hd, hk⟩ := hi
    rcases Registry.get?_push_cases hd with ⟨hi, rfl⟩ | ⟨-, hd⟩
    · exact Or.inr ⟨hi, hk⟩
    · exact Or.inl ⟨d, hd, hk⟩
  · rcases hi with ⟨d, hd, hk⟩ | ⟨rfl, hk⟩
    · exact ⟨d, Registry.get?_push_of_eq_some c hd, hk⟩
    · exact ⟨c, r'.get?_push_self c, hk⟩

/-- **A new item is entered on both sides.** -/
theorem Holds.pushItem (h : o.Holds r r') {k : Key owners} {b : β} (hb : r.get? k = some b) {c : γ}
    (howner : o.owner c = k) (hvalid : Name.isValid (o.name c))
    (hnew : ∀ i d, r'.get? i = some d → o.owner d = k → o.name d ≠ o.name c) {f : β → β}
    (hf : ∀ b, o.list (f b) = o.list b ++ [r'.nextKey]) :
    o.Holds (r.modify k f) (r'.push c) where
  mem_iff := by
    intro l e i he
    -- the list grows by the new key exactly where the new item has its owner
    rw [owned_push_iff, howner]
    obtain ⟨d, hd, ⟨rfl, rfl⟩ | ⟨hne, rfl⟩⟩ := Registry.get?_modify_cases he
    · rw [hf, List.mem_append, List.mem_singleton, h.mem_iff l d i hd]
      simp only [and_true]
    · rw [h.mem_iff l e i hd]
      simp only [hne.symm, and_false, or_false]
  nodup := by
    intro l e he
    obtain ⟨d, hd, ⟨rfl, rfl⟩ | ⟨-, rfl⟩⟩ := Registry.get?_modify_cases he
    · rw [hf]
      refine nodup_snoc (h.nodup l d hd) fun hi => ?_
      -- what is listed exists, and the next key does not yet
      obtain ⟨g, hg, -⟩ := (h.mem_iff l d _ hd).mp hi
      rw [Registry.get?_nextKey] at hg
      exact absurd hg (by simp)
    · exact h.nodup l e hd
  exists_owner := by
    intro i d hd
    have hold : ∃ e, r.get? (o.owner d) = some e := by
      rcases Registry.get?_push_cases hd with ⟨rfl, rfl⟩ | ⟨-, hd⟩
      · rw [howner]
        exact ⟨b, hb⟩
      · exact h.exists_owner i d hd
    obtain ⟨e, he⟩ := hold
    obtain ⟨e', he', -⟩ := Registry.exists_get?_modify he
    exact ⟨e', he'⟩
  valid := by
    intro i d hd
    rcases Registry.get?_push_cases hd with ⟨rfl, rfl⟩ | ⟨-, hd⟩
    · exact hvalid
    · exact h.valid i d hd
  distinct := by
    intro i j d e hd he hde hname
    rcases Registry.get?_push_cases hd with ⟨rfl, rfl⟩ | ⟨-, hd'⟩
    · rcases Registry.get?_push_cases he with ⟨rfl, rfl⟩ | ⟨-, he'⟩
      · rfl
      · exact absurd hname.symm (hnew j e he' (hde.symm.trans howner))
    · rcases Registry.get?_push_cases he with ⟨rfl, rfl⟩ | ⟨-, he'⟩
      · exact absurd hname (hnew i d hd' (hde.trans howner))
      · exact h.distinct i j d e hd' he' hde hname

/-- **An item is listed by its owner once, and by nobody else.** -/
theorem Holds.count_eq (h : o.Holds r r') {i : Key items} {c : γ} (hc : r'.get? i = some c)
    {k : Key owners} {b : β} (hb : r.get? k = some b) :
    (o.list b).count i = if o.owner c = k then 1 else 0 := by
  have hmem : i ∈ o.list b ↔ o.owner c = k := by
    rw [h.mem_iff k b i hb, hc]
    simp only [Option.some.injEq, exists_eq_left']
  simp only [(h.nodup k b hb).count, hmem]

/-! ## The items of one owner -/

/-- The items that an owner lists. -/
def listed (o : Ownership owners items β γ) (r : Registry owners β) (r' : Registry items γ)
    (k : Key owners) : List (Key items × γ) :=
  match r.get? k with
  | none => []
  | some b => (o.list b).filterMap fun i => (r'.get? i).map fun c => (i, c)

theorem Holds.mem_listed_iff (h : o.Holds r r') {k : Key owners} {i : Key items} {c : γ} :
    (i, c) ∈ o.listed r r' k ↔ r'.get? i = some c ∧ o.owner c = k := by
  unfold listed
  refine ⟨fun hi => ?_, fun hi => ?_⟩
  · split at hi
    · exact absurd hi List.not_mem_nil
    · rename_i b hb
      obtain ⟨j, hj, hmap⟩ := List.mem_filterMap.mp hi
      obtain ⟨d, hd, heq⟩ := Option.map_eq_some_iff.mp hmap
      cases heq
      obtain ⟨e, he, hk⟩ := (h.mem_iff k b i hb).mp hj
      cases hd.symm.trans he
      exact ⟨hd, hk⟩
  · obtain ⟨hc, rfl⟩ := hi
    obtain ⟨b, hb⟩ := h.exists_owner i c hc
    rw [hb]
    have hmem := (h.mem_iff (o.owner c) b i hb).mpr ⟨c, hc, rfl⟩
    exact List.mem_filterMap.mpr ⟨i, hmem, by rw [hc]; rfl⟩

/-- **Nothing that an owner lists is missing.** -/
theorem Holds.keys_listed (h : o.Holds r r') {k : Key owners} {b : β} (hb : r.get? k = some b) :
    (o.listed r r' k).map Prod.fst = o.list b := by
  have hsome : ∀ i ∈ o.list b, ((r'.get? i).map fun c => (i, c)).map Prod.fst = some i := by
    intro i hi
    obtain ⟨c, hc, -⟩ := (h.mem_iff k b i hb).mp hi
    rw [hc]
    rfl
  unfold listed
  rw [hb]
  show ((o.list b).filterMap _).map Prod.fst = _
  rw [List.map_filterMap, List.filterMap_congr hsome, List.filterMap_some]

/-- A name that is not among those listed is new for the owner. -/
theorem Holds.name_ne_of_any (h : o.Holds r r') {k : Key owners} {name : String}
    (hany : ¬ (o.listed r r' k).any fun e => o.name e.2 = name) :
    ∀ i d, r'.get? i = some d → o.owner d = k → o.name d ≠ name := by
  intro i d hd hk hname
  refine hany (List.any_eq_true.mpr ⟨(i, d), h.mem_listed_iff.mpr ⟨hd, hk⟩, ?_⟩)
  exact decide_eq_true hname

/-- **A name finds the item of that name.** -/
theorem Holds.find?_listed_iff (h : o.Holds r r') {k : Key owners} {name : String}
    {i : Key items} :
    ((o.listed r r' k).find? fun e => o.name e.2 = name).map Prod.fst = some i
      ↔ ∃ c, r'.get? i = some c ∧ o.owner c = k ∧ o.name c = name := by
  have hunique : ∀ e ∈ o.listed r r' k, ∀ f ∈ o.listed r r' k, decide (o.name e.2 = name) →
      decide (o.name f.2 = name) → e = f := by
    intro e he f hf hename hfname
    obtain ⟨i, c⟩ := e
    obtain ⟨j, d⟩ := f
    obtain ⟨hc, hck⟩ := h.mem_listed_iff.mp he
    obtain ⟨hd, hdk⟩ := h.mem_listed_iff.mp hf
    -- items of one name and one owner are one
    have hitem := h.distinct i j c d hc hd (hck.trans hdk.symm)
      ((of_decide_eq_true hename).trans (of_decide_eq_true hfname).symm)
    subst hitem
    cases hc.symm.trans hd
    rfl
  rw [Option.map_eq_some_iff]
  simp only [find?_eq_some_iff_of_unique hunique]
  refine ⟨fun hi => ?_, fun hi => ?_⟩
  · obtain ⟨⟨j, c⟩, ⟨hmem, hname⟩, rfl⟩ := hi
    obtain ⟨hc, hk⟩ := h.mem_listed_iff.mp hmem
    exact ⟨c, hc, hk, of_decide_eq_true hname⟩
  · obtain ⟨c, hc, hk, hname⟩ := hi
    exact ⟨(i, c), ⟨h.mem_listed_iff.mpr ⟨hc, hk⟩, decide_eq_true hname⟩, rfl⟩

/-- The same for pairs of a name and a key. -/
theorem Holds.lookup_listed_iff (h : o.Holds r r') {k : Key owners} {name : String}
    {i : Key items} :
    ((o.listed r r' k).map fun e => (o.name e.2, e.1)).lookup name = some i
      ↔ ∃ c, r'.get? i = some c ∧ o.owner c = k ∧ o.name c = name := by
  -- looking a name up among the pairs is looking for an entry of that name
  have hfind : ∀ es : List (Key items × γ), (es.map fun e => (o.name e.2, e.1)).lookup name
      = (es.find? fun e => o.name e.2 = name).map Prod.fst := by
    intro es
    induction es with
    | nil => rfl
    | cons e es ih =>
      rw [List.map_cons, List.lookup_cons, List.find?_cons, ih]
      by_cases hname : o.name e.2 = name
      · rw [hname, beq_self_eq_true, decide_eq_true rfl]
        rfl
      · rw [beq_false_of_ne (Ne.symm hname), decide_eq_false hname]
  rw [hfind]
  exact h.find?_listed_iff

end Ownership

end FuzzyInference
