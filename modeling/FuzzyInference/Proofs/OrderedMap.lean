import FuzzyInference.OrderedMap
import FuzzyInference.Proofs.Registry
import Mathlib.Data.List.Nodup

/-!
# Maps that list a key once

A map is a list of entries, and it can be asked in two ways: for the value of a
key, or for its entries one after the other. The two agree if no key is listed
twice (`get?_eq_some_iff`), which is so for every map that entries are put into
one by one (`nodup_keys_ofList`).

Two consequences carry the calculations. Changes to many keys in a row are, for
any one key, the changes to that key in a row (`get?_foldl_modify`). And the
order in which entries are listed says nothing about values (`get?_eq_of_perm`).
-/

namespace FuzzyInference.OrderedMap

variable {κ β γ : Type} [DecidableEq κ] {m m' : OrderedMap κ β} {k : κ}

omit [DecidableEq κ] in
theorem mem_keys_of_mem {v : β} (h : (k, v) ∈ m.entries) : k ∈ m.keys :=
  List.mem_map.mpr ⟨(k, v), h, rfl⟩

theorem mem_entries_of_get? {v : β} (h : m.get? k = some v) : (k, v) ∈ m.entries := by
  obtain ⟨⟨k', v'⟩, hfound, rfl⟩ := Option.map_eq_some_iff.mp h
  have hkey : k' = k := by simpa using List.find?_some hfound
  rw [← hkey]
  exact List.mem_of_find?_eq_some hfound

theorem get?_eq_none_iff : m.get? k = none ↔ k ∉ m.keys := by
  rw [mem_keys_iff, contains_eq_isSome, Bool.not_eq_true, Option.isSome_eq_false_iff,
    Option.isNone_iff_eq_none]

theorem exists_get?_of_mem_keys (h : k ∈ m.keys) : ∃ v, m.get? k = some v :=
  Option.isSome_iff_exists.mp (mem_keys_iff.mp h)

/-- **Without repeated keys the value of a key is the one it is listed with.** -/
theorem get?_eq_some_iff (h : m.keys.Nodup) {v : β} : m.get? k = some v ↔ (k, v) ∈ m.entries := by
  refine ⟨mem_entries_of_get?, fun hv => ?_⟩
  obtain ⟨w, hw⟩ := exists_get?_of_mem_keys (mem_keys_of_mem hv)
  rw [hw]
  -- two entries of one key are the same entry
  have heq := List.inj_on_of_nodup_map h (mem_entries_of_get? hw) hv rfl
  cases heq
  rfl

/-! ## Other orders -/

/-- **The order of the entries says nothing about the value of a key.** -/
theorem get?_eq_of_perm (h : m.keys.Nodup) (hp : m'.entries.Perm m.entries) :
    m'.get? k = m.get? k := by
  have hkeys : m'.keys.Perm m.keys := hp.map Prod.fst
  cases hk : m.get? k with
  | none =>
    rw [get?_eq_none_iff] at hk ⊢
    exact fun hmem => hk (hkeys.mem_iff.mp hmem)
  | some v =>
    rw [get?_eq_some_iff (hkeys.nodup_iff.mpr h)]
    exact hp.mem_iff.mpr ((get?_eq_some_iff h).mp hk)

/-- A map lists its keys with their values. -/
theorem entries_eq (h : m.keys.Nodup) :
    m.entries = m.keys.filterMap fun k => (m.get? k).map fun v => (k, v) := by
  unfold keys
  rw [List.filterMap_map]
  refine List.filterMap_some.symm.trans (List.filterMap_congr fun e he => ?_)
  obtain ⟨k, v⟩ := e
  rw [Function.comp_apply, (get?_eq_some_iff h).mpr he]
  rfl

/-- **Maps that list the same keys with the same values are equal.** -/
theorem eq_of_get? (h : m.keys.Nodup) (hkeys : m'.keys = m.keys)
    (hget : ∀ k ∈ m.keys, m'.get? k = m.get? k) : m' = m := by
  have hentries : m'.entries = m.entries := by
    rw [entries_eq h, entries_eq (hkeys ▸ h), hkeys]
    exact List.filterMap_congr fun k hk => by rw [hget k hk]
  cases m
  cases m'
  exact congrArg _ hentries

/-! ## Entering pairs -/

theorem keys_modify (m : OrderedMap κ β) (k : κ) (f : β → β) : (m.modify k f).keys = m.keys := by
  unfold modify keys
  rw [List.map_map]
  refine List.map_congr_left fun e _ => ?_
  rw [Function.comp_apply]
  split <;> rfl

theorem keys_insert_of_mem (h : k ∈ m.keys) (v : β) : (m.insert k v).keys = m.keys := by
  unfold insert
  rw [if_pos (mem_keys_iff.mp h), keys_modify]

theorem insert_of_not_mem (h : k ∉ m.keys) (v : β) : m.insert k v = ⟨m.entries ++ [(k, v)]⟩ := by
  unfold insert
  rw [if_neg (fun hc => h (mem_keys_iff.mpr hc))]

theorem nodup_keys_insert (h : m.keys.Nodup) (k : κ) (v : β) : (m.insert k v).keys.Nodup := by
  by_cases hk : k ∈ m.keys
  · rw [keys_insert_of_mem hk]
    exact h
  · rw [insert_of_not_mem hk]
    unfold keys
    rw [List.map_append, List.map_singleton]
    exact nodup_snoc h hk

theorem mem_keys_insert_iff {k' : κ} {v : β} : k' ∈ (m.insert k v).keys ↔ k' = k ∨ k' ∈ m.keys := by
  rw [mem_keys_iff, mem_keys_iff, contains_eq_isSome, contains_eq_isSome, get?_insert]
  by_cases hk : k' = k
  · simp [hk]
  · simp [hk]

theorem mem_keys_foldl_insert_iff (pairs : List (κ × β)) :
    k ∈ (pairs.foldl (fun m e => m.insert e.1 e.2) m).keys
      ↔ k ∈ m.keys ∨ k ∈ pairs.map Prod.fst := by
  induction pairs generalizing m with
  | nil => simp
  | cons e pairs ih =>
    rw [List.foldl_cons, ih, mem_keys_insert_iff, List.map_cons, List.mem_cons]
    tauto

/-- **Nothing but what is entered has a value.** -/
theorem mem_keys_ofList_iff {pairs : List (κ × β)} :
    k ∈ (ofList pairs).keys ↔ k ∈ pairs.map Prod.fst := by
  unfold ofList
  rw [mem_keys_foldl_insert_iff]
  exact or_iff_right List.not_mem_nil

theorem get?_foldl_insert_of_not_mem (pairs : List (κ × β)) (h : k ∉ pairs.map Prod.fst) :
    (pairs.foldl (fun m e => m.insert e.1 e.2) m).get? k = m.get? k := by
  induction pairs generalizing m with
  | nil => rfl
  | cons e pairs ih =>
    rw [List.map_cons, List.mem_cons, not_or] at h
    obtain ⟨hne, hrest⟩ := h
    rw [List.foldl_cons, ih hrest, get?_insert, if_neg hne]

/-- **The value that is entered last counts.** -/
theorem get?_ofList_of_last {before after : List (κ × β)} {v : β} (h : k ∉ after.map Prod.fst) :
    (ofList (before ++ (k, v) :: after)).get? k = some v := by
  unfold ofList
  rw [List.foldl_append, List.foldl_cons, get?_foldl_insert_of_not_mem after h, get?_insert,
    if_pos rfl]

theorem nodup_keys_foldl_insert (pairs : List (κ × β)) (h : m.keys.Nodup) :
    (pairs.foldl (fun m e => m.insert e.1 e.2) m).keys.Nodup := by
  induction pairs generalizing m with
  | nil => exact h
  | cons e pairs ih => exact ih (nodup_keys_insert h e.1 e.2)

/-- **No key is listed twice after pairs are entered.** -/
theorem nodup_keys_ofList (pairs : List (κ × β)) : (ofList pairs).keys.Nodup :=
  nodup_keys_foldl_insert pairs List.nodup_nil

theorem foldl_insert_of_nodup (pairs : List (κ × β)) (m : OrderedMap κ β)
    (h : (m.keys ++ pairs.map Prod.fst).Nodup) :
    pairs.foldl (fun m e => m.insert e.1 e.2) m = ⟨m.entries ++ pairs⟩ := by
  induction pairs generalizing m with
  | nil => rw [List.foldl_nil, List.append_nil]
  | cons e pairs ih =>
    have hk : e.1 ∉ m.keys := fun hmem =>
      List.nodup_append.mp h |>.2.2 e.1 hmem e.1 List.mem_cons_self rfl
    rw [List.foldl_cons, insert_of_not_mem hk, ih]
    · rw [List.append_assoc, List.singleton_append]
    · unfold keys
      rw [List.map_append, List.append_assoc]
      exact h

/-- Pairs without repeated keys are listed as they are entered. -/
theorem ofList_of_nodup {pairs : List (κ × β)} (h : (pairs.map Prod.fst).Nodup) :
    ofList pairs = ⟨pairs⟩ :=
  foldl_insert_of_nodup pairs {} h

/-! ## Changing many values -/

/-- **Changes in a row are, for one key, the changes to that key in a row.** -/
theorem get?_foldl_modify (l : List γ) (key : γ → κ) (change : β → γ → β) (m : OrderedMap κ β)
    (k : κ) :
    (l.foldl (fun m a => m.modify (key a) (change · a)) m).get? k
      = (m.get? k).map fun b => (l.filter (key · = k)).foldl change b := by
  induction l generalizing m with
  | nil => simp
  | cons a l ih =>
    rw [List.foldl_cons, ih, get?_modify]
    by_cases hk : k = key a
    · rw [if_pos hk, List.filter_cons_of_pos (by simp [hk]), Option.map_map]
      rfl
    · rw [if_neg hk, List.filter_cons_of_neg (by simpa using Ne.symm hk)]

theorem keys_foldl_modify (l : List γ) (key : γ → κ) (change : β → γ → β) (m : OrderedMap κ β) :
    (l.foldl (fun m a => m.modify (key a) (change · a)) m).keys = m.keys := by
  induction l generalizing m with
  | nil => rfl
  | cons a l ih => rw [List.foldl_cons, ih, keys_modify]

/-! ## A value made of each entry -/

omit [DecidableEq κ] in
theorem keys_map_entries (f : κ → β → γ) (m : OrderedMap κ β) :
    (⟨m.entries.map fun e => (e.1, f e.1 e.2)⟩ : OrderedMap κ γ).keys = m.keys := by
  unfold keys
  rw [List.map_map]
  rfl

theorem get?_map_entries (f : κ → β → γ) (m : OrderedMap κ β) (k : κ) :
    (⟨m.entries.map fun e => (e.1, f e.1 e.2)⟩ : OrderedMap κ γ).get? k = (m.get? k).map (f k) := by
  unfold get?
  rw [List.find?_map]
  show ((m.entries.find? fun e => e.1 = k).map _).map _ = _
  cases hfound : m.entries.find? fun e => e.1 = k with
  | none => rfl
  | some e =>
    -- the entry that is found is one of `k`
    have hkey : e.1 = k := by simpa using List.find?_some hfound
    rw [← hkey]
    rfl

/-! ## A value for each of some keys -/

omit [DecidableEq κ] in
theorem keys_tabulate (l : List κ) (f : κ → β) :
    (⟨l.map fun k => (k, f k)⟩ : OrderedMap κ β).keys = l := by
  unfold keys
  rw [List.map_map]
  exact List.map_id l

theorem get?_tabulate {l : List κ} (h : k ∈ l) (f : κ → β) :
    (⟨l.map fun k => (k, f k)⟩ : OrderedMap κ β).get? k = some (f k) := by
  obtain ⟨v, hv⟩ := exists_get?_of_mem_keys (by rwa [keys_tabulate l f])
  obtain ⟨k', -, hk'⟩ := List.mem_map.mp (mem_entries_of_get? hv)
  cases hk'
  exact hv

end FuzzyInference.OrderedMap
