import FuzzyInference.Key

/-!
# Registries

A registry keeps entries in the order in which they arrive and hands out their keys. Nothing
is ever removed, so a key stays good and the next key is always one past the last.
-/

namespace FuzzyInference

/-- The entries of one table, the first of which has number one. -/
structure Registry (table : Table) (β : Type) where
  entries : List β := []

namespace Registry

variable {table : Table} {β : Type}

/-- The key that the next entry will get. -/
def nextKey (r : Registry table β) : Key table := ⟨r.entries.length + 1⟩

/-- Adds an entry, whose key is `nextKey`. -/
def push (r : Registry table β) (entry : β) : Registry table β := ⟨r.entries ++ [entry]⟩

/-- The entry a key refers to. -/
def get? (r : Registry table β) (key : Key table) : Option β :=
  match key.number with
  | 0 => none
  | n + 1 => r.entries[n]?

/-- Changes the entry a key refers to, if there is one. -/
def modify (r : Registry table β) (key : Key table) (f : β → β) : Registry table β :=
  match key.number with
  | 0 => r
  | n + 1 => ⟨r.entries.modify n f⟩

/-- All entries with their keys, in order of arrival. -/
def toList (r : Registry table β) : List (Key table × β) :=
  r.entries.zipIdx.map fun (entry, i) => (⟨i + 1⟩, entry)

/-- The keys of all entries, in order of arrival. -/
def keys (r : Registry table β) : List (Key table) := r.toList.map Prod.fst

/-- The first entry that passes a test. -/
def findKey? (r : Registry table β) (p : β → Bool) : Option (Key table) :=
  (r.toList.find? fun (_, entry) => p entry).map Prod.fst

/-! ## What a key refers to -/

theorem get?_mk_succ (r : Registry table β) (n : Nat) : r.get? ⟨n + 1⟩ = r.entries[n]? := rfl

@[simp] theorem get?_null (r : Registry table β) : r.get? Key.null = none := rfl

/-- The next key refers to nothing yet. -/
@[simp] theorem get?_nextKey (r : Registry table β) : r.get? r.nextKey = none := by
  rw [nextKey, get?_mk_succ]
  simp

/-- After an entry is added its key refers to it, and every other key to what it did before. -/
theorem get?_push (r : Registry table β) (entry : β) (key : Key table) :
    (r.push entry).get? key = if key = r.nextKey then some entry else r.get? key := by
  obtain ⟨n⟩ := key
  cases n with
  | zero => simp [get?, nextKey]
  | succ n =>
    simp only [get?, push, nextKey, List.getElem?_append, Key.mk.injEq, Nat.add_right_cancel_iff]
    by_cases h : n < r.entries.length
    · simp [h, Nat.ne_of_lt h]
    · by_cases hn : n = r.entries.length
      · simp [hn]
      · simp [h, hn]
        omega

/-- An entry keeps its key for good. -/
theorem get?_push_of_eq_some {r : Registry table β} {key : Key table} {b : β} (entry : β)
    (h : r.get? key = some b) : (r.push entry).get? key = some b := by
  rw [get?_push, if_neg, h]
  rintro rfl
  simp at h

/-- Changing an entry changes that entry only. -/
theorem get?_modify (r : Registry table β) (key other : Key table) (f : β → β) :
    (r.modify key f).get? other = if other = key then (r.get? other).map f else r.get? other := by
  obtain ⟨n⟩ := key
  obtain ⟨m⟩ := other
  cases n with
  | zero => cases m <;> simp [modify, get?]
  | succ n =>
    cases m with
    | zero => simp [get?]
    | succ m =>
      simp only [modify, get?, List.getElem?_modify, Key.mk.injEq, Nat.add_right_cancel_iff]
      by_cases h : m = n
      · subst h; simp
      · simp [h, Ne.symm h]

@[simp] theorem nextKey_modify (r : Registry table β) (key : Key table) (f : β → β) :
    (r.modify key f).nextKey = r.nextKey := by
  obtain ⟨n⟩ := key
  cases n <;> simp [modify, nextKey]

end Registry

end FuzzyInference
