/-!
# Ordered maps

A finite map that lists its entries in the order in which their keys first arrived. A key
occurs once; putting it again replaces its value where it stands.
-/

namespace FuzzyInference

/-- A finite map as the list of its entries. -/
structure OrderedMap (κ β : Type) where
  entries : List (κ × β) := []

namespace OrderedMap

variable {κ β γ : Type}

/-- The entries, in order of arrival. -/
def toList (m : OrderedMap κ β) : List (κ × β) := m.entries

/-- The keys, in order of arrival. -/
def keys (m : OrderedMap κ β) : List κ := m.entries.map Prod.fst

/-- The number of entries. -/
def size (m : OrderedMap κ β) : Nat := m.entries.length

/-- Applies a function to every value. -/
def map (f : β → γ) (m : OrderedMap κ β) : OrderedMap κ γ :=
  ⟨m.entries.map fun (k, v) => (k, f v)⟩

variable [DecidableEq κ]

/-- The value of a key. -/
def get? (m : OrderedMap κ β) (k : κ) : Option β :=
  (m.entries.find? fun e => e.1 = k).map Prod.snd

/-- Whether a key has a value. -/
def contains (m : OrderedMap κ β) (k : κ) : Bool := (m.get? k).isSome

/-- Changes the value of a key, if it has one. -/
def modify (m : OrderedMap κ β) (k : κ) (f : β → β) : OrderedMap κ β :=
  ⟨m.entries.map fun e => if e.1 = k then (e.1, f e.2) else e⟩

/-- Gives a key a value: in place if it has one already, at the end otherwise. -/
def insert (m : OrderedMap κ β) (k : κ) (v : β) : OrderedMap κ β :=
  if m.contains k then m.modify k fun _ => v else ⟨m.entries ++ [(k, v)]⟩

/-- Enters the pairs one after the other, so that the last value of a key counts. -/
def ofList (pairs : List (κ × β)) : OrderedMap κ β :=
  pairs.foldl (fun m e => m.insert e.1 e.2) {}

/-! ## The value of a key -/

@[simp] theorem get?_empty (k : κ) : (({} : OrderedMap κ β).get? k) = none := rfl

theorem contains_eq_isSome (m : OrderedMap κ β) (k : κ) : m.contains k = (m.get? k).isSome := rfl

/-- The keys are those that have a value. -/
theorem mem_keys_iff {m : OrderedMap κ β} {k : κ} : k ∈ m.keys ↔ m.contains k := by
  simp [keys, contains, get?, List.mem_map, List.find?_isSome]

/-- Changing a value changes that value only. -/
theorem get?_modify (m : OrderedMap κ β) (k other : κ) (f : β → β) :
    (m.modify k f).get? other = if other = k then (m.get? other).map f else m.get? other := by
  simp only [get?, modify]
  induction m.entries with
  | nil => simp
  | cons e es ih =>
    obtain ⟨a, b⟩ := e
    by_cases hk : a = k
    · subst hk
      by_cases ho : a = other
      · subst ho; simp
      · simp only [List.map_cons, if_true, List.find?_cons, ho, decide_false]
        exact ih
    · by_cases ho : a = other
      · subst ho; simp [hk]
      · simp only [List.map_cons, hk, if_false, List.find?_cons, ho, decide_false]
        exact ih

/-- Putting a value changes the value of that key only. -/
theorem get?_insert (m : OrderedMap κ β) (k other : κ) (v : β) :
    (m.insert k v).get? other = if other = k then some v else m.get? other := by
  unfold insert
  by_cases hc : m.contains k
  · rw [if_pos hc, get?_modify]
    by_cases ho : other = k
    · subst ho
      obtain ⟨b, hb⟩ := Option.isSome_iff_exists.1 hc
      simp [hb]
    · simp [ho]
  · rw [if_neg hc]
    simp only [contains_eq_isSome, Bool.not_eq_true, Option.isSome_eq_false_iff,
      Option.isNone_iff_eq_none] at hc
    simp only [get?, List.find?_append, List.find?_cons, List.find?_nil]
    by_cases ho : other = k
    · subst ho
      simp only [get?, Option.map_eq_none_iff] at hc
      simp [hc]
    · simp [ho, Ne.symm ho]

end OrderedMap

end FuzzyInference
