import FuzzyInference.RuleText.Grouping

/-!
# Parentheses, counted

How parentheses stand is said here by counting them in the beginnings of a text,
which needs neither a stack nor a tree: parentheses nest within `n` if no
beginning has more than `n` opening ones to spare, and they are balanced if no
beginning has a closing one too many and the totals agree.

Both are cases of one comparison, `Covered`, which can be followed from item to
item. The rest of the file shows that what the reader computes by scanning (the
partner of a parenthesis, whether a pair surrounds everything, the nesting
depth) is what the counts say.
-/

namespace FuzzyInference.RuleText

variable {σ : Type} [DecidableEq σ]

/-- In every beginning, the `x`s and `a` more are no more than the `y`s and `b` more. -/
def Covered (x y : σ) (a b : Nat) (ws : List σ) : Prop :=
  ∀ p, p <+: ws → a + p.count x ≤ b + p.count y

/-- At no point are more than `n` parentheses open. -/
def NestsWithin (opening closing : σ) (n : Nat) (ws : List σ) : Prop :=
  ∀ p, p <+: ws → p.count opening ≤ p.count closing + n

/-- Every closing parenthesis has an opening one before it, and every opening one is closed. -/
def Balanced (items : List Item) : Prop :=
  (∀ p, p <+: items → p.count .closing ≤ p.count .opening)
    ∧ items.count .closing = items.count .opening

/-! ## Following the counts -/

@[simp] theorem covered_nil {x y : σ} {a b : Nat} : Covered x y a b [] ↔ a ≤ b := by
  simp [Covered]

theorem covered_cons {x y z : σ} {a b : Nat} {ws : List σ} :
    Covered x y a b (z :: ws)
      ↔ a ≤ b ∧ Covered x y (a + if z = x then 1 else 0) (b + if z = y then 1 else 0) ws := by
  unfold Covered
  refine ⟨fun h => ⟨by simpa using h [] List.nil_prefix, fun p hp => ?_⟩, fun h p hp => ?_⟩
  · have := h (z :: p) (List.cons_prefix_cons.mpr ⟨rfl, hp⟩)
    simp only [List.count_cons, beq_iff_eq] at this
    omega
  · rcases List.prefix_cons_iff.mp hp with rfl | ⟨q, rfl, hq⟩
    · simpa using h.1
    · have := h.2 q hq
      simp only [List.count_cons, beq_iff_eq]
      omega

theorem covered_append {x y : σ} {a b : Nat} {u v : List σ} :
    Covered x y a b (u ++ v)
      ↔ Covered x y a b u ∧ Covered x y (a + u.count x) (b + u.count y) v := by
  induction u generalizing a b with
  | nil =>
    simp only [List.nil_append, covered_nil, List.count_nil, Nat.add_zero]
    exact ⟨fun h => ⟨by simpa using h [] List.nil_prefix, h⟩, fun h => h.2⟩
  | cons z u ih =>
    rw [List.cons_append, covered_cons, covered_cons, ih, and_assoc]
    simp only [List.count_cons, beq_iff_eq]
    rw [Nat.add_assoc, Nat.add_assoc, Nat.add_comm (u.count x), Nat.add_comm (u.count y)]

/-- Only the difference of the two head starts counts. -/
theorem covered_add_iff {x y : σ} {a b k : Nat} {ws : List σ} :
    Covered x y (a + k) (b + k) ws ↔ Covered x y a b ws := by
  unfold Covered
  refine forall_congr' fun p => forall_congr' fun _ => ?_
  omega

theorem nestsWithin_iff_covered {opening closing : σ} {n : Nat} {ws : List σ} :
    NestsWithin opening closing n ws ↔ Covered opening closing 0 n ws := by
  unfold NestsWithin Covered
  refine forall_congr' fun p => forall_congr' fun _ => ?_
  omega

theorem balanced_iff_covered {items : List Item} :
    Balanced items ↔ Covered .closing .opening 0 0 items
      ∧ items.count .closing = items.count .opening := by
  unfold Balanced Covered
  simp only [Nat.zero_add]

/-! ## Nesting in the parts of a text -/

/-- Parentheses around a text nest one level deeper than the text. -/
theorem NestsWithin.of_grouped {opening closing : σ} {n : Nat} {u : List σ}
    (hne : opening ≠ closing)
    (h : NestsWithin opening closing n (opening :: (u ++ [closing]))) :
    ∃ m, n = m + 1 ∧ NestsWithin opening closing m u := by
  rw [nestsWithin_iff_covered, covered_cons, covered_append] at h
  simp only [if_true, hne, if_false] at h
  have hfirst := h.2.1 [] List.nil_prefix
  rw [List.count_nil, List.count_nil] at hfirst
  obtain ⟨m, rfl⟩ : ∃ m, n = m + 1 := ⟨n - 1, by omega⟩
  exact ⟨m, rfl, nestsWithin_iff_covered.mpr (covered_add_iff.mp h.2.1)⟩

theorem NestsWithin.left {opening closing : σ} {n : Nat} {u v : List σ}
    (h : NestsWithin opening closing n (u ++ v)) : NestsWithin opening closing n u :=
  fun p hp => h p (hp.trans (List.prefix_append u v))

/-- Behind a text whose parentheses come in pairs, as many are open as before it. -/
theorem NestsWithin.right {opening closing : σ} {n : Nat} {u v : List σ}
    (hu : u.count closing = u.count opening) (h : NestsWithin opening closing n (u ++ v)) :
    NestsWithin opening closing n v := by
  intro p hp
  have := h (u ++ p) ((List.prefix_append_right_inj u).mpr hp)
  rw [List.count_append, List.count_append, hu] at this
  omega

/-! ## Balanced items -/

/-- A single item that is no parenthesis is balanced. -/
theorem balanced_singleton {item : Item} (ho : item ≠ .opening) (hc : item ≠ .closing) :
    Balanced [item] := by
  rw [balanced_iff_covered, covered_cons]
  simp [ho, hc]

theorem Balanced.append {u v : List Item} (hu : Balanced u) (hv : Balanced v) :
    Balanced (u ++ v) := by
  rw [balanced_iff_covered] at hu hv ⊢
  refine ⟨covered_append.mpr ⟨hu.1, ?_⟩, ?_⟩
  · rw [hu.2]
    exact covered_add_iff.mpr hv.1
  · rw [List.count_append, List.count_append, hu.2, hv.2]

theorem Balanced.grouped {u : List Item} (hu : Balanced u) :
    Balanced (.opening :: (u ++ [.closing])) := by
  rw [balanced_iff_covered] at hu ⊢
  refine ⟨covered_cons.mpr ⟨Nat.le_refl 0, covered_append.mpr ⟨?_, ?_⟩⟩, ?_⟩
  · intro p hp
    have := hu.1 p hp
    simp only [if_true, reduceCtorEq, if_false]
    omega
  · rw [covered_cons, covered_nil, hu.2]
    simp only [if_true, reduceCtorEq, if_false]
    omega
  · simp [List.count_append, hu.2]

/-- Behind balanced items balance starts afresh. -/
theorem balanced_append_iff {u v : List Item} (hu : Balanced u) :
    Balanced (u ++ v) ↔ Balanced v := by
  rw [balanced_iff_covered] at hu ⊢
  rw [balanced_iff_covered, covered_append, hu.2, covered_add_iff, List.count_append,
    List.count_append, hu.2, Nat.add_left_cancel_iff]
  simp only [hu.1, true_and]

theorem not_balanced_closing (rest : List Item) : ¬ Balanced (.closing :: rest) := by
  intro h
  have hfirst := h.1 [.closing] (by simp)
  simp at hfirst

/-! ## The partner of a parenthesis -/

/-- The partner of a parenthesis is at place `i`, if `opened` parentheses are open besides the one
whose partner is sought: it is the first place where the counts meet. -/
def IsPartner (opened i : Nat) (items : List Item) : Prop :=
  ∃ u v, items = u ++ .closing :: v ∧ u.length = i ∧ Covered .closing .opening 0 opened u
    ∧ u.count .closing = u.count .opening + opened

/-- An item other than the partner is passed over, and changes how many parentheses are open. -/
theorem isPartner_cons_iff {opened k i : Nat} {item : Item} {rest : List Item}
    (hcount : ∀ u : List Item, Covered .closing .opening 0 opened (item :: u)
        ∧ (item :: u).count .closing = (item :: u).count .opening + opened
      ↔ Covered .closing .opening 0 k u ∧ u.count .closing = u.count .opening + k)
    (hne : ¬ (item = .closing ∧ opened = 0)) :
    IsPartner opened i (item :: rest) ↔ ∃ j, IsPartner k j rest ∧ j + 1 = i := by
  refine ⟨fun h => ?_, fun h => ?_⟩
  · obtain ⟨u, v, huv, rfl, hu⟩ := h
    cases u with
    | nil =>
      rw [List.nil_append, List.cons.injEq] at huv
      exact absurd ⟨huv.1, by simpa using hu.2.symm⟩ hne
    | cons z u =>
      rw [List.cons_append, List.cons.injEq] at huv
      obtain ⟨rfl, rfl⟩ := huv
      exact ⟨u.length, ⟨u, v, rfl, rfl, (hcount u).mp hu⟩, rfl⟩
  · obtain ⟨j, ⟨u, v, rfl, rfl, hu⟩, rfl⟩ := h
    exact ⟨item :: u, v, rfl, rfl, (hcount u).mpr hu⟩

/-- A closing parenthesis is the partner if no other parenthesis is open. -/
theorem isPartner_closing_iff {i : Nat} {rest : List Item} :
    IsPartner 0 i (.closing :: rest) ↔ i = 0 := by
  refine ⟨fun h => ?_, fun h => ?_⟩
  · obtain ⟨u, v, huv, rfl, hu, -⟩ := h
    cases u with
    | nil => rfl
    | cons z u =>
      rw [List.cons_append, List.cons.injEq] at huv
      obtain ⟨rfl, -⟩ := huv
      have := hu [.closing] (by simp)
      simp at this
  · subst h
    exact ⟨[], rest, rfl, rfl, by simp, by simp⟩

/-- **Scanning finds the partner.** -/
theorem closeIndexFrom?_eq_some_iff {opened i : Nat} {items : List Item} :
    closeIndexFrom? (opened + 1) items = some i ↔ IsPartner opened i items := by
  induction items generalizing opened i with
  | nil => simp [closeIndexFrom?, IsPartner]
  | cons item rest ih =>
    cases item with
    | opening =>
      rw [closeIndexFrom?, Option.map_eq_some_iff]
      simp only [ih]
      refine (isPartner_cons_iff (fun u => ?_) (by simp)).symm
      rw [covered_cons]
      simp only [reduceCtorEq, if_false, if_true, Nat.add_zero, List.count_cons, beq_iff_eq,
        Nat.zero_le, true_and]
      refine and_congr_right fun _ => ?_
      omega
    | closing =>
      cases opened with
      | zero =>
        rw [isPartner_closing_iff, closeIndexFrom?, Option.some.injEq]
        exact eq_comm
      | succ k =>
        rw [closeIndexFrom?, Option.map_eq_some_iff]
        simp only [ih]
        refine (isPartner_cons_iff (fun u => ?_) (by simp)).symm
        rw [covered_cons]
        simp only [reduceCtorEq, if_false, if_true, Nat.add_zero, List.count_cons, beq_iff_eq,
          Nat.zero_le, true_and]
        rw [covered_add_iff]
        refine and_congr_right fun _ => ?_
        omega
    | _ =>
      show (closeIndexFrom? (opened + 1) rest).map (· + 1) = some i ↔ _
      rw [Option.map_eq_some_iff]
      simp only [ih]
      refine (isPartner_cons_iff (fun u => ?_) (by simp)).symm
      rw [covered_cons]
      simp only [reduceCtorEq, if_false, Nat.add_zero, List.count_cons, beq_iff_eq, Nat.zero_le,
        true_and]

/-- **The partner of the first parenthesis is behind balanced items.** -/
theorem closeIndex?_eq_some_iff {rest : List Item} {i : Nat} :
    closeIndex? (.opening :: rest) = some i
      ↔ ∃ u v, rest = u ++ .closing :: v ∧ i = u.length + 1 ∧ Balanced u := by
  unfold closeIndex?
  rw [closeIndexFrom?, Option.map_eq_some_iff]
  refine ⟨fun h => ?_, fun h => ?_⟩
  · obtain ⟨j, hj, rfl⟩ := h
    obtain ⟨u, v, rfl, rfl, hu⟩ := closeIndexFrom?_eq_some_iff.mp hj
    exact ⟨u, v, rfl, rfl, balanced_iff_covered.mpr hu⟩
  · obtain ⟨u, v, rfl, rfl, hu⟩ := h
    exact ⟨u.length, closeIndexFrom?_eq_some_iff.mpr
      ⟨u, v, rfl, rfl, balanced_iff_covered.mp hu⟩, rfl⟩

/-- **There is no partner exactly if the counts never meet.** -/
theorem closeIndexFrom?_eq_none_iff {opened : Nat} {items : List Item} :
    closeIndexFrom? (opened + 1) items = none ↔ Covered .closing .opening 0 opened items := by
  induction items generalizing opened with
  | nil => simp [closeIndexFrom?]
  | cons item rest ih =>
    rw [covered_cons]
    cases item with
    | opening =>
      rw [closeIndexFrom?, Option.map_eq_none_iff, ih]
      simp
    | closing =>
      cases opened with
      | zero =>
        -- the counts meet here
        rw [closeIndexFrom?]
        refine ⟨fun h => absurd h (by simp), fun h => ?_⟩
        have hfirst := h.2 [] List.nil_prefix
        simp at hfirst
      | succ k =>
        rw [closeIndexFrom?, Option.map_eq_none_iff, ih]
        simp only [if_true, reduceCtorEq, if_false, Nat.zero_le, true_and, Nat.add_zero]
        exact covered_add_iff.symm
    | _ =>
      show (closeIndexFrom? (opened + 1) rest).map (· + 1) = none ↔ _
      rw [Option.map_eq_none_iff, ih]
      simp

/-- The first parenthesis has no partner exactly if no closing one behind it is one too many. -/
theorem closeIndex?_eq_none_iff {rest : List Item} :
    closeIndex? (.opening :: rest) = none ↔ Covered .closing .opening 0 0 rest := by
  unfold closeIndex?
  rw [closeIndexFrom?, Option.map_eq_none_iff, closeIndexFrom?_eq_none_iff]

/-- A parenthesis without a partner is one too many. -/
theorem not_balanced_of_closeIndex?_eq_none {rest : List Item}
    (h : closeIndex? (.opening :: rest) = none) : ¬ Balanced (.opening :: rest) := by
  intro hb
  have htotal := hb.2
  have hall := closeIndex?_eq_none_iff.mp h rest (List.prefix_refl rest)
  simp only [List.count_cons_self, List.count_cons, beq_iff_eq, reduceCtorEq, if_false] at htotal
  omega

/-- One pair surrounds everything exactly if what it surrounds is balanced. -/
theorem isEnclosed_iff {items : List Item} :
    isEnclosed items ↔ ∃ u, items = .opening :: (u ++ [.closing]) ∧ Balanced u := by
  simp only [isEnclosed, Bool.and_eq_true, decide_eq_true_eq]
  refine ⟨fun h => ?_, fun h => ?_⟩
  · obtain ⟨hhead, hclose⟩ := h
    cases items with
    | nil => simp at hhead
    | cons item rest =>
      obtain rfl : item = .opening := by simpa using hhead
      obtain ⟨u, v, rfl, hlen, hu⟩ := closeIndex?_eq_some_iff.mp hclose
      simp only [List.length_cons, List.length_append] at hlen
      have hv : v = [] := List.length_eq_zero_iff.mp (by omega)
      subst hv
      exact ⟨u, rfl, hu⟩
  · obtain ⟨u, rfl, hu⟩ := h
    refine ⟨rfl, closeIndex?_eq_some_iff.mpr ⟨u, [], rfl, ?_, hu⟩⟩
    simp

theorem unwrap_enclosed {u : List Item} (hu : Balanced u) :
    unwrap (.opening :: (u ++ [.closing])) = unwrap u := by
  rw [unwrap, dif_pos (isEnclosed_iff.mpr ⟨u, rfl, hu⟩)]
  simp

theorem unwrap_of_not_enclosed {items : List Item} (h : ¬ isEnclosed items) :
    unwrap items = items := by
  rw [unwrap, dif_neg h]

/-! ## The nesting depth -/

/-- Whatever the order of the parentheses, no more are open than the depth says. -/
theorem covered_nestingFrom (depth : Nat) (items : List Item) :
    Covered .opening .closing depth (max depth (nestingFrom depth items)) items := by
  induction items generalizing depth with
  | nil => exact covered_nil.mpr (Nat.le_max_left _ _)
  | cons item rest ih =>
    rw [covered_cons]
    refine ⟨Nat.le_max_left _ _, fun p hp => ?_⟩
    cases item with
    | opening =>
      have := ih (depth + 1) p hp
      simp only [nestingFrom, Nat.max_def] at this ⊢
      simp only [if_true, reduceCtorEq, if_false]
      split <;> split at this <;> split <;> omega
    | closing =>
      have := ih (depth - 1) p hp
      simp only [nestingFrom] at this ⊢
      simp only [if_true, reduceCtorEq, if_false]
      omega
    | _ => exact ih depth p hp

theorem nestsWithin_nestingDepth (items : List Item) :
    NestsWithin .opening .closing (nestingDepth items) items := by
  rw [nestsWithin_iff_covered]
  have := covered_nestingFrom 0 items
  rwa [Nat.zero_max] at this

/-- The more parentheses are open before, the more are open at once. -/
theorem nestingFrom_mono {a b : Nat} (h : a ≤ b) (items : List Item) :
    nestingFrom a items ≤ nestingFrom b items := by
  induction items generalizing a b with
  | nil => exact Nat.le_refl 0
  | cons item rest ih =>
    cases item with
    | opening =>
      have hfirst := Nat.succ_le_succ h
      exact Nat.max_le.mpr ⟨Nat.le_trans hfirst (Nat.le_max_left _ _),
        Nat.le_trans (ih hfirst) (Nat.le_max_right _ _)⟩
    | closing => exact ih (Nat.sub_le_sub_right h 1)
    | _ => exact ih h

/-- The end of some items nests no deeper than all of them. -/
theorem nestingDepth_le_nestingFrom_append (depth : Nat) (u v : List Item) :
    nestingDepth v ≤ nestingFrom depth (u ++ v) := by
  induction u generalizing depth with
  | nil => exact nestingFrom_mono (Nat.zero_le depth) v
  | cons item u ih =>
    cases item with
    | opening => exact Nat.le_trans (ih (depth + 1)) (Nat.le_max_right _ _)
    | closing => exact ih (depth - 1)
    | _ => exact ih depth

/-- Where no closing parenthesis is passed over, the depth is reached. -/
theorem nestingFrom_le {depth n : Nat} {items : List Item}
    (hc : Covered .closing .opening 0 depth items) (hn : Covered .opening .closing depth n items) :
    nestingFrom depth items ≤ n := by
  induction items generalizing depth with
  | nil => exact Nat.zero_le n
  | cons item rest ih =>
    have hc' := (covered_cons.mp hc).2
    have hn' := (covered_cons.mp hn).2
    cases item with
    | opening =>
      simp only [if_true, reduceCtorEq, if_false, Nat.add_zero] at hc' hn'
      have hfirst := hn' [] List.nil_prefix
      rw [List.count_nil, List.count_nil] at hfirst
      exact Nat.max_le.mpr ⟨hfirst, ih hc' hn'⟩
    | closing =>
      simp only [if_true, reduceCtorEq, if_false, Nat.add_zero] at hc' hn'
      have hpos := hc' [] List.nil_prefix
      rw [List.count_nil, List.count_nil] at hpos
      obtain ⟨d, rfl⟩ : ∃ d, depth = d + 1 := ⟨depth - 1, by omega⟩
      rw [nestingFrom, Nat.add_sub_cancel]
      exact ih (covered_add_iff.mp hc') (covered_add_iff.mp hn')
    | _ => exact ih hc' hn'

/-- **For balanced items the depth is the least bound on how many parentheses are open.** -/
theorem nestingDepth_le_iff {n : Nat} {items : List Item} (h : Balanced items) :
    nestingDepth items ≤ n ↔ NestsWithin .opening .closing n items := by
  refine ⟨fun hd p hp => ?_, fun hn => ?_⟩
  · have := nestsWithin_nestingDepth items p hp
    omega
  · exact nestingFrom_le (balanced_iff_covered.mp h).1 (nestsWithin_iff_covered.mp hn)

end FuzzyInference.RuleText
