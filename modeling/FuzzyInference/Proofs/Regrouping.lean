import FuzzyInference.Proofs.ExactNumbers
import Mathlib.Data.List.Perm.Basic
import Mathlib.Logic.Relation

/-!
# Order and grouping in a condition

A combination goes through its conditions from the first to the last and joins
the degree of each to what it has. With exact numbers all methods for `and` and
`or` are commutative and associative, so nothing of this shows: what degrees come
to is the same in every order, and the same in parts as in one go
(`Link.total_of_perm`, `Link.total_append`).

Hence a condition can be rewritten within. `Regroups` is one such step, however
deep within the condition it is taken, and `Regrouped` any number of them, back
and forth. A step changes neither what the condition evaluates to
(`Regroups.evaluate_eq`) nor the propositions that it is made of
(`Regroups.propositions_perm`).
-/

namespace FuzzyInference

/-! ## What degrees come to -/

section Total

variable {α : Type}

/-- What degrees come to that are joined by a link. No degrees come to nothing. -/
def Link.total [Scalar α] (connectives : Connectives) (link : Link) (degrees : List α) : Option α :=
  (degrees.map some).foldl (Option.merge (link.apply connectives)) none

theorem Link.total_cons [Scalar α] (connectives : Connectives) (link : Link) (first : α)
    (rest : List α) :
    link.total connectives (first :: rest) = some (rest.foldl (link.apply connectives) first) := by
  unfold Link.total
  rw [List.map_cons, List.foldl_cons]
  show (rest.map some).foldl _ (some first) = _
  rw [List.foldl_map]
  exact List.foldl_hom some fun _ _ => rfl

variable [Exact α]

theorem AndMethod.apply_comm (method : AndMethod) (u v : α) :
    method.apply u v = method.apply v u := by
  cases method with
  | min => rw [Exact.and_min, Exact.and_min, min_comm]
  | prod => exact mul_comm u v

theorem OrMethod.apply_comm (method : OrMethod) (u v : α) :
    method.apply u v = method.apply v u := by
  cases method with
  | max => rw [Exact.or_max, Exact.or_max, max_comm]
  | probOr => rw [Exact.or_probOr, Exact.or_probOr, mul_comm]

theorem AndMethod.apply_assoc (method : AndMethod) (u v w : α) :
    method.apply (method.apply u v) w = method.apply u (method.apply v w) := by
  cases method with
  | min => simp only [Exact.and_min, min_assoc]
  | prod => exact mul_assoc u v w

theorem OrMethod.apply_assoc (method : OrMethod) (u v w : α) :
    method.apply (method.apply u v) w = method.apply u (method.apply v w) := by
  cases method with
  | max => simp only [Exact.or_max, max_assoc]
  | probOr =>
    -- all three are false together, in whatever parts
    simp only [Exact.or_probOr, sub_sub_cancel, mul_assoc]

instance Link.commutative (connectives : Connectives) (link : Link) :
    Std.Commutative (link.apply connectives : α → α → α) where
  comm := by
    intro u v
    cases link with
    | and => exact connectives.andMethod.apply_comm u v
    | or => exact connectives.orMethod.apply_comm u v

instance Link.associative (connectives : Connectives) (link : Link) :
    Std.Associative (link.apply connectives : α → α → α) where
  assoc := by
    intro u v w
    cases link with
    | and => exact connectives.andMethod.apply_assoc u v w
    | or => exact connectives.orMethod.apply_assoc u v w

variable {connectives : Connectives} {link : Link} {l l' : List α}

/-- **Degrees come to the same in every order.** -/
theorem Link.total_of_perm (h : l.Perm l') : link.total connectives l = link.total connectives l' :=
  (h.map some).foldl_op_eq

/-- **Degrees come to the same in parts.** -/
theorem Link.total_append : link.total connectives (l ++ l')
    = Option.merge (link.apply connectives) (link.total connectives l)
        (link.total connectives l') := by
  -- the second part starts from nothing, which may as well be joined to the first
  have hparts : (l'.map some).foldl (Option.merge (link.apply connectives))
        (Option.merge (link.apply connectives) (link.total connectives l) none)
      = Option.merge (link.apply connectives) (link.total connectives l)
          (link.total connectives l') := List.foldl_assoc
  rw [Option.merge_none_right] at hparts
  rw [← hparts]
  unfold Link.total
  rw [List.map_append, List.foldl_append]

end Total

namespace Condition

/-! ## Combinations and what they are made of -/

/-- A combination of given conditions, of which there has to be one. -/
inductive Joins (link : Link) (negated : Bool) : List Condition → Condition → Prop
  | mk (first : Condition) (rest : List Condition) :
      Joins link negated (first :: rest) (.combination link negated first rest)

section Joins

variable {link : Link} {negated : Bool} {cs : List Condition} {c : Condition}

theorem Joins.propositions (h : Joins link negated cs c) : c.propositions = propositionsOf cs := by
  cases h with
  | mk first rest => rfl

theorem propositionsOf_eq_flatMap (cs : List Condition) :
    propositionsOf cs = cs.flatMap Condition.propositions := by
  induction cs with
  | nil => rfl
  | cons c cs ih => rw [propositionsOf, ih, List.flatMap_cons]

variable {α : Type} [Scalar α] {connectives : Connectives} {membership : Proposition → α}

theorem evaluateRest_eq_foldl (before : α) (cs : List Condition) :
    evaluateRest connectives membership link before cs
      = (cs.map (·.evaluate connectives membership)).foldl (link.apply connectives) before := by
  induction cs generalizing before with
  | nil => rfl
  | cons c cs ih => rw [evaluateRest, ih, List.map_cons, List.foldl_cons]

/-- **A combination is as true as its conditions come to**, or as false if it is negated. -/
theorem Joins.evaluate (h : Joins link negated cs c) :
    some (c.evaluate connectives membership)
      = (link.total connectives (cs.map (·.evaluate connectives membership))).map
          (negateIf negated) := by
  cases h with
  | mk first rest =>
    rw [Condition.evaluate, evaluateRest_eq_foldl, List.map_cons, Link.total_cons]
    rfl

/-- Combinations of conditions that come to the same are equally true. -/
theorem Joins.evaluate_eq {cs' : List Condition} {c' : Condition} (h : Joins link negated cs c)
    (h' : Joins link negated cs' c')
    (htotal : link.total connectives (cs.map (·.evaluate connectives membership))
      = link.total connectives (cs'.map (·.evaluate connectives membership))) :
    c.evaluate connectives membership = c'.evaluate connectives membership := by
  refine Option.some.inj ?_
  rw [h.evaluate, h'.evaluate, htotal]

/-- A combination that is not negated comes to what its conditions come to. -/
theorem Joins.total_singleton (h : Joins link false cs c) :
    link.total connectives [c.evaluate connectives membership]
      = link.total connectives (cs.map (·.evaluate connectives membership)) := by
  have hid : negateIf (α := α) false = id := rfl
  rw [Link.total_cons, List.foldl_nil, h.evaluate, hid, Option.map_id]
  rfl

/-- A combination of one condition that is not negated is as true as this. -/
theorem Joins.evaluate_singleton {d : Condition} (h : Joins link false [c] d) :
    d.evaluate connectives membership = c.evaluate connectives membership := by
  cases h with
  | mk => rfl

end Joins

/-! ## Rewriting -/

/-- One condition is the other with something within it in another order or other groups. -/
inductive Regroups : Condition → Condition → Prop
  /-- The conditions of a combination in another order. -/
  | permute {link : Link} {negated : Bool} {cs cs' : List Condition} {c c' : Condition}
      (hc : Joins link negated cs c) (hc' : Joins link negated cs' c') (h : cs.Perm cs') :
      Regroups c c'
  /-- The conditions of an inner combination among those of an outer one that has the same link. -/
  | splice {link : Link} {negated : Bool} {before inner after : List Condition}
      {c d c' : Condition} (hc : Joins link negated (before ++ d :: after) c)
      (hd : Joins link false inner d) (hc' : Joins link negated (before ++ inner ++ after) c') :
      Regroups c c'
  /-- A combination of one condition. -/
  | wrap {link : Link} {c c' : Condition} (h : Joins link false [c] c') : Regroups c c'
  /-- The one condition of a combination. -/
  | unwrap {link : Link} {c c' : Condition} (h : Joins link false [c'] c) : Regroups c c'
  /-- A step within one of the conditions of a combination. -/
  | inside {link : Link} {negated : Bool} {before after : List Condition} {c c' d d' : Condition}
      (hc : Joins link negated (before ++ d :: after) c)
      (hc' : Joins link negated (before ++ d' :: after) c') (h : Regroups d d') : Regroups c c'

/-- Any number of steps, each of them taken or taken back. -/
def Regrouped : Condition → Condition → Prop := Relation.EqvGen Regroups

/-- **A step leaves the propositions as they are, up to their order.** -/
theorem Regroups.propositions_perm {c c' : Condition} (h : Regroups c c') :
    c.propositions.Perm c'.propositions := by
  induction h with
  | permute hc hc' h =>
    rw [hc.propositions, hc'.propositions, propositionsOf_eq_flatMap, propositionsOf_eq_flatMap]
    exact h.flatMap_right _
  | splice hc hd hc' =>
    rw [hc.propositions, hc'.propositions, propositionsOf_eq_flatMap, propositionsOf_eq_flatMap,
      List.flatMap_append, List.flatMap_append, List.flatMap_append, List.flatMap_cons,
      hd.propositions, propositionsOf_eq_flatMap, List.append_assoc]
  | wrap h =>
    rw [h.propositions, propositionsOf_eq_flatMap, List.flatMap_singleton]
  | unwrap h =>
    rw [h.propositions, propositionsOf_eq_flatMap, List.flatMap_singleton]
  | inside hc hc' _ ih =>
    rw [hc.propositions, hc'.propositions, propositionsOf_eq_flatMap, propositionsOf_eq_flatMap,
      List.flatMap_append, List.flatMap_append, List.flatMap_cons, List.flatMap_cons]
    exact (ih.append_right _).append_left _

/-- What no step changes no number of steps changes. -/
theorem Regrouped.rel_of_step {r : Condition → Condition → Prop} (hr : Equivalence r)
    (hstep : ∀ c c', Regroups c c' → r c c') {c c' : Condition} (h : Regrouped c c') : r c c' :=
  hr.eqvGen_iff.mp (h.mono hstep)

theorem Regrouped.propositions_perm {c c' : Condition} (h : Regrouped c c') :
    c.propositions.Perm c'.propositions :=
  h.rel_of_step ((List.Perm.eqv Proposition).comap Condition.propositions) fun _ _ hstep =>
    hstep.propositions_perm

section Exact

variable {α : Type} [Exact α] {connectives : Connectives} {membership : Proposition → α}

/-- **A step changes no truth.** -/
theorem Regroups.evaluate_eq {c c' : Condition} (h : Regroups c c') :
    c.evaluate connectives membership = c'.evaluate connectives membership := by
  induction h with
  | permute hc hc' h => exact hc.evaluate_eq hc' (Link.total_of_perm (h.map _))
  | splice hc hd hc' =>
    refine hc.evaluate_eq hc' ?_
    rw [List.append_cons, List.map_append, List.map_append, List.map_append, List.map_append,
      Link.total_append, Link.total_append, Link.total_append, Link.total_append,
      List.map_singleton, hd.total_singleton]
  | wrap h => exact h.evaluate_singleton.symm
  | unwrap h => exact h.evaluate_singleton
  | inside hc hc' _ ih =>
    refine hc.evaluate_eq hc' ?_
    rw [List.map_append, List.map_append, List.map_cons, List.map_cons, ih]

theorem Regrouped.evaluate_eq {c c' : Condition} (h : Regrouped c c') :
    c.evaluate connectives membership = c'.evaluate connectives membership :=
  h.rel_of_step (eq_equivalence.comap fun c => c.evaluate connectives membership) fun _ _ hstep =>
    hstep.evaluate_eq

/-- **A system that evaluates a condition evaluates it alike when it is regrouped.** -/
theorem Regrouped.evaluate_eq_ok_iff {c c' : Condition} (h : Regrouped c c') (s : InputSide α)
    (fuzzified : Fuzzified α) (truth : α) :
    s.evaluate fuzzified c' = .ok truth ↔ s.evaluate fuzzified c = .ok truth := by
  rw [InputSide.evaluate_eq_ok_iff, InputSide.evaluate_eq_ok_iff, h.evaluate_eq]
  simp only [h.propositions_perm.mem_iff]

end Exact

/-! ## Three conditions -/

/-- Two conditions and a third one are three conditions. -/
theorem regrouped_left (link : Link) (a b c : Condition) :
    Regrouped (.combination link false (.combination link false a [b]) [c])
      (.combination link false a [b, c]) := by
  have houter : Joins link false ([] ++ .combination link false a [b] :: [c]) _ := .mk _ [c]
  have hspliced : Joins link false ([] ++ [a, b] ++ [c]) _ := .mk a [b, c]
  exact .rel _ _ (.splice houter (.mk a [b]) hspliced)

/-- A condition and two others are three conditions. -/
theorem regrouped_right (link : Link) (a b c : Condition) :
    Regrouped (.combination link false a [.combination link false b [c]])
      (.combination link false a [b, c]) := by
  have houter : Joins link false ([a] ++ .combination link false b [c] :: []) _ := .mk a [_]
  have hspliced : Joins link false ([a] ++ [b, c] ++ []) _ := .mk a [b, c]
  exact .rel _ _ (.splice houter (.mk b [c]) hspliced)

end Condition

open Condition

/-- **Order and grouping in a condition do not matter.** -/
theorem regrouping_irrelevant {α : Type} [Exact α] (connectives : Connectives)
    (membership : Proposition → α) :
    (∀ c c' : Condition, Regrouped c c' →
        c'.evaluate connectives membership = c.evaluate connectives membership
        ∧ ∀ (s : InputSide α) (fuzzified : Fuzzified α) (truth : α),
          s.evaluate fuzzified c' = .ok truth ↔ s.evaluate fuzzified c = .ok truth)
      ∧ ∀ a b c : Condition,
        (∃ three, Condition.all [a, b, c] = (.ok three : Except (Error α) Condition)
          ∧ ((a.and b).and c).evaluate connectives membership
            = three.evaluate connectives membership
          ∧ (a.and (b.and c)).evaluate connectives membership
            = three.evaluate connectives membership)
        ∧ ∃ three, Condition.any [a, b, c] = (.ok three : Except (Error α) Condition)
          ∧ ((a.or b).or c).evaluate connectives membership
            = three.evaluate connectives membership
          ∧ (a.or (b.or c)).evaluate connectives membership
            = three.evaluate connectives membership := by
  refine ⟨fun c c' h => ⟨h.evaluate_eq.symm, h.evaluate_eq_ok_iff⟩, fun a b c => ⟨?_, ?_⟩⟩
  · exact ⟨_, rfl, (regrouped_left .and a b c).evaluate_eq,
      (regrouped_right .and a b c).evaluate_eq⟩
  · exact ⟨_, rfl, (regrouped_left .or a b c).evaluate_eq,
      (regrouped_right .or a b c).evaluate_eq⟩

/-- The proposition that something is the term of the same number. -/
def plainly (n : Nat) : Condition := .single ⟨⟨n⟩, ⟨n⟩, false, none⟩

/-- It is not windy, and cold and wet, or there is shelter. -/
def outing : Condition :=
  .combination .or false
    (.combination .and true (plainly 1) [.combination .and false (plainly 2) [plainly 3]])
    [plainly 4]

/-- There is shelter, or it is not wet, windy and cold. -/
def outingAnew : Condition :=
  .combination .or false (plainly 4)
    [.combination .and true (plainly 3) [plainly 1, plainly 2]]

/-- What is denied, one after the other and in another order. -/
theorem regroups_denied :
    Regroups
        (.combination .and true (plainly 1) [.combination .and false (plainly 2) [plainly 3]])
        (.combination .and true (plainly 1) [plainly 2, plainly 3])
      ∧ Regroups (.combination .and true (plainly 1) [plainly 2, plainly 3])
        (.combination .and true (plainly 3) [plainly 1, plainly 2]) := by
  have houter : Joins .and true
      ([plainly 1] ++ .combination .and false (plainly 2) [plainly 3] :: []) _ :=
    .mk (plainly 1) [_]
  have hthree : Joins .and true ([plainly 1] ++ [plainly 2, plainly 3] ++ []) _ :=
    .mk (plainly 1) [plainly 2, plainly 3]
  have hturned : ([plainly 1, plainly 2] ++ [plainly 3]).Perm [plainly 3, plainly 1, plainly 2] :=
    List.perm_append_comm
  exact ⟨.splice houter (.mk (plainly 2) [plainly 3]) hthree, .permute hthree (.mk _ _) hturned⟩

theorem regrouped_outing : Regrouped outing outingAnew := by
  obtain ⟨hspliced, hturned⟩ := regroups_denied
  have hwith : ∀ c, Joins .or false ([] ++ c :: [plainly 4])
      (.combination .or false c [plainly 4]) := fun c => .mk c [plainly 4]
  refine .trans _ _ _ (.rel _ _ (.inside (hwith _) (hwith _) hspliced)) ?_
  refine .trans _ _ _ (.rel _ _ (.inside (hwith _) (hwith _) hturned)) ?_
  exact .rel _ _ (.permute (hwith _) (.mk (plainly 4) [_]) (.swap _ _ _))

open RationalNumbers in
theorem regrouping_irrelevant_outing :
    outing.evaluate ⟨.prod, .probOr⟩ fading = 29 / 30
      ∧ outingAnew.evaluate ⟨.prod, .probOr⟩ fading = 29 / 30
      ∧ (((plainly 1).or (plainly 2)).or (plainly 3)).evaluate ⟨.min, .probOr⟩ fading
        = ((plainly 1).or ((plainly 2).or (plainly 3))).evaluate ⟨.min, .probOr⟩ fading := by
  have hvalue : outing.evaluate ⟨.prod, .probOr⟩ fading = 29 / 30 := by decide +kernel
  obtain ⟨hsame, -⟩ := regrouping_irrelevant ⟨.prod, .probOr⟩ fading
  obtain ⟨-, hgroups⟩ := regrouping_irrelevant ⟨.min, .probOr⟩ fading
  obtain ⟨-, three, -, hleft, hright⟩ := hgroups (plainly 1) (plainly 2) (plainly 3)
  obtain ⟨heq, -⟩ := hsame outing outingAnew regrouped_outing
  exact ⟨hvalue, heq.trans hvalue, hleft.trans hright.symm⟩

end FuzzyInference
