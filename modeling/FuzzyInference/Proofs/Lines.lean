import Mathlib.Analysis.Convex.Segment
import FuzzyInference.Proofs.Outlines

/-!
# Lines through points

A line is read off its points by going from one to the next until the segment is
reached on which a number lies. With exact numbers something is found for every
number, and what is found is what the points suggest (`lines_follow_points`): a
height between those of two neighbours, one of the given heights over a given
abscissa, and level ends.

The search says nothing about a number left of where it begins, so its facts are
about `heightFrom`, the height of the line from a point on. They are proved by
induction on the points that follow, and each asks no more than on which side of
the next point the number lies.

A line that falls is one that rises, turned upside down.
-/

namespace FuzzyInference

open Checked
open Set (Icc Ici uIcc)

variable {α : Type} [Exact α]

theorem Ascending.isChain : ∀ {vs : List α}, Ascending vs → vs.IsChain (· ≤ ·)
  | [], _ => List.IsChain.nil
  | [_], _ => List.IsChain.singleton _
  | _ :: _ :: _, h => List.isChain_cons_cons.mpr ⟨h.1, isChain h.2⟩

/-- Numbers that ascend from neighbour to neighbour ascend altogether. -/
theorem Ascending.pairwise {vs : List α} (h : Ascending vs) : vs.Pairwise (· ≤ ·) :=
  List.isChain_iff_pairwise.mp h.isChain

/-- The first of ascending numbers is the least. -/
theorem head_le_of_mem {β : Type} {f : β → α} {u : β} {rest : List β}
    (h : ((u :: rest).map f).Pairwise (· ≤ ·)) : ∀ v ∈ u :: rest, f u ≤ f v := by
  intro v hv
  rcases List.mem_cons.mp hv with rfl | hv
  · exact le_rfl
  · exact List.rel_of_pairwise_cons h (List.mem_map_of_mem hv)

/-! ## From a point on -/

namespace Numeric

variable {x x' a b y₁ y₂ : α} {u v w : α × α} {rest : List (α × α)}

/-- The height over `x` of the line from the point `u` on. -/
def heightFrom (x : α) (u : α × α) : List (α × α) → α
  | [] => u.2
  | v :: rest => if x ≤ v.1 then onSegment x u.1 u.2 v.1 v.2 else heightFrom x v rest

theorem heightFrom_within (h : x ≤ v.1) :
    heightFrom x u (v :: rest) = onSegment x u.1 u.2 v.1 v.2 := if_pos h

theorem heightFrom_beyond (h : v.1 < x) :
    heightFrom x u (v :: rest) = heightFrom x v rest := if_neg h.not_ge

theorem fromFirst?_eq_some_heightFrom (h : u.1 ≤ x) :
    fromFirst? x (u :: rest) = some (heightFrom x u rest) := by
  induction rest generalizing u with
  | nil => exact fromFirst?_after h
  | cons v rest ih =>
    rcases le_or_gt x v.1 with hv | hv
    · rw [heightFrom_within hv]
      exact fromFirst?_within h hv
    · rw [heightFrom_beyond hv, ← ih hv.le]
      exact fromFirst?_beyond hv.not_ge

theorem interpolate_before (h : x < u.1) : interpolate x (u :: rest) = u.2 := by
  unfold interpolate
  rw [interpolate?_before h, Option.getD_some]

theorem interpolate_onwards (h : u.1 ≤ x) :
    interpolate x (u :: rest) = heightFrom x u rest := by
  unfold interpolate
  rw [interpolate?_onwards h.not_gt, fromFirst?_eq_some_heightFrom h, Option.getD_some]

/-! ## One segment -/

/-- Along a slanted segment the height changes like the part of the way that has been gone. -/
theorem onSegment_eq_ratio (h : a ≠ b) :
    onSegment x a y₁ b y₂ = y₁ + (x - a) / (b - a) * (y₂ - y₁) := by
  rw [onSegment_slanted h, div_mul_eq_mul_div]

/-- A segment stays between the heights of its ends. -/
theorem onSegment_mem_uIcc (ha : a ≤ x) (hb : x ≤ b) : onSegment x a y₁ b y₂ ∈ uIcc y₁ y₂ := by
  rcases (ha.trans hb).eq_or_lt with rfl | hab
  · rw [onSegment_vertical]
    exact Set.right_mem_uIcc
  · have hwide : 0 < b - a := sub_pos.mpr hab
    have hratio : (x - a) / (b - a) ∈ Icc 0 1 :=
      ⟨div_nonneg (sub_nonneg.mpr ha) hwide.le, (div_le_one hwide).mpr (sub_le_sub_right hb a)⟩
    rw [← segment_eq_uIcc, segment_eq_image', onSegment_eq_ratio hab.ne]
    exact ⟨_, hratio, rfl⟩

/-- A segment rises if its second point is not lower. -/
theorem onSegment_mono (hab : a ≤ b) (hy : y₁ ≤ y₂) (hx : x ≤ x') :
    onSegment x a y₁ b y₂ ≤ onSegment x' a y₁ b y₂ := by
  rcases hab.eq_or_lt with rfl | hab
  · rw [onSegment_vertical, onSegment_vertical]
  · have hratio : (x - a) / (b - a) ≤ (x' - a) / (b - a) :=
      div_le_div_of_nonneg_right (sub_le_sub_right hx a) (sub_nonneg.mpr hab.le)
    rw [onSegment_eq_ratio hab.ne, onSegment_eq_ratio hab.ne]
    exact add_le_add_right (mul_le_mul_of_nonneg_right hratio (sub_nonneg.mpr hy)) y₁

theorem onSegment_neg : onSegment x a (-y₁) b (-y₂) = -onSegment x a y₁ b y₂ := by
  by_cases h : a = b
  · rw [h, onSegment_vertical, onSegment_vertical]
  · rw [onSegment_eq_ratio h, onSegment_eq_ratio h]
    ring

/-! ## All segments -/

/-- Up to the last point, the height is that on a segment between neighbours. -/
theorem exists_neighbours (hu : u.1 ≤ x) (hrest : rest ≠ [])
    (hlast : x ≤ ((u :: rest).getLast (List.cons_ne_nil u rest)).1) :
    ∃ v w, [v, w] <:+: u :: rest ∧ x ∈ Icc v.1 w.1
      ∧ heightFrom x u rest = onSegment x v.1 v.2 w.1 w.2 := by
  induction rest generalizing u with
  | nil => exact absurd rfl hrest
  | cons v rest ih =>
    rcases le_or_gt x v.1 with hv | hv
    · exact ⟨u, v, ⟨[], rest, rfl⟩, ⟨hu, hv⟩, heightFrom_within hv⟩
    · rw [List.getLast_cons_cons] at hlast
      have hmore : rest ≠ [] := by
        rintro rfl
        exact hv.not_ge hlast
      obtain ⟨w, w', hinfix, hmem, hheight⟩ := ih hv.le hmore hlast
      exact ⟨w, w', hinfix.trans (List.suffix_cons u _).isInfix, hmem,
        (heightFrom_beyond hv).trans hheight⟩

/-- Beyond the last point, the height is that of the last point. -/
theorem heightFrom_after (hasc : ((u :: rest).map Prod.fst).Pairwise (· ≤ ·))
    (hlast : ((u :: rest).getLast (List.cons_ne_nil u rest)).1 < x) :
    heightFrom x u rest = ((u :: rest).getLast (List.cons_ne_nil u rest)).2 := by
  induction rest generalizing u with
  | nil => rfl
  | cons v rest ih =>
    rw [List.getLast_cons_cons] at hlast ⊢
    have hv : v.1 < x := (head_le_of_mem hasc.tail _ (List.getLast_mem _)).trans_lt hlast
    rw [heightFrom_beyond hv]
    exact ih hasc.tail hlast

/-- What holds of the heights of all points, and of whatever is between, holds of every height. -/
theorem heightFrom_mem {s : Set α} (hs : s.OrdConnected) (hu : u.1 ≤ x)
    (h : ∀ v ∈ u :: rest, v.2 ∈ s) : heightFrom x u rest ∈ s := by
  induction rest generalizing u with
  | nil => exact h u List.mem_cons_self
  | cons v rest ih =>
    have hrest : ∀ w ∈ v :: rest, w.2 ∈ s := fun w hw => h w (List.mem_cons_of_mem u hw)
    rcases le_or_gt x v.1 with hv | hv
    · rw [heightFrom_within hv]
      exact hs.uIcc_subset (h u List.mem_cons_self) (hrest v List.mem_cons_self)
        (onSegment_mem_uIcc hu hv)
    · rw [heightFrom_beyond hv]
      exact ih hv.le hrest

/-- Over the abscissa of a point there is the height of a point with that abscissa. -/
theorem exists_heightFrom_eq (hasc : ((u :: rest).map Prod.fst).Pairwise (· ≤ ·))
    (hw : w ∈ u :: rest) : ∃ v ∈ u :: rest, v.1 = w.1 ∧ heightFrom w.1 u rest = v.2 := by
  induction rest generalizing u with
  | nil =>
    obtain rfl := List.mem_singleton.mp hw
    exact ⟨w, hw, rfl, rfl⟩
  | cons v rest ih =>
    have hmem : v ∈ u :: v :: rest := List.mem_cons_of_mem u List.mem_cons_self
    rcases le_or_gt w.1 v.1 with hv | hv
    · rw [heightFrom_within hv]
      rcases List.mem_cons.mp hw with rfl | hrest
      · -- a vertical segment has the height of its end, any other starts with that of its start
        by_cases hside : w.1 = v.1
        · exact ⟨v, hmem, hside.symm, by rw [hside, onSegment_vertical]⟩
        · exact ⟨w, hw, rfl, onSegment_start hside⟩
      · have hend : w.1 = v.1 := hv.antisymm (head_le_of_mem hasc.tail w hrest)
        exact ⟨v, hmem, hend.symm, by rw [hend, onSegment_end]⟩
    · have hrest : w ∈ v :: rest := by
        rcases List.mem_cons.mp hw with rfl | hrest
        · exact absurd (head_le_of_mem hasc v hmem) hv.not_ge
        · exact hrest
      obtain ⟨v', hv', habscissa, hheight⟩ := ih hasc.tail hrest
      exact ⟨v', List.mem_cons_of_mem u hv', habscissa, (heightFrom_beyond hv).trans hheight⟩

/-- Where abscissas differ, those of neighbours do. -/
theorem neighbours_lt {points : List (α × α)} (hasc : (points.map Prod.fst).Pairwise (· < ·))
    (h : [v, w] <:+: points) : v.1 < w.1 := by
  have hpair : ([v, w].map Prod.fst).Pairwise (· < ·) := hasc.sublist (h.sublist.map Prod.fst)
  exact List.rel_of_pairwise_cons hpair List.mem_cons_self

/-- Where abscissas differ, a line follows the segment between any two neighbours. -/
theorem heightFrom_eq_onSegment (hasc : ((u :: rest).map Prod.fst).Pairwise (· < ·))
    (hvw : [v, w] <:+: u :: rest) (hv : v.1 ≤ x) (hw : x ≤ w.1) :
    heightFrom x u rest = onSegment x v.1 v.2 w.1 w.2 := by
  induction rest generalizing u with
  | nil => exact absurd hvw.length_le (Nat.not_succ_le_self 1)
  | cons u' rest ih =>
    rcases List.infix_cons_iff.mp hvw with hfirst | hrest
    · obtain ⟨rfl, hsecond⟩ := List.cons_prefix_cons.mp hfirst
      obtain ⟨rfl, -⟩ := List.cons_prefix_cons.mp hsecond
      exact heightFrom_within hw
    · have hasc' : ((u' :: rest).map Prod.fst).Pairwise (· < ·) := hasc.tail
      have hmem : v ∈ u' :: rest := hrest.subset List.mem_cons_self
      have hle : u'.1 ≤ v.1 := head_le_of_mem (hasc'.imp le_of_lt) v hmem
      rcases (hle.trans hv).eq_or_lt with hx | hx
      · -- the first segment ends where this one begins, and there both have the height of `v`
        obtain rfl : v = u' := by
          rcases List.mem_cons.mp hmem with hfirst | hlater
          · exact hfirst
          · have hlt : u'.1 < v.1 := List.rel_of_pairwise_cons hasc' (List.mem_map_of_mem hlater)
            exact absurd (hv.trans hx.ge) hlt.not_ge
        have hslanted : v.1 < w.1 := neighbours_lt hasc' hrest
        rw [heightFrom_within hx.ge, ← hx, onSegment_end, onSegment_start hslanted.ne]
      · rw [heightFrom_beyond hx]
        exact ih hasc' hrest

/-- Where no height is below the one before, the line does not fall. -/
theorem heightFrom_mono (hasc : ((u :: rest).map Prod.fst).Pairwise (· ≤ ·))
    (hrise : ((u :: rest).map Prod.snd).Pairwise (· ≤ ·)) (hu : u.1 ≤ x) (hx : x ≤ x') :
    heightFrom x u rest ≤ heightFrom x' u rest := by
  induction rest generalizing u with
  | nil => exact le_rfl
  | cons v rest ih =>
    have hmem : v ∈ u :: v :: rest := List.mem_cons_of_mem u List.mem_cons_self
    have hstep : u.2 ≤ v.2 := head_le_of_mem hrise v hmem
    rcases le_or_gt x' v.1 with hv' | hv'
    · rw [heightFrom_within (hx.trans hv'), heightFrom_within hv']
      exact onSegment_mono (head_le_of_mem hasc v hmem) hstep hx
    · rw [heightFrom_beyond hv']
      rcases le_or_gt x v.1 with hv | hv
      · -- the point between them is as high as the one at least and as the other at most
        have hbelow : onSegment x u.1 u.2 v.1 v.2 ≤ v.2 := by
          have hmem : onSegment x u.1 u.2 v.1 v.2 ∈ uIcc u.2 v.2 := onSegment_mem_uIcc hu hv
          rw [Set.uIcc_of_le hstep] at hmem
          exact hmem.2
        have habove : v.2 ≤ heightFrom x' v rest :=
          heightFrom_mem Set.ordConnected_Ici hv'.le (head_le_of_mem hrise.tail)
        rw [heightFrom_within hv]
        exact hbelow.trans habove
      · rw [heightFrom_beyond hv]
        exact ih hasc.tail hrise.tail hv.le

/-! ## From one end to the other -/

theorem interpolate_single (x : α) (u : α × α) : interpolate x [u] = u.2 := by
  rcases lt_or_ge x u.1 with hu | hu
  · exact interpolate_before hu
  · exact interpolate_onwards hu

theorem interpolate_after (hasc : ((u :: rest).map Prod.fst).Pairwise (· ≤ ·))
    (hlast : ((u :: rest).getLast (List.cons_ne_nil u rest)).1 < x) :
    interpolate x (u :: rest) = ((u :: rest).getLast (List.cons_ne_nil u rest)).2 := by
  have hu : u.1 < x := (head_le_of_mem hasc _ (List.getLast_mem _)).trans_lt hlast
  rw [interpolate_onwards hu.le, heightFrom_after hasc hlast]

/-- From the first point to the last, heights are between those of neighbours. -/
theorem interpolate_mem_uIcc (hrest : rest ≠ []) (hu : u.1 ≤ x)
    (hlast : x ≤ ((u :: rest).getLast (List.cons_ne_nil u rest)).1) :
    ∃ v w, [v, w] <:+: u :: rest ∧ x ∈ Icc v.1 w.1
      ∧ interpolate x (u :: rest) ∈ uIcc v.2 w.2 := by
  obtain ⟨v, w, hvw, hx, hheight⟩ := exists_neighbours hu hrest hlast
  rw [interpolate_onwards hu, hheight]
  exact ⟨v, w, hvw, hx, onSegment_mem_uIcc hx.1 hx.2⟩

theorem interpolate_mem {s : Set α} (hs : s.OrdConnected) (h : ∀ v ∈ u :: rest, v.2 ∈ s) (x : α) :
    interpolate x (u :: rest) ∈ s := by
  rcases lt_or_ge x u.1 with hu | hu
  · rw [interpolate_before hu]
    exact h u List.mem_cons_self
  · rw [interpolate_onwards hu]
    exact heightFrom_mem hs hu h

theorem exists_interpolate_eq (hasc : ((u :: rest).map Prod.fst).Pairwise (· ≤ ·))
    (hw : w ∈ u :: rest) :
    ∃ v ∈ u :: rest, v.1 = w.1 ∧ interpolate w.1 (u :: rest) = v.2 := by
  rw [interpolate_onwards (head_le_of_mem hasc w hw)]
  exact exists_heightFrom_eq hasc hw

/-- Where abscissas differ, the line goes through every point. -/
theorem interpolate_point (hasc : ((u :: rest).map Prod.fst).Pairwise (· < ·))
    (hw : w ∈ u :: rest) : interpolate w.1 (u :: rest) = w.2 := by
  obtain ⟨v, hv, habscissa, hheight⟩ := exists_interpolate_eq (hasc.imp le_of_lt) hw
  have hdistinct : ((u :: rest).map Prod.fst).Nodup := hasc.imp ne_of_lt
  rw [hheight, List.inj_on_of_nodup_map hdistinct hv hw habscissa]

theorem interpolate_eq_onSegment (hasc : ((u :: rest).map Prod.fst).Pairwise (· < ·))
    (hvw : [v, w] <:+: u :: rest) (hv : v.1 ≤ x) (hw : x ≤ w.1) :
    interpolate x (u :: rest) = onSegment x v.1 v.2 w.1 w.2 := by
  have hu : u.1 ≤ v.1 := head_le_of_mem (hasc.imp le_of_lt) v (hvw.subset List.mem_cons_self)
  rw [interpolate_onwards (hu.trans hv), heightFrom_eq_onSegment hasc hvw hv hw]

theorem interpolate_mono (hasc : ((u :: rest).map Prod.fst).Pairwise (· ≤ ·))
    (hrise : ((u :: rest).map Prod.snd).Pairwise (· ≤ ·)) (hx : x ≤ x') :
    interpolate x (u :: rest) ≤ interpolate x' (u :: rest) := by
  rcases lt_or_ge x u.1 with hu | hu
  · rw [interpolate_before hu]
    exact interpolate_mem Set.ordConnected_Ici (head_le_of_mem hrise) x'
  · rw [interpolate_onwards hu, interpolate_onwards (hu.trans hx)]
    exact heightFrom_mono hasc hrise hu hx

/-! ## Upside down -/

/-- A point seen upside down. -/
def upsideDown (u : α × α) : α × α := (u.1, -u.2)

theorem heightFrom_upsideDown :
    heightFrom x (upsideDown u) (rest.map upsideDown) = -heightFrom x u rest := by
  induction rest generalizing u with
  | nil => rfl
  | cons v rest ih =>
    rcases le_or_gt x v.1 with hv | hv
    · rw [heightFrom_within hv, ← onSegment_neg]
      exact heightFrom_within hv
    · rw [heightFrom_beyond hv, ← ih]
      exact heightFrom_beyond hv

theorem interpolate_upsideDown (x : α) (u : α × α) (rest : List (α × α)) :
    interpolate x ((u :: rest).map upsideDown) = -interpolate x (u :: rest) := by
  rcases lt_or_ge x u.1 with h | h
  · rw [interpolate_before h]
    exact interpolate_before h
  · rw [interpolate_onwards h, ← heightFrom_upsideDown]
    exact interpolate_onwards h

/-- Where no height is above the one before, the line does not rise. -/
theorem interpolate_anti (hasc : ((u :: rest).map Prod.fst).Pairwise (· ≤ ·))
    (hfall : ((u :: rest).map Prod.snd).Pairwise (· ≥ ·)) (hx : x ≤ x') :
    interpolate x' (u :: rest) ≤ interpolate x (u :: rest) := by
  have hasc' : (((u :: rest).map upsideDown).map Prod.fst).Pairwise (· ≤ ·) := by
    rw [List.map_map]
    exact hasc
  have hrise : (((u :: rest).map upsideDown).map Prod.snd).Pairwise (· ≤ ·) := by
    rw [List.pairwise_map] at hfall
    rw [List.map_map, List.pairwise_map]
    exact hfall.imp neg_le_neg
  have hmono := interpolate_mono hasc' hrise hx
  rw [← List.map_cons, interpolate_upsideDown, interpolate_upsideDown] at hmono
  exact neg_le_neg_iff.mp hmono

end Numeric

namespace Polyline

open Numeric

/-- Where the points of a line are. -/
def abscissas (p : Polyline α) : List α := p.points.map Prod.fst

/-- The heights of the points of a line. -/
def heights (p : Polyline α) : List α := p.points.map Prod.snd

theorem heights_ne_nil (p : Polyline α) : p.heights ≠ [] := fun h =>
  p.nonempty (List.map_eq_nil_iff.mp h)

/-- The first of the points. -/
def first (p : Polyline α) : α × α := p.points.head p.nonempty

/-- The last of the points. -/
def last (p : Polyline α) : α × α := p.points.getLast p.nonempty

/-- What a line has to do with its points. -/
structure FollowsPoints (p : Polyline α) : Prop where
  /-- There is a height everywhere, and no division by zero leads to it. -/
  answers : ∀ x, interpolate? x p.points = some (p.value x)
    ∧ p.checked.value (number x) = number (p.value x)
  /-- A line of one point has the height of that point. -/
  single : p.points.length = 1 → ∀ x, p.value x = p.first.2
  /-- Left of the points a line is level. -/
  before : ∀ x < p.first.1, p.value x = p.first.2
  /-- Right of the points a line is level. -/
  after : ∀ x > p.last.1, p.value x = p.last.2
  /-- In between, heights are between those of two neighbours that enclose the number. -/
  within : 1 < p.points.length → ∀ x ∈ Icc p.first.1 p.last.1,
    ∃ u v, [u, v] <:+: p.points ∧ x ∈ Icc u.1 v.1 ∧ p.value x ∈ uIcc u.2 v.2
  /-- No height is below the least of the points or above their greatest. -/
  bounded : ∀ x, p.value x ∈ Icc (p.heights.min p.heights_ne_nil) (p.heights.max p.heights_ne_nil)
  /-- Over an abscissa that occurs there is one of the heights that are given for it. -/
  meets : ∀ u ∈ p.points, ∃ v ∈ p.points, v.1 = u.1 ∧ p.value u.1 = v.2
  /-- Where no abscissa occurs twice, a line goes through all of its points. -/
  passes : p.abscissas.Pairwise (· < ·) → ∀ u ∈ p.points, p.value u.1 = u.2
  /-- Where no abscissa occurs twice, a line is straight between neighbours. -/
  straight : p.abscissas.Pairwise (· < ·) → ∀ u v, [u, v] <:+: p.points →
    u.1 < v.1 ∧ ∀ x ∈ Icc u.1 v.1, p.value x = u.2 + (x - u.1) / (v.1 - u.1) * (v.2 - u.2)
  /-- Where no height is below the one before, a line does not fall. -/
  rises : p.heights.Pairwise (· ≤ ·) → Monotone p.value
  /-- Where no height is above the one before, a line does not rise. -/
  falls : p.heights.Pairwise (· ≥ ·) → Antitone p.value

theorem interpolate?_points (p : Polyline α) (x : α) :
    interpolate? x p.points = some (p.value x) := by
  obtain ⟨v, hv⟩ := exists_interpolate? p.nonempty x
  rw [value_eq_of_interpolate? hv, hv]

/-- **A line follows its points.** Whatever points it is made of, a line has a height everywhere. It
is level beyond its ends and stays between neighbouring points elsewhere, so it is nowhere lower or
higher than all of them. Over a given abscissa it has a given height, also where the line steps;
where it does not, it goes straight from one point to the next. Points that rise or fall make a line
that does. -/
theorem lines_follow_points (p : Polyline α) : ofPoints p.points = .ok p ∧ p.FollowsPoints := by
  refine ⟨p.ofPoints_points, ?_⟩
  have hanswers := p.interpolate?_points
  have hchecked := p.checked_value
  obtain ⟨_ | ⟨u, rest⟩, hne, hasc⟩ := p
  · exact absurd rfl hne
  · have hle : ((u :: rest).map Prod.fst).Pairwise (· ≤ ·) := hasc.pairwise
    exact {
      answers := fun x => ⟨hanswers x, hchecked x⟩
      single := fun hlength x => by
        obtain rfl : rest = [] := List.length_eq_zero_iff.mp (Nat.succ.inj hlength)
        exact interpolate_single x u
      before := fun x hx => interpolate_before hx
      after := fun x hx => interpolate_after hle hx
      within := fun hlength x hx => by
        have hrest : rest ≠ [] := List.ne_nil_of_length_pos (Nat.lt_of_succ_lt_succ hlength)
        exact interpolate_mem_uIcc hrest hx.1 hx.2
      bounded := fun x => by
        refine interpolate_mem Set.ordConnected_Icc (fun v hv => ?_) x
        have hheight : v.2 ∈ (u :: rest).map Prod.snd := List.mem_map_of_mem hv
        exact ⟨List.min_le_of_mem hheight, List.le_max_of_mem hheight⟩
      meets := fun v hv => exists_interpolate_eq hle hv
      passes := fun hlt v hv => interpolate_point hlt hv
      straight := fun hlt v w hvw => by
        have hslanted : v.1 < w.1 := neighbours_lt hlt hvw
        refine ⟨hslanted, fun x hx => ?_⟩
        rw [← onSegment_eq_ratio hslanted.ne]
        exact interpolate_eq_onSegment hlt hvw hx.1 hx.2
      rises := fun hrise x x' hx => interpolate_mono hle hrise hx
      falls := fun hfall x x' hx => interpolate_anti hle hfall hx }

section Steps

open RationalNumbers

/-- One step up between two levels. -/
def stair : Polyline ℚ := ⟨[(0, 0), (1, 0), (1, 1), (2, 1)], by decide, by decide⟩

/-- A way down that gets steeper. -/
def descent : Polyline ℚ := ⟨[(1, 3), (2, 2), (3, 0)], by decide, by decide⟩

theorem lines_follow_points_stair_and_descent :
    stair.heights.Pairwise (· ≤ ·) ∧ stair.value (1 / 2) ≤ stair.value (3 / 2)
      ∧ descent.abscissas.Pairwise (· < ·) ∧ descent.value 2 = 2
      ∧ descent.value (3 / 2) = 3 + (3 / 2 - 1) / (2 - 1) * (2 - 3)
      ∧ descent.heights.Pairwise (· ≥ ·) ∧ descent.value 3 ≤ descent.value (3 / 2) := by
  have hrise : stair.heights.Pairwise (· ≤ ·) := by decide
  have hasc : descent.abscissas.Pairwise (· < ·) := by decide
  have hfall : descent.heights.Pairwise (· ≥ ·) := by decide
  obtain ⟨-, hstair⟩ := lines_follow_points stair
  obtain ⟨-, hdescent⟩ := lines_follow_points descent
  have hmiddle : (3 / 2 : ℚ) ∈ Icc 1 2 := by decide +kernel
  obtain ⟨-, hstraight⟩ := hdescent.straight hasc (1, 3) (2, 2) ⟨[], [(3, 0)], rfl⟩
  exact ⟨hrise, hstair.rises hrise (by decide +kernel), hasc,
    hdescent.passes hasc (2, 2) (by decide), hstraight _ hmiddle, hfall,
    hdescent.falls hfall (by decide +kernel)⟩

end Steps

end Polyline

end FuzzyInference
