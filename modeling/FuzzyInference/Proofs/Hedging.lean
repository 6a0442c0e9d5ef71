import FuzzyInference.Condition

/-!
# Hedges on a whole condition

A hedge that is put on a condition reaches its propositions and nothing else. On
a single proposition it takes the place of the hedge there was; on a combination
it goes to the propositions that have none, at whatever depth, and leaves the
others as they are.

Both are one and the same change made to every proposition of a tree
(`hedge_eq_map`). What is known of trees whose propositions are changed
(`map_map`, `map_congr`, `propositions_map`) and of the change to a single
proposition gives the laws of hedging (`hedging_laws`).
-/

namespace FuzzyInference

namespace Proposition

/-- The proposition with this hedge, or with none. -/
def hedged (h : Option Hedge) (p : Proposition) : Proposition := { p with hedge := h }

/-- The proposition with this hedge if it has none of its own. -/
def filled (h : Option Hedge) (p : Proposition) : Proposition := { p with hedge := p.hedge.or h }

theorem hedged_hedged (h h' : Option Hedge) (p : Proposition) :
    (p.hedged h).hedged h' = p.hedged h' := rfl

theorem hedged_filled (h h' : Option Hedge) (p : Proposition) :
    (p.filled h).hedged h' = p.hedged h' := rfl

theorem filled_none (p : Proposition) : p.filled none = p := by
  unfold filled
  rw [Option.or_none]

/-- A proposition that has been given a hedge takes no other. -/
theorem filled_filled (h : Hedge) (h' : Option Hedge) (p : Proposition) :
    (p.filled (some h)).filled h' = p.filled (some h) := by
  unfold filled
  cases p.hedge <;> rfl

end Proposition

namespace Condition

/-! ## Changing the propositions of a tree -/

mutual

/-- The condition with every proposition changed, and otherwise the same. -/
def map (f : Proposition → Proposition) : Condition → Condition
  | .single p => .single (f p)
  | .combination link negated first rest => .combination link negated (first.map f) (maps f rest)

/-- The same for each of some conditions. -/
def maps (f : Proposition → Proposition) : List Condition → List Condition
  | [] => []
  | c :: cs => c.map f :: maps f cs

end

variable {f g : Proposition → Proposition}

mutual

/-- The propositions are changed where they are. -/
theorem propositions_map : ∀ c : Condition, (c.map f).propositions = c.propositions.map f
  | .single _ => rfl
  | .combination _ _ first rest => by
    rw [map, propositions, propositions, List.map_append, propositions_map first,
      propositionsOf_maps rest]

theorem propositionsOf_maps :
    ∀ cs : List Condition, propositionsOf (maps f cs) = (propositionsOf cs).map f
  | [] => rfl
  | c :: cs => by
    rw [maps, propositionsOf, propositionsOf, List.map_append, propositions_map c,
      propositionsOf_maps cs]

end

mutual

/-- Two changes in a row are one change. -/
theorem map_map : ∀ c : Condition, (c.map f).map g = c.map (g ∘ f)
  | .single _ => rfl
  | .combination link negated first rest => by
    rw [map, map, map, map_map first, maps_maps rest]

theorem maps_maps : ∀ cs : List Condition, maps g (maps f cs) = maps (g ∘ f) cs
  | [] => rfl
  | c :: cs => by rw [maps, maps, maps, map_map c, maps_maps cs]

end

mutual

/-- What is not changed in any proposition is not changed. -/
theorem map_id : ∀ c : Condition, c.map id = c
  | .single _ => rfl
  | .combination link negated first rest => by rw [map, map_id first, maps_id rest]

theorem maps_id : ∀ cs : List Condition, maps id cs = cs
  | [] => rfl
  | c :: cs => by rw [maps, map_id c, maps_id cs]

end

/-! ## Hedging is such a change -/

mutual

theorem fillHedge_eq_map (h : Option Hedge) :
    ∀ c : Condition, c.fillHedge h = c.map (Proposition.filled h)
  | .single _ => rfl
  | .combination link negated first rest => by
    rw [fillHedge, map, fillHedge_eq_map h first, fillHedges_eq_maps h rest]

theorem fillHedges_eq_maps (h : Option Hedge) :
    ∀ cs : List Condition, fillHedges h cs = maps (Proposition.filled h) cs
  | [] => rfl
  | c :: cs => by rw [fillHedges, maps, fillHedge_eq_map h c, fillHedges_eq_maps h cs]

end

/-- What a hedge does to the propositions of a condition. -/
def hedging (h : Option Hedge) : Condition → Proposition → Proposition
  | .single _ => Proposition.hedged h
  | .combination .. => Proposition.filled h

/-- **A hedge on a condition is the same change to each of its propositions.** -/
theorem hedge_eq_map (h : Option Hedge) (c : Condition) : c.hedge h = c.map (c.hedging h) := by
  cases c with
  | single p => rfl
  | combination link negated first rest => exact fillHedge_eq_map h _

/-- Whatever a hedge does to a proposition, only its hedge is another. -/
theorem hedged_comp_hedging (h h' : Option Hedge) (c : Condition) :
    Proposition.hedged h' ∘ c.hedging h = Proposition.hedged h' := by
  cases c with
  | single p => exact funext (Proposition.hedged_hedged h h')
  | combination link negated first rest => exact funext (Proposition.hedged_filled h h')

theorem hedge_not (h : Option Hedge) (c : Condition) : c.not.hedge h = (c.hedge h).not := by
  cases c with
  | single p => rfl
  | combination link negated first rest =>
    show fillHedge h (.combination link (!negated) first rest)
      = (fillHedge h (.combination link negated first rest)).not
    rw [fillHedge, fillHedge]
    rfl

section Combinations

variable {link : Link} {negated : Bool} {first : Condition} {rest : List Condition}

theorem hedge_combination (h : Option Hedge) :
    (combination link negated first rest).hedge h
      = (combination link negated first rest).map (Proposition.filled h) :=
  hedge_eq_map h _

/-- A combination that has been given a hedge takes no other. -/
theorem hedge_hedge_combination (h : Hedge) (h' : Option Hedge) :
    ((combination link negated first rest).hedge (some h)).hedge h'
      = (combination link negated first rest).hedge (some h) := by
  have hfilled : Proposition.filled h' ∘ Proposition.filled (some h)
      = Proposition.filled (some h) := funext (Proposition.filled_filled h h')
  rw [hedge_combination (some h), map, hedge_combination h', ← map, map_map, hfilled]

theorem hedge_none_combination :
    (combination link negated first rest).hedge none = combination link negated first rest := by
  have hid : Proposition.filled none = id := funext Proposition.filled_none
  rw [hedge_combination, hid, map_id]

end Combinations

end Condition

/-- **The laws of hedging.** A hedge leaves everything of a condition as it is but hedges of
propositions, and it makes no difference whether a condition is hedged or negated first. A single
proposition has the hedge it was given last. Of a combination, each proposition keeps its hedge or
is given this one if it has none, so the first hedge is there to stay, and no hedge changes
nothing. -/
theorem hedging_laws :
    (∀ (c : Condition) (h : Option Hedge),
        (c.hedge h).map (Proposition.hedged none) = c.map (Proposition.hedged none)
        ∧ c.not.hedge h = (c.hedge h).not)
      ∧ (∀ (p : Proposition) (h h' : Option Hedge),
        ((Condition.single p).hedge h).propositions = [{ p with hedge := h }]
        ∧ ((Condition.single p).hedge h).hedge h' = (Condition.single p).hedge h')
      ∧ ∀ (link : Link) (negated : Bool) (first : Condition) (rest : List Condition),
        (∀ h : Option Hedge,
          ((Condition.combination link negated first rest).hedge h).propositions
            = (Condition.combination link negated first rest).propositions.map
              fun p => { p with hedge := p.hedge.or h })
        ∧ (∀ (h : Hedge) (h' : Option Hedge),
          ((Condition.combination link negated first rest).hedge (some h)).hedge h'
            = (Condition.combination link negated first rest).hedge (some h))
        ∧ (Condition.combination link negated first rest).hedge none
          = Condition.combination link negated first rest := by
  refine ⟨fun c h => ⟨?_, c.hedge_not h⟩, fun p h h' => ⟨rfl, rfl⟩,
    fun link negated first rest => ⟨fun h => ?_, fun h h' => ?_, ?_⟩⟩
  · rw [Condition.hedge_eq_map, Condition.map_map, Condition.hedged_comp_hedging]
  · rw [Condition.hedge_combination]
    exact Condition.propositions_map _
  · exact Condition.hedge_hedge_combination h h'
  · exact Condition.hedge_none_combination

end FuzzyInference
