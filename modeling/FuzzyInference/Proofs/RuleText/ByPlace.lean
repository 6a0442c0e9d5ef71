import Mathlib.Data.List.TakeWhile
import FuzzyInference.Proofs.RuleText.Levels
import FuzzyInference.Proofs.RuleText.Reading

/-!
# Reading by place

Lists come apart as they are read, so the readers of this library cannot reach
outside of one, and they are seen to end because what is left gets shorter. A
program that keeps its lists as they are and goes by places in them has to take
care of both. It cuts a list between two places, takes the place before the last,
and goes round a loop until it finds what it looks for.

Here the readers are such programs. A place outside of a list stops them, and so
does a number below zero, a combination of no conditions, or a level deeper than
a limit. Nothing is said about their loops ending: with a number of rounds they
get so far, and a program that no number of rounds brings to an end has no outcome
(`run`). Each of them is shown to end with what the reader answers (`ends`), hence
for none of these reasons. In particular it goes down no further than parentheses
nest, whether they are balanced or not (`condition_eq`).
-/

namespace FuzzyInference.RuleText

/-- Why a program ends without a result. -/
inductive Stop where
  | refusal (cause : RuleTextError)
  /-- A place is outside of a list. -/
  | outside
  | belowZero
  /-- Conditions are to be joined, and there are none. -/
  | noConditions
  /-- A level is further down than the limit. -/
  | tooDeep

/-- Programs that may stop. One that never ends has no outcome. -/
abbrev Run (β : Type) := ExceptT Stop Option β

namespace ByPlace

variable {α β γ ω ν : Type}

/-- The program that ends with an answer or a refusal. -/
def ends (x : Except RuleTextError β) : Run β := ExceptT.mk (some (x.mapError .refusal))

theorem ends_ok_bind (b : β) (f : β → Run γ) : (ends (.ok b) >>= f) = f b := rfl

/-- Programs in a row end with what they come to if each ends with its part. -/
theorem ends_bind {x : Except RuleTextError β} {f : β → Run γ} {g : β → Except RuleTextError γ}
    (h : ∀ b, x = .ok b → f b = ends (g b)) : (ends x >>= f) = ends (x >>= g) := by
  cases x with
  | error e => rfl
  | ok b => exact h b rfl

/-! ## Rounds -/

/-- What there is of a program whose rounds are used up. -/
def unfinished : Run β := ExceptT.mk none

open Classical in
/-- What a program comes to, which is the same for every number of rounds that is large enough. -/
noncomputable def run (program : Nat → Run β) : Run β :=
  if h : ∃ outcome enough, ∀ rounds > enough, program rounds = outcome then h.choose
  else unfinished

theorem run_eq {program : Nat → Run β} {outcome : Run β} (enough : Nat)
    (h : ∀ rounds > enough, program rounds = outcome) : run program = outcome := by
  have hconstant : ∃ outcome enough, ∀ rounds > enough, program rounds = outcome :=
    ⟨outcome, enough, h⟩
  obtain ⟨enough', h'⟩ := hconstant.choose_spec
  -- both outcomes are those of any number of rounds that is larger than either
  have hrounds : program (max enough enough' + 1) = outcome := h _ (by omega)
  unfold run
  rw [dif_pos hconstant, ← hrounds]
  exact (h' _ (by omega)).symm

/-! ## Places -/

/-- What is at a place. -/
def get (xs : List α) (place : Nat) : Run α :=
  match xs[place]? with
  | some x => pure x
  | none => throw .outside

/-- What is from a place up to another. -/
def slice (xs : List α) (start stop : Nat) : Run (List α) :=
  if start ≤ stop ∧ stop ≤ xs.length then pure ((xs.take stop).drop start) else throw .outside

/-- What is from a place on. -/
def sliceFrom (xs : List α) (start : Nat) : Run (List α) :=
  if start ≤ xs.length then pure (xs.drop start) else throw .outside

/-- The difference of two numbers. -/
def less (n k : Nat) : Run Nat := if k ≤ n then pure (n - k) else throw .belowZero

theorem sliceFrom_append (u v : List α) : sliceFrom (u ++ v) u.length = ends (.ok v) := by
  unfold sliceFrom
  rw [if_pos (by simp), List.drop_left]
  rfl

theorem slice_cons_append (x : α) (u v : List α) :
    slice (x :: (u ++ v)) 1 (u.length + 1) = ends (.ok u) := by
  unfold slice
  rw [if_pos (by simp), List.take_succ_cons, List.take_left]
  rfl

theorem less_succ (n : Nat) : less (n + 1) 1 = ends (.ok n) := by
  unfold less
  rw [if_pos (by omega)]
  rfl

/-! ## Parentheses -/

/-- Looks for the partner of a parenthesis in so many rounds, with so many open. -/
def partnerFrom (items : List Item) : Nat → Nat → Nat → Run (Option Nat)
  | 0, _, _ => unfinished
  | rounds + 1, place, opened =>
    match items[place]? with
    | none => pure none
    | some .opening => partnerFrom items rounds (place + 1) (opened + 1)
    | some .closing =>
      if opened = 0 then pure none
      else if opened = 1 then pure (some place)
      else partnerFrom items rounds (place + 1) (opened - 1)
    | some _ => partnerFrom items rounds (place + 1) opened

/-- The place of the parenthesis that closes the one at the start. -/
noncomputable def partner (items : List Item) : Run (Option Nat) :=
  run fun rounds => partnerFrom items rounds 0 0

/-- Takes parentheses around everything away in so many rounds. -/
noncomputable def unwrapping : Nat → List Item → Run (List Item)
  | 0, _ => unfinished
  | rounds + 1, items =>
    if items.head? = some .opening then do
      let close ← partner items
      let last ← less items.length 1
      if close = some last then do
        let inner ← slice items 1 last
        unwrapping rounds inner
      else pure items
    else pure items

/-- Takes parentheses around everything away. -/
noncomputable def unwrapped (items : List Item) : Run (List Item) :=
  run fun rounds => unwrapping rounds items

theorem partnerFrom_append (before rest : List Item) (opened : Nat) {rounds : Nat}
    (hrounds : rest.length < rounds) :
    partnerFrom (before ++ rest) rounds before.length opened
      = ends (.ok ((closeIndexFrom? opened rest).map (· + before.length))) := by
  obtain ⟨rounds, rfl⟩ := Nat.exists_eq_add_one_of_ne_zero (Nat.ne_zero_of_lt hrounds)
  induction rest generalizing before opened rounds with
  | nil =>
    rw [partnerFrom, List.append_nil, List.getElem?_eq_none (Nat.le_refl _)]
    rfl
  | cons item rest ih =>
    have hplace : (before ++ item :: rest)[before.length]? = some item := by simp
    have hnext : ∀ opened, partnerFrom (before ++ item :: rest) rounds (before.length + 1) opened
        = ends (.ok (((closeIndexFrom? opened rest).map (· + 1)).map (· + before.length))) := by
      intro opened
      have hless : rest.length < rounds := Nat.lt_of_succ_lt_succ hrounds
      obtain ⟨rounds, rfl⟩ := Nat.exists_eq_add_one_of_ne_zero (Nat.ne_zero_of_lt hless)
      have hrest := ih (before ++ [item]) opened rounds hless
      rw [List.append_assoc, List.singleton_append, List.length_append, List.length_singleton]
        at hrest
      rw [hrest, Option.map_map]
      congr 3
      funext i
      simp only [Function.comp_apply]
      omega
    rw [partnerFrom, hplace]
    cases item with
    | opening => exact hnext (opened + 1)
    | closing =>
      match opened with
      | 0 => rfl
      | 1 => exact congrArg (fun i => ends (.ok (some i))) (Nat.zero_add _).symm
      | n + 2 => exact hnext (n + 1)
    | _ => exact hnext opened

/-- **The search for a partner ends.** -/
theorem partner_eq (items : List Item) : partner items = ends (.ok (closeIndex? items)) := by
  refine run_eq items.length fun rounds hrounds => ?_
  have h := partnerFrom_append [] items 0 hrounds
  have hzero : (closeIndexFrom? 0 items).map (· + 0) = closeIndex? items := by
    simp [closeIndex?]
  rw [List.length_nil, hzero] at h
  exact h

theorem unwrapping_eq {rounds : Nat} {items : List Item} (hrounds : items.length < rounds) :
    unwrapping rounds items = ends (.ok (unwrap items)) := by
  obtain ⟨rounds, rfl⟩ := Nat.exists_eq_add_one_of_ne_zero (Nat.ne_zero_of_lt hrounds)
  rw [unwrapping, partner_eq, ends_ok_bind]
  by_cases h : isEnclosed items
  · obtain ⟨u, rfl, hu⟩ := isEnclosed_iff.mp h
    have hhead : (Item.opening :: (u ++ [.closing])).head? = some .opening := rfl
    have hclose : closeIndex? (.opening :: (u ++ [.closing])) = some (u.length + 1) :=
      closeIndex?_eq_some_iff.mpr ⟨u, [], rfl, rfl, hu⟩
    have hlen : (Item.opening :: (u ++ [.closing])).length = u.length + 1 + 1 := by simp
    have hshorter : u.length < (Item.opening :: (u ++ [.closing])).length := by omega
    have hinner : unwrapping rounds u = ends (.ok (unwrap u)) := unwrapping_eq (by omega)
    rw [if_pos hhead, hlen, less_succ, ends_ok_bind, if_pos hclose, slice_cons_append,
      ends_ok_bind, hinner, unwrap_enclosed hu]
  · rw [unwrap_of_not_enclosed h]
    cases items with
    | nil => rfl
    | cons item rest =>
      rw [List.length_cons, less_succ, ends_ok_bind]
      split
      · rename_i hhead
        have hclose : closeIndex? (item :: rest) ≠ some rest.length := by
          intro hclose
          unfold isEnclosed at h
          exact h (by rw [hhead, hclose]; simp)
        rw [if_neg hclose]
        rfl
      · rfl
termination_by items.length

theorem unwrapped_eq (items : List Item) : unwrapped items = ends (.ok (unwrap items)) :=
  run_eq items.length fun _ hrounds => unwrapping_eq hrounds

/-! ## Conditions -/

/-- Goes down a level. Without a limit any number of levels may lie above. -/
def enter : Option Nat → Run (Option Nat)
  | none => pure none
  | some 0 => throw .tooDeep
  | some (levels + 1) => pure (some levels)

/-- Joins what has been read of a level. -/
def join (link : Link) (children : List Condition) : Run Condition :=
  match (Condition.joined link children : Except (Error Nat) Condition) with
  | .ok c => pure c
  | .error _ => throw .noConditions

mutual

/-- The condition of some items in so many rounds, with so many levels allowed below. -/
noncomputable def conditionIn : Nat → Option Nat → List Item → Run Condition
  | 0, _, _ => unfinished
  | rounds + 1, limit, items => do
    let items ← unwrapped items
    match items with
    | [] => ends (.error .emptyCondition)
    | [.clause p _] => pure (.single p)
    | _ => chainIn rounds limit [] none items

/-- Goes on reading a level of which some conditions have been read. -/
noncomputable def chainIn : Nat → Option Nat → List Condition → Option Link → List Item →
    Run Condition
  | 0, _, _, _, _ => unfinished
  | rounds + 1, limit, children, before, rest =>
    match rest with
    | [] => join (before.getD .and) children
    | first :: _ => do
      let (child, rest) ← operandIn rounds limit first rest
      let children := children ++ [child]
      match rest with
      | [] => join (before.getD .and) children
      | next :: _ => do
        let link ← ends (linkAfter first next)
        if rest.length < 2 then ends (.error (.danglingOperator next.text))
        else if before.getD link = link then do
          let rest ← sliceFrom rest 1
          chainIn rounds limit children (some link) rest
        else ends (.error .mixedOperators)

/-- The condition that begins some items, of which the first is given, and the items after it. -/
noncomputable def operandIn : Nat → Option Nat → Item → List Item → Run (Condition × List Item)
  | 0, _, _, _ => unfinished
  | rounds + 1, limit, first, items =>
    match first with
    | .opening => do
      let close ← partner items
      match close with
      | none => ends (.error .unbalancedParenthesis)
      | some close => do
        let inner ← slice items 1 close
        let limit ← enter limit
        let child ← conditionIn rounds limit inner
        let rest ← sliceFrom items (close + 1)
        pure (child, rest)
    | .clause p _ => do
      let rest ← sliceFrom items 1
      pure (.single p, rest)
    | .closing => ends (.error .unbalancedParenthesis)
    | .link _ => ends (.error (.misplacedLexeme first.text))

end

/-- The condition of some items, with so many levels allowed below. -/
noncomputable def condition (limit : Option Nat) (items : List Item) : Run Condition :=
  run fun rounds => conditionIn rounds limit items

/-- A limit that some number of levels keeps within. -/
def Allows (limit : Option Nat) (levels : Nat) : Prop := ∀ n, limit = some n → levels ≤ n

theorem Allows.exists_enter {limit : Option Nat} {levels below : Nat} (h : Allows limit levels)
    (hbelow : below < levels) :
    ∃ limit', enter limit = ends (.ok limit') ∧ Allows limit' below := by
  match limit with
  | none => exact ⟨none, rfl, fun n hn => by cases hn⟩
  | some 0 =>
    have hzero := h 0 rfl
    omega
  | some (n + 1) =>
    refine ⟨some n, rfl, fun m hm => ?_⟩
    have hlevels := h (n + 1) rfl
    cases hm
    omega

section Levels

variable {limit : Option Nat}

/-- Groups are read as they should be, however many levels there are above. -/
def ReadsGroups (limit : Option Nat) (items : List Item) : Prop :=
  ∀ inner, Grouped inner items →
    ∃ limit', enter limit = ends (.ok limit') ∧
      ∀ rounds > 2 * inner.length, conditionIn rounds limit' inner = ends (conditionOf inner)

theorem operandIn_eq {rounds : Nat} {first : Item} {rest : List Item}
    (hrounds : 2 * rest.length < rounds) (h : ReadsGroups limit (first :: rest)) :
    operandIn rounds limit first (first :: rest)
      = ends (RuleText.operand conditionOf first rest) := by
  obtain ⟨rounds, rfl⟩ := Nat.exists_eq_add_one_of_ne_zero (Nat.ne_zero_of_lt hrounds)
  rw [operandIn.eq_def]
  cases beginning first rest with
  | clause p subject => exact congrArg (· >>= _) (sliceFrom_append [.clause p subject] rest)
  | @group inner after hb =>
    have hclose : closeIndex? (.opening :: (inner ++ .closing :: after))
        = some (inner.length + 1) :=
      closeIndex?_eq_some_iff.mpr ⟨inner, after, rfl, rfl, hb⟩
    have hafter := sliceFrom_append (.opening :: (inner ++ [.closing])) after
    rw [List.cons_append, List.append_assoc, List.length_cons, List.length_append] at hafter
    obtain ⟨limit', henter, hinner⟩ := h inner ⟨[], after, rfl, hb⟩
    have hshorter : 2 * inner.length < rounds := by
      simp only [List.length_append, List.length_cons] at hrounds
      omega
    dsimp only
    rw [partner_eq, ends_ok_bind, hclose]
    dsimp only
    rw [slice_cons_append, ends_ok_bind, henter, ends_ok_bind, hinner rounds hshorter,
      operand_group hb]
    refine ends_bind fun c _ => ?_
    exact congrArg (· >>= _) hafter
  | unclosed hnone =>
    dsimp only
    rw [partner_eq, ends_ok_bind, hnone, operand_unclosed hnone]
  | closing => rfl
  | link link => rfl

/-- What has been read of a level is joined with what the rest of it comes to, and there is always
something to join. -/
theorem chainIn_eq {rounds : Nat} {children : List Condition} {before : Option Link}
    {first : Item} {rest : List Item} (hrounds : 2 * rest.length + 1 < rounds)
    (h : ReadsGroups limit (first :: rest)) :
    chainIn rounds limit children before (first :: rest)
      = ends (RuleText.chain conditionOf before first rest) >>= fun (link, head, others) =>
          join link (children ++ head :: others) := by
  obtain ⟨rounds, rfl⟩ := Nat.exists_eq_add_one_of_ne_zero (Nat.ne_zero_of_lt hrounds)
  rw [chainIn, RuleText.chain_eq]
  dsimp only
  rw [operandIn_eq (Nat.lt_of_succ_lt_succ hrounds) h]
  cases hop : RuleText.operand conditionOf first rest with
  | error e => rfl
  | ok r =>
    obtain ⟨child, after⟩ := r
    rw [ends_ok_bind, ok_bind]
    dsimp only
    match after with
    | [] => rfl
    | next :: after =>
      dsimp only
      cases linkAfter first next with
      | error e => rfl
      | ok link =>
        rw [ends_ok_bind, ok_bind]
        match after with
        | [] => rfl
        | second :: more =>
          dsimp only
          have hlong : ¬ (next :: second :: more).length < 2 := by simp
          rw [if_neg hlong]
          split
          · -- the operand and the link are left behind, and groups behind them are groups of it all
            obtain ⟨u, hu, -, -⟩ := exists_append_of_operand hop
            have hlen : more.length + 2 ≤ rest.length := operand_length_le conditionOf hop
            have hless : 2 * more.length + 1 < rounds := by omega
            have hmore : ReadsGroups limit (second :: more) :=
              fun inner hi => h inner (hi.of_infix ⟨u ++ [next], [], by simp [hu]⟩)
            have hslice : sliceFrom (next :: second :: more) 1 = ends (.ok (second :: more)) :=
              sliceFrom_append [next] (second :: more)
            rw [hslice, ends_ok_bind, chainIn_eq hless hmore]
            cases RuleText.chain conditionOf (some link) second more with
            | error e => rfl
            | ok r =>
              obtain ⟨link, head, others⟩ := r
              rw [ends_ok_bind, ok_bind, ends_ok_bind]
              dsimp only
              rw [List.append_assoc, List.singleton_append]
          · rfl
termination_by rest.length

end Levels

theorem conditionIn_eq {rounds : Nat} {limit : Option Nat} {items : List Item}
    (hrounds : 2 * items.length < rounds) (h : Allows limit (nestingDepth items)) :
    conditionIn rounds limit items = ends (conditionOf items) := by
  obtain ⟨rounds, rfl⟩ := Nat.exists_eq_add_one_of_ne_zero (Nat.ne_zero_of_lt hrounds)
  have hgroups : ReadsGroups limit (unwrap items) := by
    intro inner hi
    -- groups nest less deeply than the items, so going down a level keeps within the limit
    have hinner := hi.of_infix (isLevel_unwrap items).isInfix
    have hlen := hinner.length_lt
    obtain ⟨limit', henter, hallows⟩ := h.exists_enter hinner.nestingDepth_lt
    exact ⟨limit', henter, fun rounds hrounds => conditionIn_eq hrounds hallows⟩
  have hlevel : (unwrap items).length ≤ items.length := (isLevel_unwrap items).isInfix.length_le
  rw [conditionIn, unwrapped_eq, ends_ok_bind, conditionOf_eq_level]
  unfold level
  generalize unwrap items = inside at hgroups hlevel
  split
  · rfl
  · rfl
  · rename_i hempty hsingle
    cases inside with
    | nil => exact absurd rfl hempty
    | cons first rest =>
      have hless : 2 * rest.length + 1 < rounds := by
        rw [List.length_cons] at hlevel
        omega
      rw [chainIn_eq hless hgroups]
      split
      · rename_i heq
        cases heq
      · rename_i p subject heq
        exact absurd heq (hsingle p subject)
      · rename_i first' rest' _ heq
        cases heq
        cases RuleText.chain conditionOf none first rest <;> rfl
termination_by items.length

/-- **A condition is read to its end**, however deep parentheses nest, and with no more levels below
than they nest. -/
theorem condition_eq {limit : Option Nat} {items : List Item}
    (h : Allows limit (nestingDepth items)) :
    condition limit items = ends (conditionOf items) :=
  run_eq (2 * items.length) fun _ hrounds => conditionIn_eq hrounds h

/-! ## Clauses -/

/-- The hedge at a place, if there is one, and the place after it. -/
def hedgeAt (tokens : List (Token ω ν)) (place : Nat) : Option Hedge × Nat :=
  match tokens[place]?.bind Token.keyword? with
  | some (.hedge hedge) => (some hedge, place + 1)
  | _ => (none, place)

/-- The proposition about a variable whose name comes first, and the tokens after it. -/
def clause (first : Token ω ν) (key : VariableKey) (tokens : List (Token ω ν)) :
    Run (Proposition × List (Token ω ν)) :=
  if tokens.length < 3 then ends (.error (.malformedCondition first.text))
  else do
    let verb ← get tokens 1
    if verb.isKeyword .isWord then do
      let next ← get tokens 2
      let negated := next.isKeyword .notWord
      let (hedge, place) := hedgeAt tokens (if negated then 3 else 2)
      match tokens[place]? with
      | none => ends (.error (.malformedCondition first.text))
      | some value =>
        match value.inputTerm? key with
        | none => ends (.error (.termMismatch value.text first.text))
        | some term => do
          let rest ← sliceFrom tokens (place + 1)
          pure (⟨key, term, negated, hedge⟩, rest)
    else ends (.error (.malformedCondition first.text))

/-- Goes on in so many rounds to cut tokens into items, some of which have been found. -/
def itemsFrom : Nat → List Item → List (Token ω ν) → Run (List Item)
  | 0, _, _ => unfinished
  | rounds + 1, found, tokens =>
    match tokens with
    | [] => pure found
    | first :: _ =>
      match first.lexeme with
      | .input key => do
        let (p, rest) ← clause first key tokens
        itemsFrom rounds (found ++ [.clause p first.text]) rest
      | .output _ => ends (.error (.notAnInputVariable first.text))
      | .keyword (.link link) => do
        let rest ← sliceFrom tokens 1
        itemsFrom rounds (found ++ [.link link]) rest
      | .keyword .opening => do
        let rest ← sliceFrom tokens 1
        itemsFrom rounds (found ++ [.opening]) rest
      | .keyword .closing => do
        let rest ← sliceFrom tokens 1
        itemsFrom rounds (found ++ [.closing]) rest
      | _ => ends (.error (.misplacedLexeme first.text))

/-- The items that tokens of a condition make up. -/
noncomputable def items (tokens : List (Token ω ν)) : Run (List Item) :=
  run fun rounds => itemsFrom rounds [] tokens

theorem takeNot_eq (first verb next : Token ω ν) (rest : List (Token ω ν)) :
    takeNot (next :: rest) = (next.isKeyword .notWord,
      (first :: verb :: next :: rest).drop (if next.isKeyword .notWord then 3 else 2)) := by
  rw [takeNot]
  cases next.isKeyword .notWord <;> rfl

/-- At a place there is the token that what follows begins with. -/
theorem getElem?_of_drop {tokens more : List α} {place : Nat} {x : α}
    (h : tokens.drop place = x :: more) :
    tokens[place]? = some x ∧ tokens.drop (place + 1) = more ∧ place + 1 ≤ tokens.length := by
  have hlen := congrArg List.length h
  simp only [List.length_drop, List.length_cons] at hlen
  refine ⟨?_, ?_, by omega⟩
  · rw [← List.head?_drop, h, List.head?_cons]
  · rw [← List.tail_drop, h, List.tail_cons]

theorem takeHedge_eq (tokens : List (Token ω ν)) (place : Nat) :
    takeHedge (tokens.drop place)
      = ((hedgeAt tokens place).1, tokens.drop (hedgeAt tokens place).2) := by
  unfold hedgeAt
  cases h : tokens.drop place with
  | nil =>
    rw [List.getElem?_eq_none (List.drop_eq_nil_iff.mp h)]
    exact congrArg (Prod.mk none) h.symm
  | cons value more =>
    obtain ⟨hvalue, hmore, -⟩ := getElem?_of_drop h
    rw [hvalue, takeHedge]
    dsimp only [Option.bind_some]
    cases value.keyword? with
    | none => exact congrArg (Prod.mk none) h.symm
    | some keyword =>
      cases keyword with
      | hedge hedge => exact congrArg (Prod.mk (some hedge)) hmore.symm
      | _ => exact congrArg (Prod.mk none) h.symm

theorem clause_eq (first : Token ω ν) (key : VariableKey) (rest : List (Token ω ν)) :
    clause first key (first :: rest) = ends (RuleText.clause first.text key rest) := by
  match rest with
  | [] => rfl
  | [_] => rfl
  | verb :: next :: more =>
    have hlong : ¬ (first :: verb :: next :: more).length < 3 := by simp
    have hverb : get (first :: verb :: next :: more) 1 = ends (.ok verb) := rfl
    have hnext : get (first :: verb :: next :: more) 2 = ends (.ok next) := rfl
    unfold clause RuleText.clause
    rw [if_neg hlong, hverb, ends_ok_bind]
    dsimp only
    split
    · rw [hnext, ends_ok_bind, takeNot_eq first verb next more]
      dsimp only
      rw [takeHedge_eq]
      generalize first :: verb :: next :: more = tokens
      obtain ⟨hedge, place⟩ := hedgeAt tokens (if next.isKeyword .notWord then 3 else 2)
      dsimp only
      cases h : tokens.drop place with
      | nil =>
        rw [List.getElem?_eq_none (List.drop_eq_nil_iff.mp h)]
      | cons value rest =>
        obtain ⟨hvalue, hrest, hle⟩ := getElem?_of_drop h
        rw [hvalue]
        dsimp only
        cases value.inputTerm? key with
        | none => rfl
        | some term =>
          unfold sliceFrom
          rw [if_pos hle, hrest]
          rfl
    · rfl

theorem itemsOf_input {first : Token ω ν} {key : VariableKey} (h : first.lexeme = .input key)
    (rest : List (Token ω ν)) :
    itemsOf (first :: rest) = (do
      let (p, after) ← RuleText.clause first.text key rest
      (itemsOf after).map (.clause p first.text :: ·)) := by
  rw [itemsOf]
  simp only [h]
  split
  · rename_i hc
    rw [hc, error_bind]
  · rename_i hc
    rw [hc, ok_bind]

/-- **The tokens of a condition are cut into items to the last.** -/
theorem itemsFrom_eq {rounds : Nat} (found : List Item) {tokens : List (Token ω ν)}
    (hrounds : tokens.length < rounds) :
    itemsFrom rounds found tokens = ends ((itemsOf tokens).map (found ++ ·)) := by
  obtain ⟨rounds, rfl⟩ := Nat.exists_eq_add_one_of_ne_zero (Nat.ne_zero_of_lt hrounds)
  cases tokens with
  | nil =>
    rw [itemsFrom, itemsOf]
    exact congrArg (fun is => ends (.ok is)) (List.append_nil found).symm
  | cons first rest =>
    -- one more item, and what is cut after it
    have hmore : ∀ (item : Item) (after : List (Token ω ν)), after.length ≤ rest.length →
        itemsFrom rounds (found ++ [item]) after
          = ends (((itemsOf after).map (item :: ·)).map (found ++ ·)) := by
      intro item after hlen
      have hshorter : after.length < (first :: rest).length := Nat.lt_succ_of_le hlen
      have hless : after.length < rounds := hlen.trans_lt (Nat.lt_of_succ_lt_succ hrounds)
      rw [itemsFrom_eq (found ++ [item]) hless]
      cases itemsOf after with
      | error e => rfl
      | ok is => exact congrArg (fun is => ends (.ok is)) (by simp)
    have hslice : sliceFrom (first :: rest) 1 = ends (.ok rest) := sliceFrom_append [first] rest
    rw [itemsFrom]
    dsimp only
    cases hl : first.lexeme with
    | input key =>
      rw [itemsOf_input hl]
      dsimp only
      rw [clause_eq]
      cases hc : RuleText.clause first.text key rest with
      | error e => rfl
      | ok r => exact hmore _ r.2 (Nat.le_of_lt (clause_length_lt hc))
    | output key =>
      rw [itemsOf]
      simp only [hl]
      rfl
    | values candidates =>
      rw [itemsOf]
      simp only [hl]
      rfl
    | keyword k =>
      rw [itemsOf]
      simp only [hl]
      cases k with
      | link link =>
        dsimp only
        rw [hslice, ends_ok_bind]
        exact hmore (.link link) rest (Nat.le_refl _)
      | opening =>
        dsimp only
        rw [hslice, ends_ok_bind]
        exact hmore .opening rest (Nat.le_refl _)
      | closing =>
        dsimp only
        rw [hslice, ends_ok_bind]
        exact hmore .closing rest (Nat.le_refl _)
      | _ => rfl
termination_by tokens.length

theorem items_eq (tokens : List (Token ω ν)) : items tokens = ends (itemsOf tokens) := by
  refine run_eq tokens.length fun rounds hrounds => ?_
  rw [itemsFrom_eq [] hrounds]
  cases itemsOf tokens <;> rfl

/-! ## Conclusions -/

/-- Takes parentheses at both ends away in so many rounds. -/
def stripping : Nat → List (Token ω ν) → Run (List (Token ω ν))
  | 0, _ => unfinished
  | rounds + 1, tokens =>
    if 2 ≤ tokens.length then do
      let first ← get tokens 0
      if first.isKeyword .opening then do
        let place ← less tokens.length 1
        let last ← get tokens place
        if last.isKeyword .closing then do
          let inner ← slice tokens 1 place
          stripping rounds inner
        else pure tokens
      else pure tokens
    else pure tokens

/-- Takes parentheses at both ends away. -/
noncomputable def stripped (tokens : List (Token ω ν)) : Run (List (Token ω ν)) :=
  run fun rounds => stripping rounds tokens

theorem stripping_eq {rounds : Nat} {tokens : List (Token ω ν)}
    (hrounds : tokens.length < rounds) :
    stripping rounds tokens = ends (.ok (strip tokens)) := by
  obtain ⟨rounds, rfl⟩ := Nat.exists_eq_add_one_of_ne_zero (Nat.ne_zero_of_lt hrounds)
  by_cases hlong : 2 ≤ tokens.length
  · -- one token at either end, and those between them
    obtain ⟨o, u, c, rfl⟩ : ∃ o u c, tokens = o :: (u ++ [c]) := by
      match tokens with
      | o :: rest =>
        have hne : rest ≠ [] := by
          rintro rfl
          exact absurd hlong (by simp)
        exact ⟨o, rest.dropLast, rest.getLast hne, by rw [List.dropLast_concat_getLast hne]⟩
    have hfirst : get (o :: (u ++ [c])) 0 = ends (.ok o) := rfl
    have hlength : (o :: (u ++ [c])).length = u.length + 1 + 1 := by simp
    have hlast : get (o :: (u ++ [c])) (u.length + 1) = ends (.ok c) := by
      unfold get
      rw [List.getElem?_cons_succ, List.getElem?_concat_length]
      rfl
    have hbracketed : isBracketed (o :: (u ++ [c]))
        = (o.isKeyword .opening && c.isKeyword .closing) := by
      unfold isBracketed
      rw [← List.cons_append, List.getLast?_concat]
      simp
    have hshorter : u.length < (o :: (u ++ [c])).length := by omega
    have hinner : stripping rounds u = ends (.ok (strip u)) := stripping_eq (by omega)
    rw [stripping, if_pos hlong, hfirst, ends_ok_bind, hlength, less_succ, ends_ok_bind, hlast,
      ends_ok_bind, slice_cons_append, ends_ok_bind, hinner]
    by_cases hb : isBracketed (o :: (u ++ [c]))
    · rw [strip_bracketed hb]
      rw [hbracketed, Bool.and_eq_true] at hb
      rw [if_pos hb.1, if_pos hb.2]
    · rw [strip_of_not_bracketed hb]
      rw [hbracketed, Bool.and_eq_true, not_and] at hb
      split
      · rename_i ho
        rw [if_neg (hb ho)]
        rfl
      · rfl
  · have hb : ¬ isBracketed tokens := by simp [isBracketed, hlong]
    rw [stripping, if_neg hlong, strip_of_not_bracketed hb]
    rfl
termination_by tokens.length

theorem stripped_eq (tokens : List (Token ω ν)) : stripped tokens = ends (.ok (strip tokens)) :=
  run_eq tokens.length fun _ hrounds => stripping_eq hrounds

section Conclusions

variable [DecidableEq ω]

/-- The conclusion that tokens make up. -/
noncomputable def conclusion (tokens : List (Token ω ν)) : Run (Conclusion ω ν) := do
  let tokens ← stripped tokens
  match tokens with
  | [subject, verb, value] =>
    match subject.lexeme with
    | .output key =>
      if verb.isKeyword .isWord then
        match value.outputValue? key with
        | some v => pure ⟨key, v⟩
        | none => ends (.error (.termMismatch value.text subject.text))
      else ends (.error .malformedConclusion)
    | .input _ => ends (.error (.notAnOutputVariable subject.text))
    | _ => ends (.error .malformedConclusion)
  | _ => ends (.error .malformedConclusion)

theorem conclusion_eq (tokens : List (Token ω ν)) :
    conclusion tokens = ends (conclusionOf tokens) := by
  unfold conclusion conclusionOf
  rw [stripped_eq, ends_ok_bind]
  match strip tokens with
  | [subject, verb, value] =>
    dsimp only
    cases subject.lexeme with
    | output key =>
      dsimp only
      split
      · cases value.outputValue? key <;> rfl
      · rfl
    | _ => rfl
  | [] | [_] | [_, _] | _ :: _ :: _ :: _ :: _ => rfl

end Conclusions

/-! ## Rules -/

/-- What stands before the first `then`, without the first token, and what stands behind it. -/
def halves (tokens : List (Token ω ν)) : Run (List (Token ω ν) × List (Token ω ν)) :=
  match tokens.head? with
  | none => ends (.error .missingIf)
  | some first =>
    if first.isKeyword .ifWord then
      match tokens.findIdx? (·.isKeyword .thenWord) with
      | none => ends (.error .missingThen)
      | some place => do
        let condition ← slice tokens 1 place
        let conclusion ← sliceFrom tokens (place + 1)
        if condition.isEmpty then ends (.error .emptyCondition)
        else if conclusion.isEmpty then ends (.error .emptyConclusion)
        else pure (condition, conclusion)
    else ends (.error .missingIf)

/-- The first token that passes a test is found behind those that do not. -/
theorem findIdx?_append_cons {p : α → Bool} {before : List α} {x : α} {after : List α}
    (hbefore : ∀ a ∈ before, p a = false) (hx : p x = true) :
    (before ++ x :: after).findIdx? p = some before.length := by
  rw [List.findIdx?_append, List.findIdx?_eq_none_iff.mpr hbefore, List.findIdx?_cons, if_pos hx]
  simp

theorem halves_eq (tokens : List (Token ω ν)) : halves tokens = ends (RuleText.halves tokens) := by
  match tokens with
  | [] => rfl
  | first :: rest =>
    unfold halves RuleText.halves
    dsimp only [List.head?_cons]
    split
    · rename_i hif
      have hfirst : first.isKeyword .thenWord = false := by
        unfold Token.isKeyword at hif ⊢
        rw [of_decide_eq_true hif]
        rfl
      cases hafter : rest.dropWhile fun t => !t.isKeyword .thenWord with
      | nil =>
        have hnone : (first :: rest).findIdx? (·.isKeyword .thenWord) = none := by
          rw [List.findIdx?_eq_none_iff, List.forall_mem_cons]
          rw [List.dropWhile_eq_nil_iff] at hafter
          exact ⟨hfirst, fun t ht => by simpa using hafter t ht⟩
        rw [hnone]
      | cons t after =>
        obtain ⟨hrest, hbefore, ht⟩ := cut_iff.mp ⟨rfl, hafter⟩
        generalize rest.takeWhile (fun t => !t.isKeyword .thenWord) = before at hrest hbefore
        subst hrest
        have hplace : (first :: (before ++ t :: after)).findIdx? (·.isKeyword .thenWord)
            = some (before.length + 1) := by
          have hnone : ∀ a ∈ first :: before, a.isKeyword .thenWord = false :=
            List.forall_mem_cons.mpr ⟨hfirst, fun a ha => by simpa using hbefore a ha⟩
          exact findIdx?_append_cons hnone (by simpa using ht)
        have hbehind : sliceFrom (first :: (before ++ t :: after)) (before.length + 1 + 1)
            = ends (.ok after) := by
          have h := sliceFrom_append (first :: (before ++ [t])) after
          simpa using h
        rw [hplace]
        dsimp only
        rw [slice_cons_append, ends_ok_bind, hbehind, ends_ok_bind]
        split
        · rfl
        · split <;> rfl
    · rfl

section Sentences

variable [DecidableEq ω]

/-- The rule that tokens make up. No more than 64 levels may lie below the condition itself. -/
noncomputable def rule (tokens : List (Token ω ν)) : Run (Rule ω ν) := do
  let (condition, conclusion) ← halves tokens
  let items ← items condition
  if nestingDepth items > maxNesting then ends (.error (.nestingTooDeep maxNesting))
  else do
    let condition ← ByPlace.condition (some 64) items
    let conclusion ← ByPlace.conclusion conclusion
    pure ⟨condition, conclusion⟩

/-- Reads a rule with the words of the given variables. -/
noncomputable def read (inputs : List (Vocabulary VariableKey TermKey))
    (outputs : List (Vocabulary ω ν)) (text : String) : Run (Rule ω ν) :=
  if text.toList.all Text.isBlank then ends (.error .emptyRule)
  else do
    let tokens ← ends (tokensOf inputs outputs text)
    rule tokens

theorem rule_eq (tokens : List (Token ω ν)) : rule tokens = ends (ruleOf tokens) := by
  unfold rule ruleOf
  rw [halves_eq]
  refine ends_bind fun ⟨before, behind⟩ _ => ?_
  dsimp only
  rw [items_eq]
  refine ends_bind fun items _ => ?_
  split
  · rfl
  · rename_i hdepth
    have hallows : Allows (some 64) (nestingDepth items) := by
      intro n hn
      cases hn
      exact Nat.le_of_not_lt hdepth
    rw [condition_eq hallows]
    refine ends_bind fun condition _ => ?_
    rw [conclusion_eq]
    exact ends_bind fun conclusion _ => rfl

theorem read_eq (inputs : List (Vocabulary VariableKey TermKey)) (outputs : List (Vocabulary ω ν))
    (text : String) : read inputs outputs text = ends (RuleText.read inputs outputs text) := by
  unfold read RuleText.read
  split
  · rfl
  · exact ends_bind fun tokens _ => rule_eq tokens

end Sentences

end ByPlace

/-- **Reading by place ends, and it ends as reading does.** So no reader reaches outside of a list
or below zero, and none joins no conditions, whatever the tokens, items or texts. Conditions are
read with no more levels below them than parentheses nest, balanced or not; with more levels, or
without a limit, they are read alike. A rule never needs more than 64. -/
theorem reads_by_place {ω ν : Type} [DecidableEq ω] :
    (∀ items : List Item, ByPlace.partner items = ByPlace.ends (.ok (closeIndex? items)))
      ∧ (∀ tokens : List (Token ω ν), ByPlace.items tokens = ByPlace.ends (itemsOf tokens))
      ∧ (∀ items : List Item,
          ByPlace.condition none items = ByPlace.ends (conditionOf items)
          ∧ ∀ more, ByPlace.condition (some (nestingDepth items + more)) items
            = ByPlace.ends (conditionOf items))
      ∧ (∀ tokens : List (Token ω ν),
          ByPlace.conclusion tokens = ByPlace.ends (conclusionOf tokens))
      ∧ (∀ tokens : List (Token ω ν), ByPlace.rule tokens = ByPlace.ends (ruleOf tokens))
      ∧ ∀ (inputs : List (Vocabulary VariableKey TermKey)) (outputs : List (Vocabulary ω ν))
          (text : String),
          ByPlace.read inputs outputs text = ByPlace.ends (read inputs outputs text) := by
  have hconditions : ∀ items : List Item,
      ByPlace.condition none items = ByPlace.ends (conditionOf items)
      ∧ ∀ more, ByPlace.condition (some (nestingDepth items + more)) items
        = ByPlace.ends (conditionOf items) := by
    intro items
    refine ⟨ByPlace.condition_eq ?_, fun more => ByPlace.condition_eq ?_⟩
    · intro n hn
      cases hn
    · intro n hn
      cases hn
      exact Nat.le_add_right _ _
  exact ⟨ByPlace.partner_eq, ByPlace.items_eq, hconditions, ByPlace.conclusion_eq,
    ByPlace.rule_eq, ByPlace.read_eq⟩

end FuzzyInference.RuleText
