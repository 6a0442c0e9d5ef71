import FuzzyInference.Proofs.FirstFailure
import FuzzyInference.Proofs.Fuzzification
import FuzzyInference.Proofs.Mamdani.Consistency
import Mathlib.Data.List.Find

/-!
# What an evaluation looks up

A condition is gone through twice before its truth is known. First its
propositions are listed, and the condition is refused if one of them has no
degree. Then the tree is folded, and every degree is looked up once more.

The second pass can be read as if there were no first: `evaluateLookingUp` ends
at the first degree that it does not find. It ends where the first pass would
have ended, or it does not end early at all (`evaluateLookingUp_eq`). So what is
checked is what is read, leaf by leaf and in the same order, however the
condition is nested and negated.
-/

namespace FuzzyInference

variable {α β γ : Type}

namespace Condition

/-- A value, unless one of some propositions has no degree; otherwise the first of these. -/
def unlessMissing (degree? : Proposition → Option α) (ps : List Proposition) (v : β) :
    Except Proposition β :=
  match ps.find? fun p => (degree? p).isNone with
  | some p => .error p
  | none => .ok v

variable {degree? : Proposition → Option α}

theorem unlessMissing_eq_error {ps : List Proposition} {p : Proposition}
    (h : IsFirst (fun p => degree? p = none) ps p) (v : β) :
    unlessMissing degree? ps v = .error p := by
  have hfind : ps.find? (fun p => (degree? p).isNone) = some p := by
    rw [find?_eq_some_iff_isFirst]
    simpa only [Option.isNone_iff_eq_none] using h
  unfold unlessMissing
  rw [hfind]

theorem unlessMissing_eq_ok {ps : List Proposition} (h : ∀ p ∈ ps, degree? p ≠ none) (v : β) :
    unlessMissing degree? ps v = .ok v := by
  have hfind : ps.find? (fun p => (degree? p).isNone) = none := by
    rw [List.find?_eq_none]
    simpa only [Option.isNone_iff_eq_none] using h
  unfold unlessMissing
  rw [hfind]

/-- Only the degrees for these propositions count. -/
theorem unlessMissing_congr {degree?' : Proposition → Option α} {ps : List Proposition}
    (h : ∀ p ∈ ps, degree?' p = degree? p) (v : β) :
    unlessMissing degree?' ps v = unlessMissing degree? ps v := by
  have hfind : ps.find? (fun p => (degree?' p).isNone) = ps.find? fun p => (degree? p).isNone :=
    List.find?_congr fun p hp => by rw [h p hp]
  unfold unlessMissing
  rw [hfind]

theorem unlessMissing_bind_ok (ps : List Proposition) (v : β) (g : β → γ) :
    (unlessMissing degree? ps v >>= fun v => .ok (g v)) = unlessMissing degree? ps (g v) := by
  unfold unlessMissing
  cases ps.find? fun p => (degree? p).isNone <;> rfl

/-- What is missing in the first part comes before what is missing in the second. -/
theorem unlessMissing_bind (ps qs : List Proposition) (v : β) (f : β → γ) :
    (unlessMissing degree? ps v >>= fun v => unlessMissing degree? qs (f v))
      = unlessMissing degree? (ps ++ qs) (f v) := by
  unfold unlessMissing
  rw [List.find?_append]
  cases ps.find? fun p => (degree? p).isNone <;> rfl

variable [Scalar α]

mutual

/-- The degree to which a condition holds where there may be none for some propositions: the first
of these that the evaluation gets to is the last. -/
def evaluateLookingUp (connectives : Connectives) (degree? : Proposition → Option α) :
    Condition → Except Proposition α
  | .single p =>
    match degree? p with
    | none => .error p
    | some d => .ok (p.truth d)
  | .combination link negated first rest => do
    let before ← first.evaluateLookingUp connectives degree?
    let degree ← evaluateRestLookingUp connectives degree? link before rest
    .ok (negateIf negated degree)

/-- Folds the degrees of further conditions into the degree of those before them. -/
def evaluateRestLookingUp (connectives : Connectives) (degree? : Proposition → Option α)
    (link : Link) (before : α) : List Condition → Except Proposition α
  | [] => .ok before
  | c :: cs => do
    let degree ← c.evaluateLookingUp connectives degree?
    evaluateRestLookingUp connectives degree? link (link.apply connectives before degree) cs

end

variable {connectives : Connectives}

mutual

/-- **Looking up on the way is looking through the propositions beforehand.** -/
theorem evaluateLookingUp_eq : ∀ c : Condition,
    c.evaluateLookingUp connectives degree? = unlessMissing degree? c.propositions
      (c.evaluate connectives fun p => (degree? p).getD Scalar.nan)
  | .single p => by
    rw [evaluateLookingUp, propositions, evaluate]
    unfold unlessMissing
    cases h : degree? p <;> simp [h]
  | .combination link negated first rest => by
    rw [evaluateLookingUp, propositions, evaluate, evaluateLookingUp_eq first]
    simp only [evaluateRestLookingUp_eq link, unlessMissing_bind_ok]
    exact unlessMissing_bind _ _ _ fun before =>
      negateIf negated (evaluateRest connectives _ link before rest)

theorem evaluateRestLookingUp_eq (link : Link) : ∀ (cs : List Condition) (before : α),
    evaluateRestLookingUp connectives degree? link before cs
      = unlessMissing degree? (propositionsOf cs)
          (evaluateRest connectives (fun p => (degree? p).getD Scalar.nan) link before cs)
  | [], _ => rfl
  | c :: cs, before => by
    rw [evaluateRestLookingUp, propositionsOf, evaluateRest, evaluateLookingUp_eq c]
    simp only [evaluateRestLookingUp_eq link cs]
    exact unlessMissing_bind _ _ _ fun degree =>
      evaluateRest connectives _ link (link.apply connectives before degree) cs

end

end Condition

namespace InputSide

variable [Scalar α] {s : InputSide α} {fuzzified fuzzified' : Fuzzified α} {c : Condition}

/-- The degree that a map has for the term of a proposition, if it has one. -/
def degreeIn? (fuzzified : Fuzzified α) (p : Proposition) : Option α :=
  fuzzified.get? (p.subject, p.term)

/-- **The check looks at what the evaluation looks up**, and refuses what would not be found. -/
theorem evaluate_eq_lookingUp (s : InputSide α) (fuzzified : Fuzzified α) (c : Condition) :
    s.evaluate fuzzified c
      = (c.evaluateLookingUp s.connectives (degreeIn? fuzzified)).mapError
          fun p => .foreignTerm (s.table.nameOf p.subject) := by
  have htest : (fun p : Proposition => !fuzzified.contains (p.subject, p.term))
      = fun p => (degreeIn? fuzzified p).isNone := by
    funext p
    rw [OrderedMap.contains_eq_isSome, Option.not_isSome]
    rfl
  rw [Condition.evaluateLookingUp_eq]
  unfold evaluate Condition.unlessMissing
  rw [htest]
  cases c.propositions.find? fun p => (degreeIn? fuzzified p).isNone <;> rfl

/-- What becomes of a condition. -/
structure LooksAhead (s : InputSide α) (fuzzified : Fuzzified α) (c : Condition) : Prop where
  /-- The first proposition without a degree is what a condition is refused for. -/
  missing : ∀ p, IsFirst (fun p => degreeIn? fuzzified p = none) c.propositions p →
    s.evaluate fuzzified c = .error (.foreignTerm (s.table.nameOf p.subject))
  /-- If there is none, the condition has a truth, and all that is looked up for it is there. -/
  found : (∀ p ∈ c.propositions, degreeIn? fuzzified p ≠ none) →
    ∃ truth, s.evaluate fuzzified c = .ok truth
      ∧ c.evaluateLookingUp s.connectives (degreeIn? fuzzified) = .ok truth

theorem looksAhead (s : InputSide α) (fuzzified : Fuzzified α) (c : Condition) :
    s.LooksAhead fuzzified c where
  missing := by
    intro p hfirst
    rw [evaluate_eq_lookingUp, Condition.evaluateLookingUp_eq,
      Condition.unlessMissing_eq_error hfirst]
    rfl
  found := by
    intro hfound
    have hok : c.evaluateLookingUp s.connectives (degreeIn? fuzzified) = .ok _ :=
      (Condition.evaluateLookingUp_eq c).trans (Condition.unlessMissing_eq_ok hfound _)
    refine ⟨_, ?_, hok⟩
    rw [evaluate_eq_lookingUp, hok]
    rfl

/-- **Only the degrees for the propositions of a condition count**, for a refusal as well as for the
truth. -/
theorem evaluate_congr (h : ∀ p ∈ c.propositions, degreeIn? fuzzified' p = degreeIn? fuzzified p) :
    s.evaluate fuzzified' c = s.evaluate fuzzified c := by
  have hdegrees : ∀ p ∈ c.propositions,
      (degreeIn? fuzzified' p).getD Scalar.nan = (degreeIn? fuzzified p).getD Scalar.nan := by
    intro p hp
    rw [h p hp]
  rw [evaluate_eq_lookingUp, evaluate_eq_lookingUp, Condition.evaluateLookingUp_eq,
    Condition.evaluateLookingUp_eq, Condition.unlessMissing_congr h,
    Condition.evaluate_congr hdegrees]

/-! ## Rules in a row -/

section Rules

variable {ρ : Type} {rules : List ρ} {condition : ρ → Condition}

theorem truths_map_eq (s : InputSide α) (fuzzified : Fuzzified α) (rules : List ρ)
    (condition : ρ → Condition) :
    s.truths fuzzified (rules.map condition)
      = rules.mapM fun rule => s.evaluate fuzzified (condition rule) :=
  List.mapM_map

/-- **Rules that can all be evaluated have a truth each, in their order.** -/
theorem exists_truths_eq_ok
    (h : ∀ rule ∈ rules, ∃ truth, s.evaluate fuzzified (condition rule) = .ok truth) :
    ∃ truths, s.truths fuzzified (rules.map condition) = .ok truths
      ∧ List.Forall₂ (fun rule truth => s.evaluate fuzzified (condition rule) = .ok truth)
          rules truths := by
  obtain ⟨truths, htruths⟩ := exists_mapM_eq_ok h
  refine ⟨truths, ?_, mapM_eq_ok_iff.mp htruths⟩
  rw [truths_map_eq]
  exact htruths

/-- **Otherwise the first that cannot be is what they are refused for.** -/
theorem truths_eq_error {rule : ρ} {e : Error α}
    (hfirst : IsFirst (fun rule => Fails (s.evaluate fuzzified (condition rule))) rules rule)
    (he : s.evaluate fuzzified (condition rule) = .error e) :
    s.truths fuzzified (rules.map condition) = .error e := by
  rw [truths_map_eq]
  exact mapM_eq_error_iff.mpr ⟨rule, hfirst, he⟩

end Rules

/-- **An evaluation checks exactly what it reads.** A condition is refused for the first of its
propositions, from left to right, that has no degree; otherwise it has a truth, and nothing is
looked up in vain. Degrees for other propositions make no difference. Rules have their truths in
their order, or they are refused like the first of them that is. -/
theorem evaluate_checks_what_it_reads (s : InputSide α) :
    (∀ fuzzified c, s.LooksAhead fuzzified c)
      ∧ (∀ fuzzified fuzzified' c,
          (∀ p ∈ c.propositions, degreeIn? fuzzified' p = degreeIn? fuzzified p) →
          s.evaluate fuzzified' c = s.evaluate fuzzified c)
      ∧ ∀ (ρ : Type) (rules : List ρ) (condition : ρ → Condition) fuzzified,
          ((∀ rule ∈ rules, ∃ truth, s.evaluate fuzzified (condition rule) = .ok truth) →
            ∃ truths, s.truths fuzzified (rules.map condition) = .ok truths
              ∧ List.Forall₂ (fun rule truth => s.evaluate fuzzified (condition rule) = .ok truth)
                  rules truths)
          ∧ ∀ rule e,
            IsFirst (fun rule => Fails (s.evaluate fuzzified (condition rule))) rules rule →
            s.evaluate fuzzified (condition rule) = .error e →
            s.truths fuzzified (rules.map condition) = .error e :=
  ⟨s.looksAhead, fun _ _ _ => evaluate_congr,
    fun _ _ _ _ => ⟨exists_truths_eq_ok, fun _ _ => truths_eq_error⟩⟩

/-- Poor service, and neither cheap tips nor something about a variable that is not there. -/
def poorButCheap : Condition :=
  (VariableKey.is ⟨1⟩ ⟨1⟩).and ((VariableKey.is ⟨2⟩ ⟨2⟩).or (VariableKey.is ⟨9⟩ ⟨9⟩)).not

open WholeNumbers Mamdani in
/-- Poor service has a degree. Cheap tips have none, and they are mentioned first. -/
theorem evaluate_checks_what_it_reads_tipping :
    (run tipping (.ofSettings {})).inputSide.evaluate ⟨[((⟨1⟩, ⟨1⟩), 5)]⟩ poorButCheap
        = .error (.foreignTerm "tips")
      ∧ (run tipping (.ofSettings {})).inputSide.truths ⟨[((⟨1⟩, ⟨1⟩), 5)]⟩
          ([VariableKey.is ⟨1⟩ ⟨1⟩, poorButCheap, VariableKey.is ⟨9⟩ ⟨9⟩].map id)
        = .error (.foreignTerm "tips")
      ∧ (run tipping (.ofSettings {})).inputSide.evaluate ⟨[((⟨2⟩, ⟨2⟩), 7), ((⟨1⟩, ⟨1⟩), 5)]⟩
          (VariableKey.is ⟨1⟩ ⟨1⟩).not
        = .ok (-4) := by
  obtain ⟨hlooks, hcongr, hrules⟩ :=
    evaluate_checks_what_it_reads (run tipping (.ofSettings {})).inputSide
  have hmissing : (run tipping (.ofSettings {})).inputSide.evaluate ⟨[((⟨1⟩, ⟨1⟩), 5)]⟩ poorButCheap
      = .error (.foreignTerm "tips") :=
    (hlooks _ poorButCheap).missing ⟨⟨2⟩, ⟨2⟩, false, none⟩
      ⟨[⟨⟨1⟩, ⟨1⟩, false, none⟩], [⟨⟨9⟩, ⟨9⟩, false, none⟩], rfl, rfl, by decide⟩
  refine ⟨hmissing, (hrules _ _ id _).2 poorButCheap _ ?_ hmissing, ?_⟩
  · refine ⟨[VariableKey.is ⟨1⟩ ⟨1⟩], [VariableKey.is ⟨9⟩ ⟨9⟩], rfl, ⟨_, hmissing⟩, ?_⟩
    rw [List.forall_mem_singleton, not_fails_iff]
    exact ⟨5, rfl⟩
  · rw [hcongr ⟨[((⟨1⟩, ⟨1⟩), 5)]⟩ _ (VariableKey.is ⟨1⟩ ⟨1⟩).not (by decide)]
    rfl

end InputSide

end FuzzyInference
