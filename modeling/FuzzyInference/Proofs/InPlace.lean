import FuzzyInference.InputSide
import FuzzyInference.Proofs.Outcome

/-!
# Requests in place

An operation takes a system and answers a new one, so a refusal cannot spoil the
system it was asked of. A program that keeps one system and changes it in place
has no such comfort: it may have filled one table when it finds that another
will not take the entry.

Here the operations that variables, terms and inputs are added with are such
programs. They check and change one table after the other, and whatever is
changed before a refusal stays changed. Each comes to the same as its operation
(`settle`), and in particular leaves what it was asked of alone when it refuses
(`eq_of_settle_eq_error`). The systems build their own requests on these.

What comes of requests in a row does not depend on the kind of system. Once it is
known that a request has its effect or none (`Program.effect_or_eq`), whatever
the effects keep, relate or add is kept, related or added by all of them.
-/

namespace FuzzyInference

variable {α β σ τ : Type}

/-- Steps on a state that may fail halfway, leaving the state as it is then. -/
abbrev Program (α σ β : Type) := EStateM (Error α) σ β

/-- An operation carried out in place: the new state, or after a refusal the old one. -/
def settle (x : Except (Error α) (β × σ)) (s : σ) : EStateM.Result (Error α) σ β :=
  match x with
  | .ok (b, t) => .ok b t
  | .error e => .error e s

theorem eq_of_settle_eq_error {x : Except (Error α) (β × σ)} {s t : σ} {e : Error α}
    (h : settle x s = .error e t) : t = s := by
  unfold settle at h
  split at h
  · exact absurd h (by simp)
  · cases h
    rfl

theorem settle_eq_ok_iff {x : Except (Error α) (β × σ)} {s t : σ} {b : β} :
    settle x s = .ok b t ↔ x = .ok (b, t) := by
  unfold settle
  split
  · simp only [EStateM.Result.ok.injEq, Except.ok.injEq, Prod.mk.injEq]
  · simp

namespace Program

/-- A check, which changes nothing. -/
def check (x : Except (Error α) β) : Program α σ β := fun s =>
  match x with
  | .ok b => .ok b s
  | .error e => .error e s

/-- A program for a part of the state. -/
def within (part : σ → τ) (put : τ → σ → σ) (p : Program α τ β) : Program α σ β := fun s =>
  match p (part s) with
  | .ok b t => .ok b (put t s)
  | .error e t => .error e (put t s)

/-- A question about the state, which changes nothing. -/
def ask (f : σ → Except (Error α) β) : Program α σ β := fun s => check (f s) s

/-- The state after a program, whether or not it fails. -/
def after (p : Program α σ β) (s : σ) : σ :=
  match p s with
  | .ok _ t => t
  | .error _ t => t

theorem check_bind (x : Except (Error α) β) (f : β → Program α σ τ) (s : σ) :
    (check x >>= f) s = match x with
      | .ok b => f b s
      | .error e => .error e s := by
  cases x <;> rfl

theorem get_bind (f : σ → Program α σ β) (s : σ) : ((get : Program α σ σ) >>= f) s = f s s := rfl

/-- **A program that begins with a part of the state and then changes the rest**, when the part is
dealt with as by an operation. -/
theorem within_bind_eq_settle {part : σ → τ} {put : τ → σ → σ} {p : Program α τ β}
    {x : Except (Error α) (β × τ)} {s : σ} (hp : p (part s) = settle x (part s))
    (hput : put (part s) s = s) (change : β → σ → σ) :
    (do let b ← within part put p; modify (change b); return b : Program α σ β) s
      = settle (do let (b, t) ← x; .ok (b, change b (put t s))) s := by
  show EStateM.bind (within part put p) _ s = _
  unfold EStateM.bind within
  rw [hp]
  cases x with
  | error e =>
    -- the part is put back as it was
    show EStateM.Result.error e (put (part s) s) = _
    rw [hput]
    rfl
  | ok r => rfl

theorem within_eq_settle {part : σ → τ} {put : τ → σ → σ} {p : Program α τ β}
    {x : Except (Error α) (β × τ)} {s : σ} (hp : p (part s) = settle x (part s))
    (hput : put (part s) s = s) :
    within part put p s = settle (do let (b, t) ← x; .ok (b, put t s)) s := by
  unfold within
  rw [hp]
  cases x with
  | error e =>
    show EStateM.Result.error e (put (part s) s) = _
    rw [hput]
    rfl
  | ok r => rfl

theorem map_eq_settle {p : Program α σ β} {x : Except (Error α) (β × σ)} {s : σ}
    (hp : p s = settle x s) (f : β → τ) :
    (f <$> p) s = settle (x.map fun r => (f r.1, r.2)) s := by
  show EStateM.map f p s = _
  unfold EStateM.map
  rw [hp]
  cases x <;> rfl

theorem map_ask_eq_settle (f : σ → Except (Error α) β) (g : β → τ) (s : σ) :
    (g <$> ask f) s = settle ((f s).map fun b => (g b, s)) s := by
  have hask : ask f s = check (f s) s := rfl
  show EStateM.map g (ask f) s = _
  unfold EStateM.map
  rw [hask]
  cases f s <;> rfl

/-- After a program that does as an operation there is what the operation answers, or what there was
before. -/
theorem after_cases {p : Program α σ β} {x : Except (Error α) (β × σ)} {s : σ}
    (hp : p s = settle x s) : (∃ b, x = .ok (b, p.after s)) ∨ p.after s = s := by
  unfold after
  rw [hp]
  cases x with
  | ok r => exact Or.inl ⟨r.1, rfl⟩
  | error e => exact Or.inr rfl

/-- What lasts through the answers of an operation, a program that does as it keeps. -/
theorem holds_after_of_eq_settle {P : σ → Prop} {p : Program α σ β}
    {x : Except (Error α) (β × σ)} {s : σ} (hp : p s = settle x s)
    (hkeeps : ∀ {b t}, x = .ok (b, t) → P t) (hs : P s) : P (p.after s) := by
  rcases after_cases hp with ⟨b, h⟩ | h
  · exact hkeeps h
  · exact h.symm ▸ hs

/-- A program that checks the state before it changes it. -/
theorem check_modify_eq_settle (test : σ → Except (Error α) Unit) (change : σ → σ) (s : σ) :
    (do check (test (← get)); modify change : Program α σ Unit) s
      = settle ((do test s; .ok (change s)).map fun t => ((), t)) s := by
  show ((get : Program α σ σ) >>= _) s = _
  rw [get_bind]
  simp only [check_bind]
  cases test s <;> rfl

theorem after_eq_of_ok {p : Program α σ β} {s t : σ} {b : β} (h : p s = .ok b t) :
    p.after s = t := by
  rw [after, h]

theorem after_eq_of_error {p : Program α σ β} {s t : σ} {e : Error α} (h : p s = .error e t) :
    p.after s = t := by
  rw [after, h]

/-! ## Requests in a row -/

section Requests

variable {ρ : Type} {program : ρ → Program α σ β}

/-- **What lasts through answers and refusals lasts through requests in a row.** -/
theorem foldl_after_of_results {P : σ → Prop}
    (hanswered : ∀ {s t r b}, P s → program r s = .ok b t → P t)
    (hrefused : ∀ {s t r e}, P s → program r s = .error e t → P t) (rs : List ρ) {s : σ}
    (hs : P s) : P (rs.foldl (fun s r => (program r).after s) s) := by
  induction rs generalizing s with
  | nil => exact hs
  | cons r rs ih =>
    refine ih (s := (program r).after s) ?_
    cases hp : program r s with
    | ok b t =>
      rw [after_eq_of_ok hp]
      exact hanswered hs hp
    | error e t =>
      rw [after_eq_of_error hp]
      exact hrefused hs hp

variable {Effect : σ → ρ → σ → Prop}

/-- **After a request there is its effect, or nothing has changed**, if it does as an operation does
whose answers have this effect. -/
theorem effect_or_eq {outcome : σ → ρ → Except (Error α) (β × σ)}
    (hprogram : ∀ r s, program r s = settle (outcome s r) s)
    (houtcome : ∀ {s t r b}, outcome s r = .ok (b, t) → Effect s r t) (r : ρ) (s : σ) :
    Effect s r ((program r).after s) ∨ (program r).after s = s := by
  rcases after_cases (hprogram r s) with ⟨b, h⟩ | h
  · exact Or.inl (houtcome h)
  · exact Or.inr h

variable (heffect : ∀ r s, Effect s r ((program r).after s) ∨ (program r).after s = s)

include heffect

/-- What every effect keeps, a request keeps. -/
theorem holds_after {P : σ → Prop} (hkeeps : ∀ {s r t}, Effect s r t → P s → P t) (r : ρ) {s : σ}
    (hs : P s) : P ((program r).after s) := by
  rcases heffect r s with h | h
  · exact hkeeps h hs
  · exact h.symm ▸ hs

/-- **What every effect relates, requests in a row relate.** -/
theorem foldl_after {R : σ → σ → Prop} (hrefl : ∀ s, R s s)
    (htrans : ∀ {s t u}, R s t → R t u → R s u) (hrelates : ∀ {s r t}, Effect s r t → R s t)
    (rs : List ρ) (s : σ) : R s (rs.foldl (fun s r => (program r).after s) s) := by
  induction rs generalizing s with
  | nil => exact hrefl s
  | cons r rs ih =>
    have hstep : R s ((program r).after s) :=
      holds_after heffect (fun h hs => htrans hs (hrelates h)) r (hrefl s)
    exact htrans hstep (ih _)

/-- **What every effect adds, requests in a row add one after the other.** -/
theorem exists_foldl_after {δ : Type} {Adds : σ → σ → List δ → Prop} {request : δ → ρ}
    (hrefl : ∀ s, Adds s s [])
    (htrans : ∀ {s t u more more'}, Adds s t more → Adds t u more' → Adds s u (more ++ more'))
    {rs : List ρ}
    (hadds : ∀ r ∈ rs, ∀ {s t}, Effect s r t → ∃ more, Adds s t more ∧ ∀ d ∈ more, r = request d)
    (s : σ) :
    ∃ more, Adds s (rs.foldl (fun s r => (program r).after s) s) more
      ∧ ∀ d ∈ more, request d ∈ rs := by
  induction rs generalizing s with
  | nil => exact ⟨[], hrefl s, List.forall_mem_nil _⟩
  | cons r rs ih =>
    obtain ⟨hr, hrs⟩ := List.forall_mem_cons.mp hadds
    have hstep : ∃ more, Adds s ((program r).after s) more ∧ ∀ d ∈ more, r = request d := by
      rcases heffect r s with h | h
      · exact hr h
      · rw [h]
        exact ⟨[], hrefl s, List.forall_mem_nil _⟩
    obtain ⟨more, hmore, hrequest⟩ := hstep
    obtain ⟨more', hmore', hrequests⟩ := ih hrs ((program r).after s)
    refine ⟨more ++ more', htrans hmore hmore', fun d hd => ?_⟩
    rcases List.mem_append.mp hd with hd | hd
    · exact hrequest d hd ▸ List.mem_cons_self
    · exact List.mem_cons_of_mem r (hrequests d hd)

end Requests

end Program

/-! ## Variables and terms -/

namespace VariableTable

/-- Checks name, domain and novelty of a variable before it is entered. -/
def addInPlace [Scalar α] (name : String) (min max : α) :
    Program α (VariableTable α) VariableKey := do
  Program.check (Name.check name)
  if ¬ min ≤ max then throw (.invalidDomain name min max)
  if ((← get).keyOf? name).isSome then throw (.duplicateName name)
  let key := (← get).vars.nextKey
  modify fun t => { t with vars := t.vars.push { name, min, max } }
  return key

/-- Enters a term among the terms first, and then in the list of its variable. -/
def addTermInPlace (key : VariableKey) (name : String) (membership : α → α) :
    Program α (VariableTable α) TermKey := do
  Program.check (Name.check name)
  let t ← get
  match t.variableAt? key with
  | none => throw (.foreignVariable key.description)
  | some v =>
    if (t.termsOf key).any fun (_, term) => term.name = name then
      throw (.duplicateName s!"{v.name}.{name}")
    let term := t.terms.nextKey
    modify fun t => { t with terms := t.terms.push { name, owner := key, membership } }
    modify fun t =>
      { t with vars := t.vars.modify key fun v => { v with terms := v.terms ++ [term] } }
    return term

theorem addInPlace_eq [Scalar α] (t : VariableTable α) (name : String) (min max : α) :
    addInPlace name min max t = settle (t.add name min max) t := by
  unfold addInPlace add
  rw [Program.check_bind]
  cases (Name.check name : Except (Error α) Unit) with
  | error e => rfl
  | ok _ =>
    by_cases hdomain : min ≤ max
    · by_cases hnew : (t.keyOf? name).isSome
      · simp only [hdomain, not_true, if_false, ok_bind, hnew, if_true]
        show ((get : Program α _ _) >>= _) t = _
        rw [Program.get_bind]
        simp only [hnew, if_true]
        rfl
      · simp only [hdomain, not_true, if_false, ok_bind, hnew, Bool.false_eq_true]
        show ((get : Program α _ _) >>= _) t = _
        rw [Program.get_bind]
        simp only [hnew, Bool.false_eq_true, if_false]
        rfl
    · simp only [hdomain, not_false_eq_true, if_true, ok_bind]
      rfl

theorem addTermInPlace_eq (t : VariableTable α) (key : VariableKey) (name : String)
    (membership : α → α) :
    addTermInPlace key name membership t = settle (t.addTerm key name membership) t := by
  unfold addTermInPlace addTerm
  rw [Program.check_bind]
  cases (Name.check name : Except (Error α) Unit) with
  | error e => rfl
  | ok _ =>
    show ((get : Program α _ _) >>= _) t = _
    rw [Program.get_bind]
    simp only [ok_bind]
    cases t.variableAt? key with
    | none => rfl
    | some v =>
      by_cases hnew : (t.termsOf key).any fun e => e.2.name = name
      · simp only [hnew, if_true]
        rfl
      · simp only [hnew, Bool.false_eq_true, if_false]
        rfl

end VariableTable

/-! ## Inputs -/

namespace InputSide

/-- Enters an input in the table, and then in the list of inputs. -/
def addInputInPlace [Scalar α] (name : String) (min max : α) :
    Program α (InputSide α) VariableKey := do
  let key ← Program.within table (fun table s => { s with table })
    (VariableTable.addInPlace name min max)
  modify fun s => { s with inputs := s.inputs ++ [key] }
  return key

def addTermInPlace (key : VariableKey) (name : String) (membership : α → α) :
    Program α (InputSide α) TermKey :=
  Program.within table (fun table s => { s with table })
    (VariableTable.addTermInPlace key name membership)

theorem addInputInPlace_eq [Scalar α] (s : InputSide α) (name : String) (min max : α) :
    addInputInPlace name min max s = settle (s.addInput name min max) s :=
  Program.within_bind_eq_settle (s.table.addInPlace_eq name min max) rfl
    fun key s => { s with inputs := s.inputs ++ [key] }

theorem addTermInPlace_eq (s : InputSide α) (key : VariableKey) (name : String)
    (membership : α → α) :
    addTermInPlace key name membership s = settle (s.addTerm key name membership) s :=
  Program.within_eq_settle (s.table.addTermInPlace_eq key name membership) rfl

end InputSide

end FuzzyInference
