import Mathlib

/-!
# Recipes whose lines may fail

Make expands all lines of a recipe before it starts the first, gives each line to a
shell of its own, and stops the whole run at the first line that fails. What a line
does depends on things make does not see : whether it succeeds, and how far it gets
if it does not. Those are the events of a run, one for each line. A run whose events
are used up was killed between two lines.

`runLines_inv` and `runRecipes_inv` carry an invariant through a run that may stop
anywhere. `runLines_all` says what a run that reached its end has done, and
`runRecipes_sim` follows a run through an abstraction of its states.
-/

namespace GnuMake

variable {σ τ ε α : Type*}

/-- A recipe line : what it leaves under an event, and whether its shell succeeds. -/
abbrev Line (σ ε : Type*) := ε → σ → σ × Bool

/-- How a run ends : the state it leaves, whether it reached the end, and the events it
did not use. -/
structure Outcome (σ ε : Type*) where
  state : σ
  ok : Bool
  rest : List ε

/-- Run lines, one event each. -/
def runLines : List (Line σ ε) → List ε → σ → Outcome σ ε
  | [], es, s => ⟨s, true, es⟩
  | _ :: _, [], s => ⟨s, false, []⟩
  | l :: ls, e :: es, s =>
    if (l e s).2 then runLines ls es (l e s).1 else ⟨(l e s).1, false, es⟩

/-- A recipe, expanded in the state it is started in. -/
abbrev Recipe (σ ε : Type*) := σ → List (Line σ ε)

/-- Run recipes one after another. -/
def runRecipes : List (Recipe σ ε) → List ε → σ → Outcome σ ε
  | [], es, s => ⟨s, true, es⟩
  | r :: rs, es, s =>
    if (runLines (r s) es s).ok then
      runRecipes rs (runLines (r s) es s).rest (runLines (r s) es s).state
    else runLines (r s) es s

/-- Go on after a run, if it reached its end. -/
def Outcome.andThen (o : Outcome σ ε) (k : List ε → σ → Outcome σ ε) : Outcome σ ε :=
  if o.ok then k o.rest o.state else o

theorem andThen_of_ok {o : Outcome σ ε} (h : o.ok) (k : List ε → σ → Outcome σ ε) :
    o.andThen k = k o.rest o.state := if_pos h

theorem andThen_of_not_ok {o : Outcome σ ε} (h : o.ok = false) (k : List ε → σ → Outcome σ ε) :
    o.andThen k = o := by simp [Outcome.andThen, h]

theorem runLines_append (ls ms : List (Line σ ε)) (es : List ε) (s : σ) :
    runLines (ls ++ ms) es s = (runLines ls es s).andThen (runLines ms) := by
  induction ls generalizing es s with
  | nil => simp [runLines, Outcome.andThen]
  | cons l ls ih =>
    cases es with
    | nil => simp [runLines, Outcome.andThen]
    | cons e es =>
      by_cases h : (l e s).2
      · simp only [List.cons_append, runLines, h, if_true, ih]
      · simp [runLines, h, Outcome.andThen]

theorem runRecipes_cons (r : Recipe σ ε) (rs : List (Recipe σ ε)) (es : List ε) (s : σ) :
    runRecipes (r :: rs) es s = (runLines (r s) es s).andThen (runRecipes rs) :=
  rfl

theorem runRecipes_singleton (r : Recipe σ ε) (es : List ε) (s : σ) :
    runRecipes [r] es s = runLines (r s) es s := by
  rw [runRecipes_cons, Outcome.andThen]
  split_ifs with h
  · rw [runRecipes, ← h]
  · rfl

theorem andThen_assoc (o : Outcome σ ε) (j k : List ε → σ → Outcome σ ε) :
    (o.andThen j).andThen k = o.andThen fun es s => (j es s).andThen k := by
  unfold Outcome.andThen
  by_cases h : o.ok <;> simp [h]

theorem runRecipes_append (rs qs : List (Recipe σ ε)) (es : List ε) (s : σ) :
    runRecipes (rs ++ qs) es s = (runRecipes rs es s).andThen (runRecipes qs) := by
  induction rs generalizing es s with
  | nil => simp [runRecipes, Outcome.andThen]
  | cons r rs ih =>
    rw [List.cons_append, runRecipes_cons, runRecipes_cons, andThen_assoc]
    congr 1
    funext es s
    exact ih es s

/-! ## Invariants -/

/-- What every line keeps holds wherever the run stops. -/
theorem runLines_inv {I : σ → Prop} {ls : List (Line σ ε)}
    (h : ∀ l ∈ ls, ∀ e s, I s → I (l e s).1) (es : List ε) {s : σ} (hs : I s) :
    I (runLines ls es s).state := by
  induction ls generalizing es s with
  | nil => exact hs
  | cons l ls ih =>
    cases es with
    | nil => exact hs
    | cons e es =>
      have hl := h l (by simp) e s hs
      rw [runLines]
      split_ifs
      · exact ih (fun m hm => h m (by simp [hm])) es hl
      · exact hl

/-- What every recipe keeps holds wherever the run stops. -/
theorem runRecipes_inv {I : σ → Prop} {rs : List (Recipe σ ε)}
    (h : ∀ r ∈ rs, ∀ es s, I s → I (runLines (r s) es s).state) (es : List ε) {s : σ} (hs : I s) :
    I (runRecipes rs es s).state := by
  induction rs generalizing es s with
  | nil => exact hs
  | cons r rs ih =>
    have hr := h r (by simp) es s hs
    rw [runRecipes]
    split_ifs
    · exact ih (fun q hq => h q (by simp [hq])) _ hr
    · exact hr

/-- A single line is run once, or not at all. -/
theorem runLines_singleton_state (l : Line σ ε) (es : List ε) (s : σ) :
    (runLines [l] es s).state = s ∨ ∃ e, (runLines [l] es s).state = (l e s).1 := by
  cases es with
  | nil => exact .inl rfl
  | cons e es =>
    refine .inr ⟨e, ?_⟩
    rw [runLines]
    split_ifs <;> rfl

theorem andThen_ok {o : Outcome σ ε} {k : List ε → σ → Outcome σ ε} (h : (o.andThen k).ok) :
    o.ok ∧ (k o.rest o.state).ok := by
  unfold Outcome.andThen at h
  split_ifs at h with ho
  · exact ⟨ho, h⟩
  · exact absurd h ho

/-- A run that reached its end has done what each of its lines does, if no later line
undoes it. -/
theorem runLines_all {Q : α → σ → Prop} {line : α → Line σ ε} {cs : List α}
    (hdo : ∀ c ∈ cs, ∀ e s, (line c e s).2 → Q c (line c e s).1)
    (hkeep : ∀ c ∈ cs, ∀ d ∈ cs, ∀ e s, Q c s → Q c (line d e s).1)
    {es : List ε} {s : σ} (h : (runLines (cs.map line) es s).ok) :
    ∀ c ∈ cs, Q c (runLines (cs.map line) es s).state := by
  induction cs generalizing es s with
  | nil => simp
  | cons c cs ih =>
    cases es with
    | nil => simp [runLines] at h
    | cons e es =>
      rw [List.map_cons, runLines] at h ⊢
      split_ifs at h ⊢ with hl
      · intro d hd
        rcases List.mem_cons.mp hd with rfl | hd
        · refine runLines_inv (fun l hm e t ht => ?_) es (hdo d (by simp) e s hl)
          obtain ⟨d', hd', rfl⟩ := List.mem_map.mp hm
          exact hkeep d (by simp) d' (by simp [hd']) e t ht
        · exact ih (fun c hc => hdo c (by simp [hc]))
            (fun c hc d hd => hkeep c (by simp [hc]) d (by simp [hd])) h d hd

/-! ## Lines that meet a condition -/

/-- Every line that is run meets `P` with its event, in the state it is started in. -/
def LinesMeet (P : α → ε → σ → Prop) (line : α → Line σ ε) : List α → List ε → σ → Prop
  | [], _, _ => True
  | _ :: _, [], _ => True
  | c :: cs, e :: es, s => P c e s ∧ ((line c e s).2 → LinesMeet P line cs es (line c e s).1)

instance decidableLinesMeet {P : α → ε → σ → Prop} [∀ c e s, Decidable (P c e s)]
    (line : α → Line σ ε) : ∀ cs es s, Decidable (LinesMeet P line cs es s)
  | [], _, _ => isTrue trivial
  | _ :: _, [], _ => isTrue trivial
  | c :: cs, e :: es, s =>
    have : Decidable (LinesMeet P line cs es (line c e s).1) := decidableLinesMeet line cs es _
    inferInstanceAs (Decidable (P c e s ∧ ((line c e s).2 → LinesMeet P line cs es (line c e s).1)))

/-- In a run that reached its end every line has been run and has succeeded. -/
theorem LinesMeet.exists_of_ok {P : α → ε → σ → Prop} {line : α → Line σ ε} {cs : List α}
    {es : List ε} {s : σ} (hm : LinesMeet P line cs es s) (hok : (runLines (cs.map line) es s).ok) :
    ∀ c ∈ cs, ∃ e s, P c e s ∧ (line c e s).2 := by
  induction cs generalizing es s with
  | nil => simp
  | cons c cs ih =>
    cases es with
    | nil => simp [runLines] at hok
    | cons e es =>
      rw [List.map_cons, runLines] at hok
      split_ifs at hok with hc
      intro d hd
      rcases List.mem_cons.mp hd with rfl | hd
      · exact ⟨e, s, hm.1, hc⟩
      · exact ih (hm.2 hc) hok d hd

theorem linesMeet_append {P : α → ε → σ → Prop} {line : α → Line σ ε} (cs ds : List α)
    (es : List ε) (s : σ) : LinesMeet P line (cs ++ ds) es s ↔ LinesMeet P line cs es s ∧
      ((runLines (cs.map line) es s).ok → LinesMeet P line ds
        (runLines (cs.map line) es s).rest (runLines (cs.map line) es s).state) := by
  induction cs generalizing es s with
  | nil => simp [LinesMeet, runLines]
  | cons c cs ih =>
    cases es with
    | nil => simp [LinesMeet, runLines]
    | cons e es =>
      by_cases hok : (line c e s).2
      · simp only [List.cons_append, LinesMeet, List.map_cons, runLines, hok, if_true, ih,
          forall_const, and_assoc]
      · simp [LinesMeet, runLines, hok]

/-! ## Abstraction -/

def Outcome.map (f : σ → τ) (o : Outcome σ ε) : Outcome τ ε := ⟨f o.state, o.ok, o.rest⟩

/-- If every command does in the abstract what it does in the concrete, so do lines of
commands. -/
theorem runLines_sim {f : σ → τ} {line : α → Line σ ε} {abs : α → Line τ ε}
    (h : ∀ c e s, abs c e (f s) = (f (line c e s).1, (line c e s).2)) (cs : List α)
    (es : List ε) (s : σ) :
    runLines (cs.map abs) es (f s) = (runLines (cs.map line) es s).map f := by
  induction cs generalizing es s with
  | nil => rfl
  | cons c cs ih =>
    cases es with
    | nil => rfl
    | cons e es =>
      rw [List.map_cons, List.map_cons, runLines, runLines, h]
      dsimp only
      split_ifs
      · exact ih es _
      · rfl

/-- The same for recipes that look at the abstract state only. -/
theorem runRecipes_sim {f : σ → τ} {line : α → Line σ ε} {abs : α → Line τ ε}
    (h : ∀ c e s, abs c e (f s) = (f (line c e s).1, (line c e s).2)) (rs : List (τ → List α))
    (es : List ε) (s : σ) :
    runRecipes (rs.map fun r t => (r t).map abs) es (f s) =
      (runRecipes (rs.map fun r t => (r (f t)).map line) es s).map f := by
  induction rs generalizing es s with
  | nil => rfl
  | cons r rs ih =>
    rw [List.map_cons, List.map_cons, runRecipes, runRecipes, runLines_sim h]
    by_cases hok : (runLines ((r (f s)).map line) es s).ok
    · rw [if_pos hok, if_pos (show (Outcome.map f _).ok = true from hok)]
      exact ih _ _
    · simp only [hok, Outcome.map, if_false, Bool.false_eq_true]

end GnuMake
