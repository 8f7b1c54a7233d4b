import Makeroot.Sessions
import Mathlib.Data.Finset.Card
import Mathlib.Logic.Relation

/-!
# Dependency loops

`conf_parse` ends with `sym_check_deps` for all symbols, a search through the symbols that each
symbol depends on. It prints a warning if it comes back to a symbol that it has not done with. It
prints nothing if and only if no symbol depends on itself (`checkAll_out`). Where what is calculated
is also checked, the symbols then have ranks, and what a front end is told is well defined
(`checked_answer`).
-/

set_option linter.unusedSectionVars false

namespace Makeroot

open DeMorgan GnuMake Fuel Relation

variable {σ : Type}

namespace Kconfig

/-! ## sym_check_deps -/

/-- `SYMBOL_CHECK` and `SYMBOL_CHECKED` of the symbols, and what has been printed. -/
structure CheckState (σ : Type) where
  check : σ → Bool
  checked : σ → Bool
  out : Text

/-- No symbol has been searched. -/
def CheckState.init : CheckState σ := ⟨fun _ => false, fun _ => false, []⟩

abbrev CheckM (σ : Type) := StateT (CheckState σ) Option

section Code

def CheckState.print (text : Text) (st : CheckState σ) : CheckState σ :=
  { st with out := st.out ++ text }

/-- What is found first. -/
def firstOf (a b : CheckM σ (Option σ)) : CheckM σ (Option σ) := do
  let sym ← a
  match sym with
  | some sym => pure (some sym)
  | none => b

variable (K : Kconfig σ) (ask : σ → CheckM σ (Option σ))

/-- `sym_check_deps` of a symbol of an expression. `y`, `m` and `n` have no properties. -/
def symCheck : Symbol σ → CheckM σ (Option σ)
  | .other s => ask s
  | _ => pure none

def symCheckExprDeps : Expr σ → CheckM σ (Option σ)
  | .two _ e₁ e₂ => firstOf (symCheckExprDeps e₁) (symCheckExprDeps e₂)
  | .not e => symCheckExprDeps e
  | .comp _ sym₁ sym₂ => firstOf (symCheck ask sym₁) (symCheck ask sym₂)
  | .symbol sym => symCheck ask sym

/-- `sym_check_expr_deps` of an expression that may be `NULL`. -/
def checkDep : Option (Expr σ) → CheckM σ (Option σ)
  | none => pure none
  | some e => symCheckExprDeps ask e

def checkProperty (s : σ) : Property σ → CheckM σ (Option σ)
  | .choice | .select => pure none
  | .prompt visible => checkDep ask visible
  | .range prop => checkDep ask prop.visible
  | .default prop =>
    firstOf (checkDep ask prop.visible)
      (if K.isChoice s then pure none else symCheckExprDeps ask prop.expr)

/-- The loop of `sym_check_deps` over the properties. -/
def checkProperties (s : σ) : List (Property σ) → CheckM σ (Option σ)
  | [] => pure none
  | prop :: props => firstOf (checkProperty K ask s prop) (checkProperties s props)

variable [DecidableEq σ]

omit K in
/-- Both flags are set. -/
def CheckState.enter (s : σ) (st : CheckState σ) : CheckState σ :=
  { st with
    check := Function.update st.check s true
    checked := Function.update st.checked s true }

omit K in
/-- `SYMBOL_CHECK` is cleared. -/
def CheckState.leave (s : σ) (st : CheckState σ) : CheckState σ :=
  { st with check := Function.update st.check s false }

/-- What is left to print on the way back to the symbol that has been found. -/
def printBack (s : σ) : Option σ → CheckM σ (Option σ)
  | none => pure none
  | some sym₂ => do
    modify (·.print (' ' :: K.name s))
    if sym₂ = s then do
      modify (·.print ['\n'])
      pure none
    else pure (some sym₂)

def symCheckDeps : ℕ → σ → CheckM σ (Option σ)
  | 0, _ => failure
  | fuel + 1, s => do
    let st ← get
    if st.check s then do
      modify (·.print ("Warning! Found recursive dependency: ".toList ++ K.name s))
      pure (some s)
    else if st.checked s then pure none
    else do
      modify (·.enter s)
      let sym₂ ← firstOf (checkDep (symCheckDeps fuel) (K.revDep s))
        (checkProperties K (symCheckDeps fuel) s (K.props s))
      let sym₂ ← printBack K s sym₂
      modify (·.leave s)
      pure sym₂

/-- The loop at the end of `conf_parse`. -/
def checkAll (fuel : ℕ) : List σ → CheckM σ Unit
  | [] => pure ()
  | s :: l => do
    let _ ← K.symCheckDeps fuel s
    checkAll fuel l

end Code

end Kconfig

/-! ## What is searched -/

/-- A property of a symbol mentions another symbol where `sym_check_deps` looks. -/
def Property.Checks (choice : Bool) (t : σ) : Property σ → Prop
  | .prompt visible => ∃ e, visible = some e ∧ e.Mentions t
  | .range prop => ∃ e, prop.visible = some e ∧ e.Mentions t
  | .default prop =>
    (∃ e, prop.visible = some e ∧ e.Mentions t) ∨ choice = false ∧ prop.expr.Mentions t
  | _ => False

namespace Kconfig

/-- One symbol depends on another, as far as `sym_check_deps` looks. -/
def Checks (K : Kconfig σ) (s t : σ) : Prop :=
  (∃ e, K.revDep s = some e ∧ e.Mentions t) ∨ ∃ prop ∈ K.props s, prop.Checks (K.isChoice s) t

/-- The search has done with the symbol. -/
def Finished (st : CheckState σ) (s : σ) : Prop := st.checked s = true ∧ st.check s = false

/-- From what the search has done with, it is not possible to go on for ever. -/
def Sound (K : Kconfig σ) (st : CheckState σ) : Prop :=
  ∀ s, Finished st s → Acc (fun t s => K.Checks s t) s

section Search

variable {K : Kconfig σ} {T T' : σ → Prop} {r : Option σ} {st st' st'' : CheckState σ} {n : ℕ}
variable {a b : CheckM σ (Option σ)} {ask : σ → CheckM σ (Option σ)}

structure Grows (st st' : CheckState σ) : Prop where
  check : st'.check = st.check
  checked : ∀ s, st.checked s = true → st'.checked s = true
  out : st.out <+: st'.out

theorem Grows.refl : Grows st st := ⟨rfl, fun _ h => h, List.prefix_rfl⟩

theorem Grows.trans (h : Grows st st') (h' : Grows st' st'') : Grows st st'' :=
  ⟨h'.check.trans h.check, fun s hs => h'.checked s (h.checked s hs), h.out.trans h'.out⟩

theorem Grows.finished (h : Grows st st') {s : σ} (hs : Finished st s) : Finished st' s :=
  ⟨h.checked s hs.1, by rw [h.check, hs.2]⟩

/-- What has been printed is as before only if it has been all along. -/
theorem Grows.silent (h : Grows st st') (h' : Grows st' st'') (heq : st''.out = st.out) :
    st'.out = st.out ∧ st''.out = st'.out := by
  have hle := h.out.length_le
  have hle' := h'.out.length_le
  have hlen := congrArg List.length heq
  exact ⟨(h.out.eq_of_length (by omega)).symm, (h'.out.eq_of_length (by omega)).symm⟩

/-- The symbols `T` have been searched. If nothing has been printed, the search has done with them,
and found nothing. If there are no loops, nothing is printed. -/
structure Searched (K : Kconfig σ) (T : σ → Prop) (st : CheckState σ) (r : Option σ)
    (st' : CheckState σ) : Prop where
  grows : Grows st st'
  none_of_silent : st'.out = st.out → r = none
  finished : st'.out = st.out → K.Sound st → K.Sound st' ∧ ∀ t, T t → Finished st' t
  silent : (∀ s, ¬ TransGen K.Checks s s) →
    (∀ t, T t → ∀ x, st.check x = true → TransGen K.Checks x t) → st'.out = st.out

theorem Searched.congr (h : K.Searched T st r st') (hT : ∀ t, T' t ↔ T t) :
    K.Searched T' st r st' :=
  ⟨h.grows, h.none_of_silent,
    fun ho hs => (h.finished ho hs).imp id fun hf t ht => hf t ((hT t).mp ht),
    fun hno hx => h.silent hno fun t ht => hx t ((hT t).mpr ht)⟩

theorem searched_nothing (hT : ∀ t, ¬ T t) : K.Searched T st none st :=
  ⟨.refl, fun _ => rfl, fun _ hs => ⟨hs, fun t ht => absurd ht (hT t)⟩, fun _ _ => rfl⟩

/-- One search after another, which the first one found no reason to leave out. -/
theorem Searched.trans {r' : Option σ} (h : K.Searched T st r st')
    (h' : K.Searched T' st' r' st'') : K.Searched (fun t => T t ∨ T' t) st r' st'' where
  grows := h.grows.trans h'.grows
  none_of_silent ho := h'.none_of_silent (h.grows.silent h'.grows ho).2
  finished ho hs := by
    obtain ⟨ho₁, ho₂⟩ := h.grows.silent h'.grows ho
    obtain ⟨hs₁, hf₁⟩ := h.finished ho₁ hs
    obtain ⟨hs₂, hf₂⟩ := h'.finished ho₂ hs₁
    refine ⟨hs₂, fun t ht => ht.elim (fun ht => h'.grows.finished (hf₁ t ht)) (hf₂ t)⟩
  silent hno hx := by
    refine (h'.silent hno fun t ht x hc => hx t (.inr ht) x ?_).trans
      (h.silent hno fun t ht => hx t (.inl ht))
    rwa [h.grows.check] at hc

theorem firstOf_searched (ha : Runs a st (K.Searched T st))
    (hb : ∀ st', Grows st st' → Runs b st' (K.Searched T' st')) :
    Runs (firstOf a b) st (K.Searched (fun t => T t ∨ T' t) st) := by
  refine ha.bind fun r st₁ h => ?_
  cases r with
  | none => exact (hb st₁ h.grows).mono fun r st₂ h' => h.trans h'
  | some sym =>
    have hloud : st₁.out ≠ st.out := fun ho => by simpa using h.none_of_silent ho
    exact runs_pure.mpr ⟨h.grows, fun ho => absurd ho hloud, fun ho => absurd ho hloud,
      fun hno hx => h.silent hno fun t ht => hx t (.inl ht)⟩

variable [Fintype σ]

/-- The symbols that are still to be searched. -/
def unchecked (st : CheckState σ) : Finset σ := Finset.univ.filter fun s => st.checked s = false

theorem mem_unchecked {s : σ} : s ∈ unchecked st ↔ st.checked s = false := by
  simp [unchecked]

theorem Grows.card_le (h : Grows st st') : (unchecked st').card ≤ (unchecked st).card := by
  refine Finset.card_le_card fun s hs => ?_
  rw [mem_unchecked] at hs ⊢
  by_contra hno
  simp [h.checked s (Bool.eq_true_of_not_eq_false hno)] at hs

/-- What `sym_check_deps` does for the symbols that are searched in turn. -/
def Searches (K : Kconfig σ) (n : ℕ) (ask : σ → CheckM σ (Option σ)) : Prop :=
  ∀ t st, (unchecked st).card < n → Runs (ask t) st (K.Searched (· = t) st)

theorem symCheck_searched (hask : K.Searches n ask) (hn : (unchecked st).card < n)
    (sym : Symbol σ) : Runs (symCheck ask sym) st (K.Searched (fun t => sym = .other t) st) := by
  cases sym with
  | other s =>
    exact (hask s st hn).mono fun _ _ h => h.congr fun t => by simp [eq_comm]
  | _ => exact runs_pure.mpr (searched_nothing (by simp))

theorem symCheckExprDeps_searched (hask : K.Searches n ask) (e : Expr σ) :
    ∀ {st}, (unchecked st).card < n →
      Runs (symCheckExprDeps ask e) st (K.Searched (fun t => e.Mentions t) st) := by
  induction e with
  | symbol sym => exact fun hn => symCheck_searched hask hn sym
  | not e ih => exact ih
  | comp type sym₁ sym₂ =>
    exact fun hn => firstOf_searched (symCheck_searched hask hn sym₁) fun st' hg =>
      symCheck_searched hask (hg.card_le.trans_lt hn) sym₂
  | two type e₁ e₂ ih₁ ih₂ =>
    exact fun hn => firstOf_searched (ih₁ hn) fun st' hg => ih₂ (hg.card_le.trans_lt hn)

theorem checkDep_searched (hask : K.Searches n ask) (hn : (unchecked st).card < n)
    (p : Option (Expr σ)) :
    Runs (checkDep ask p) st (K.Searched (fun t => ∃ e, p = some e ∧ e.Mentions t) st) := by
  cases p with
  | none => exact runs_pure.mpr (searched_nothing (by simp))
  | some e => exact (symCheckExprDeps_searched hask e hn).mono fun _ _ h => h.congr (by simp)

theorem checkProperty_searched (hask : K.Searches n ask) (hn : (unchecked st).card < n) (s : σ)
    (prop : Property σ) :
    Runs (K.checkProperty ask s prop) st
      (K.Searched (fun t => prop.Checks (K.isChoice s) t) st) := by
  cases prop with
  | prompt visible => exact checkDep_searched hask hn visible
  | range prop => exact checkDep_searched hask hn prop.visible
  | choice => exact runs_pure.mpr (searched_nothing fun _ h => h)
  | select => exact runs_pure.mpr (searched_nothing fun _ h => h)
  | default prop =>
    refine firstOf_searched (checkDep_searched hask hn prop.visible) fun st' hg => ?_
    split_ifs with hc
    · exact runs_pure.mpr (searched_nothing (by simp [hc]))
    · exact (symCheckExprDeps_searched hask prop.expr (hg.card_le.trans_lt hn)).mono
        fun _ _ h => h.congr (by simp [hc])

theorem checkProperties_searched (hask : K.Searches n ask) (s : σ) (props : List (Property σ)) :
    ∀ {st}, (unchecked st).card < n → Runs (K.checkProperties ask s props) st
      (K.Searched (fun t => ∃ prop ∈ props, prop.Checks (K.isChoice s) t) st) := by
  induction props with
  | nil => exact fun _ => runs_pure.mpr (searched_nothing (by simp))
  | cons prop props ih =>
    exact fun hn => (firstOf_searched (checkProperty_searched hask hn s prop) fun st' hg =>
      ih (hg.card_le.trans_lt hn)).mono fun _ _ h => h.congr (by simp)

variable [DecidableEq σ]

/-- Back at a symbol whose dependencies have been searched. -/
theorem leave_searched {s : σ} (hcheck : st.check s = false)
    (h : K.Searched (K.Checks s) (st.enter s) r st') :
    Runs (do
      let sym₂ ← K.printBack s r
      modify (·.leave s)
      pure sym₂) st' (K.Searched (· = s) st) := by
  have hback : ∀ text, (Grows st ((st'.print text).leave s)) := fun text => by
    refine ⟨?_, fun t ht => h.grows.checked t ?_, h.grows.out.trans (List.prefix_append ..)⟩
    · have hleave : Function.update st'.check s false = st.check := by
        rw [h.grows.check, CheckState.enter, Function.update_idem, ← hcheck,
          Function.update_eq_self]
      exact hleave
    · by_cases hts : t = s
      · simp [CheckState.enter, hts]
      · simp [CheckState.enter, hts, ht]
  have hsilent : (∀ s, ¬ TransGen K.Checks s s) →
      (∀ t, t = s → ∀ x, st.check x = true → TransGen K.Checks x t) → st'.out = st.out :=
    fun hno hx => h.silent hno fun t ht x hc => by
      by_cases hxs : x = s
      · exact hxs ▸ .single ht
      · exact (hx s rfl x (by simpa [CheckState.enter, hxs] using hc)).tail ht
  cases r with
  | none =>
    have hst : st'.print [] = st' := by simp [CheckState.print]
    have hgrows := hback []
    rw [hst] at hgrows
    rw [printBack, runs_bind, runs_pure, runs_bind, runs_modify, runs_pure]
    refine ⟨hgrows, fun _ => rfl, fun ho hs => ?_, hsilent⟩
    have henter : K.Sound (st.enter s) := fun t ht => by
      have hts : t ≠ s := by
        rintro rfl
        simp [Finished, CheckState.enter] at ht
      exact hs t (by simpa [Finished, CheckState.enter, hts] using ht)
    obtain ⟨hs', hf⟩ := h.finished ho henter
    have hself : Finished (st'.leave s) s :=
      ⟨h.grows.checked s (by simp [CheckState.enter]), by simp [CheckState.leave]⟩
    refine ⟨fun t ht => ?_, fun t ht => ht ▸ hself⟩
    by_cases hts : t = s
    · exact hts ▸ .intro s fun t ht => hs' t (hf t ht)
    · exact hs' t (by simpa [Finished, CheckState.leave, hts] using ht)
  | some sym₂ =>
    have hloud : st'.out ≠ st.out := fun ho => by simpa using h.none_of_silent ho
    have hout : ∀ text, ((st'.print text).leave s).out ≠ st.out := fun text ho =>
      have hprint : Grows st' (st'.print text) := ⟨rfl, fun _ h => h, List.prefix_append ..⟩
      hloud (h.grows.silent hprint ho).1
    have hend : ∀ text r, K.Searched (· = s) st r ((st'.print text).leave s) := fun text r =>
      ⟨hback text, fun ho => absurd ho (hout text), fun ho => absurd ho (hout text),
        fun hno hx => absurd (hsilent hno hx) hloud⟩
    rw [printBack, runs_bind, runs_bind, runs_modify]
    split_ifs with heq
    · rw [runs_bind, runs_modify, runs_pure, runs_bind, runs_modify, runs_pure]
      have hprint : (st'.print (' ' :: K.name s)).print ['\n'] =
          st'.print (' ' :: K.name s ++ ['\n']) := by simp [CheckState.print]
      rw [hprint]
      exact hend _ _
    · rw [runs_pure, runs_bind, runs_modify, runs_pure]
      exact hend _ _

/-- The symbol itself : it is marked while the symbols that it depends on are searched. -/
theorem symCheckDeps_searched (fuel : ℕ) : K.Searches fuel (K.symCheckDeps fuel) := by
  induction fuel with
  | zero => exact fun _ _ h => absurd h (Nat.not_lt_zero _)
  | succ fuel ih =>
    intro s st hn
    unfold symCheckDeps
    rw [runs_bind, runs_get]
    by_cases hcheck : st.check s = true
    · rw [if_pos hcheck, runs_bind, runs_modify, runs_pure]
      have hloud : st.out ++ ("Warning! Found recursive dependency: ".toList ++ K.name s) ≠
          st.out := by simp
      exact ⟨⟨rfl, fun _ h => h, List.prefix_append ..⟩, fun ho => absurd ho hloud,
        fun ho => absurd ho hloud, fun hno hx => absurd (hx s rfl s hcheck) (hno s)⟩
    · have hcheck := Bool.eq_false_of_not_eq_true hcheck
      rw [if_neg (by simp [hcheck])]
      by_cases hchecked : st.checked s = true
      · rw [if_pos hchecked, runs_pure]
        exact ⟨.refl, fun _ => rfl, fun _ hs => ⟨hs, fun t ht => ht ▸ ⟨hchecked, hcheck⟩⟩,
          fun _ _ => rfl⟩
      · rw [if_neg hchecked, runs_bind, runs_modify]
        have hlt : (unchecked (st.enter s)).card < fuel := by
          refine (Finset.card_lt_card ?_).trans_le (Nat.le_of_lt_succ hn)
          refine (Finset.ssubset_iff_of_subset fun t ht => ?_).mpr ⟨s, ?_, ?_⟩
          · by_cases hts : t = s <;> simp_all [mem_unchecked, CheckState.enter]
          · simpa [mem_unchecked] using hchecked
          · simp [mem_unchecked, CheckState.enter]
        refine (firstOf_searched (checkDep_searched ih hlt _) fun st₁ hg =>
          checkProperties_searched ih s _ (hg.card_le.trans_lt hlt)).bind fun r st₂ h => ?_
        exact leave_searched hcheck h

/-- The loop over the symbols. -/
theorem checkAll_searched {fuel : ℕ} (l : List σ) :
    ∀ {st}, (unchecked st).card < fuel →
      Runs (K.checkAll fuel l) st fun _ st' =>
        ∃ r, K.Searched (fun t => t ∈ l) st r st' := by
  induction l with
  | nil => exact fun _ => runs_pure.mpr ⟨none, searched_nothing (by simp)⟩
  | cons s l ih =>
    exact fun hn => (symCheckDeps_searched fuel s _ hn).bind fun r st₁ h =>
      (ih (h.grows.card_le.trans_lt hn)).mono fun _ st₂ ⟨r', h'⟩ =>
        ⟨r', (h.trans h').congr (by simp)⟩

/-- Nothing is printed if and only if no symbol depends on itself. -/
theorem checkAll_out {fuel : ℕ} {l : List σ} (hl : ∀ s, s ∈ l) (hf : Fintype.card σ < fuel) :
    Runs (K.checkAll fuel l) .init fun _ st' =>
      st'.out = [] ↔ ∀ s, ¬ TransGen K.Checks s s := by
  have hn : (unchecked (.init : CheckState σ)).card < fuel := (Finset.card_le_univ _).trans_lt hf
  refine (checkAll_searched l hn).mono fun _ st' ⟨r, h⟩ => ⟨fun ho => ?_, fun hno => ?_⟩
  · obtain ⟨hs, hfin⟩ := h.finished ho fun s hs => by simp [Finished, CheckState.init] at hs
    have hwf : WellFounded fun t s => K.Checks s t := ⟨fun s => hs s (hfin s (hl s))⟩
    exact fun s hs => hwf.transGen.irrefl.irrefl s (transGen_swap.mpr hs)
  · exact h.silent hno fun _ _ x hx => by simp [CheckState.init] at hx

end Search

/-! ## Ranks -/

section Ranks

variable {K : Kconfig σ} {s t : σ}

theorem mem_prompts {p : Option (Expr σ)} : p ∈ K.prompts s ↔ .prompt p ∈ K.props s := by
  simp only [Properties.prompts, List.mem_filterMap]
  refine ⟨fun h => ?_, fun h => ⟨_, h, rfl⟩⟩
  obtain ⟨q, hq, h⟩ := h
  cases q <;> simp_all

theorem mem_defaults {d : Default σ} : d ∈ K.defaults s ↔ .default d ∈ K.props s := by
  simp only [Properties.defaults, List.mem_filterMap]
  refine ⟨fun h => ?_, fun h => ⟨_, h, rfl⟩⟩
  obtain ⟨q, hq, h⟩ := h
  cases q <;> simp_all

theorem mem_ranges {p : Range σ} : p ∈ K.ranges s ↔ .range p ∈ K.props s := by
  simp only [Properties.ranges, List.mem_filterMap]
  refine ⟨fun h => ?_, fun h => ⟨_, h, rfl⟩⟩
  obtain ⟨q, hq, h⟩ := h
  cases q <;> simp_all

/-- Nothing is calculated that is not searched. The bounds of ranges are symbols without
properties, the symbol of modules does not depend on tristate symbols, and the values of a choice
depend on that choice and on nothing else. -/
structure Covered (K : Kconfig σ) : Prop where
  bound : ∀ s, ∀ p ∈ K.ranges s, ∀ t, p.left = .other t ∨ p.right = .other t → ∀ x, ¬ K.Reads t x
  modules : ∀ s, K.type s = .tristate → ¬ ReflTransGen K.Checks K.modulesSym s
  value : ∀ x c, K.choiceOf x = some c → ∃ e, some e ∈ K.prompts x ∧ e.Mentions c
  only : ∀ x c, K.choiceOf x = some c → ∀ e, some e ∈ K.prompts x → ∀ t, e.Mentions t → t = c

theorem Covered.checks (h : K.Covered) {x : σ} (hst : K.Reads s t) (htx : K.Reads t x) :
    K.Checks s t ∨ K.type s = .tristate ∧ t = K.modulesSym := by
  cases hst with
  | prompt he ht => exact .inl (.inr ⟨_, mem_prompts.mp he, _, rfl, ht⟩)
  | revDep hs he ht => exact .inl (.inl ⟨_, he, ht⟩)
  | defaultVisible hd he ht => exact .inl (.inr ⟨_, mem_defaults.mp hd, .inl ⟨_, he, ht⟩⟩)
  | default hs hd ht => exact .inl (.inr ⟨_, mem_defaults.mp hd, .inr ⟨hs, ht⟩⟩)
  | rangeVisible hp he ht => exact .inl (.inr ⟨_, mem_ranges.mp hp, _, he, ht⟩)
  | left hp ht => exact absurd htx (h.bound s _ hp t (.inl ht) x)
  | right hp ht => exact absurd htx (h.bound s _ hp t (.inr ht) x)
  | choice hc =>
    obtain ⟨e, he, ht⟩ := h.value s t hc
    exact .inl (.inr ⟨_, mem_prompts.mp he, e, rfl, ht⟩)
  | modules hs => exact .inr ⟨hs, rfl⟩
  | value hx he ht hne => exact absurd (h.only _ _ hx _ he t ht) hne

/-- Where no symbol depends on itself, the symbols have ranks. -/
theorem Covered.exists_hasRank [Finite σ] (h : K.Covered)
    (hno : ∀ s, ¬ TransGen K.Checks s s) : ∃ rank, K.HasRank rank :=
  Ranked.exists_rank (Ranked.acyclic_of hno (fun _ _ _ => h.checks) h.modules)

end Ranks

end Kconfig

namespace Small

def all : List Small := [modules, choice, first, second, name]

theorem mem_all : ∀ s, s ∈ all := by decide

theorem covered : config.Covered where
  bound s p hp := by cases s <;> simp [config, properties, Properties.ranges] at hp
  modules s hs := by cases s <;> simp [config, properties, symbols] at hs
  value x c hx := by
    cases x <;> simp [config, properties] at hx
    all_goals
      subst hx
      exact ⟨_, Kconfig.mem_prompts.mpr (List.mem_cons_self ..), rfl⟩
  only x c hx e he t ht := by
    cases x <;> simp [config, properties, Properties.prompts] at hx he
    all_goals
      subst hx he
      exact (Symbol.other.inj ht).symm

end Small

namespace Kconfig

section Results

variable [DecidableEq σ] [Fintype σ] {K : Kconfig σ} {n : ℕ} {l : List σ}

/-- The check of all symbols comes to an end, and prints nothing if and only if no symbol depends
on itself. -/
theorem checkAll_spec (K : Kconfig σ) (hl : ∀ s, s ∈ l) (hn : Fintype.card σ < n) :
    ∃ st, K.checkAll n l .init = some ((), st) ∧
      (st.out = [] ↔ ∀ s, ¬ TransGen K.Checks s s) :=
  have ⟨_, st, hrun, hout⟩ := (checkAll_out hl hn).exists
  ⟨st, hrun, hout⟩

theorem checkAll_small : ∃ st, Small.config.checkAll 6 Small.all .init = some ((), st) ∧
    (st.out = [] ↔ ∀ s, ¬ TransGen Small.config.Checks s s) :=
  checkAll_spec Small.config Small.mem_all (by decide)

end Results

end Kconfig

end Makeroot
