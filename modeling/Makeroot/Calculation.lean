import Makeroot.Meaning

/-!
# Values on demand

`sym_calc_value` calculates what it is asked for and keeps it. Where the symbols can be ranked,
what it keeps is the solution of the equations (`symCalcValue_runs`), whatever has been asked for
before. While a symbol is calculated, it has the flag of a valid one and does not yet have its
value : the symbols that are asked for then are of a lower rank, and do not read it. A choice is
read by the prompts of its own values, while it has the value `y` for the time being.
-/

set_option linter.unusedSectionVars false

namespace Makeroot

open DeMorgan GnuMake Fuel

variable {σ : Type}

/-! ## Writes -/

section Writes

variable [DecidableEq σ] {st : KconfigState σ} {s t : σ} {f : SymbolState σ → SymbolState σ}

@[simp] theorem KconfigState.update_self : (st.update s f).sym s = f (st.sym s) :=
  Function.update_self ..

@[simp] theorem KconfigState.update_of_ne (h : t ≠ s) : (st.update s f).sym t = st.sym t :=
  Function.update_of_ne h ..

@[simp] theorem KconfigState.update_modulesVal : (st.update s f).modulesVal = st.modulesVal := rfl

end Writes

namespace Kconfig

/-! ## Steps -/

section Steps

variable {K : Kconfig σ} {rank : σ → ℕ} {u : σ → User σ} {m : Tristate} {o : σ → Result σ}
variable {st st' st'' : KconfigState σ} {own own' : σ → Prop} {s t : σ}

/-- What is kept for a symbol is the solution. -/
structure Agrees (K : Kconfig σ) (o : σ → Result σ) (st : KconfigState σ) (t : σ) : Prop where
  curr : (st.sym t).curr = (o t).curr
  visible : K.Declared t → (st.sym t).visible = (o t).visible
  revTri : K.Declared t → (st.sym t).revTri = (o t).revTri

/-- From one state to a later one. What is valid stays as it is, what becomes valid is the
solution, but for the symbols `own` that are at work. -/
structure Step (K : Kconfig σ) (m : Tristate) (o : σ → Result σ) (own : σ → Prop)
    (st st' : KconfigState σ) : Prop where
  user : ∀ t, (st'.sym t).user = (st.sym t).user
  valid : ∀ t, (st.sym t).valid = true → (st'.sym t).valid = true
  curr : ∀ t, ¬ own t → (st.sym t).valid = true → (st'.sym t).curr = (st.sym t).curr
  visible : ∀ t, (st.sym t).visible = (o t).visible → (st'.sym t).visible = (o t).visible
  revTri : ∀ t, (st.sym t).revTri = (o t).revTri → (st'.sym t).revTri = (o t).revTri
  fresh : ∀ t, ¬ own t → ¬ (st.sym t).valid = true → (st'.sym t).valid = true → K.Agrees o st' t
  modules : st'.modulesVal = st.modulesVal ∨ st'.modulesVal = m
  modulesSym : ¬ own K.modulesSym → K.Declared K.modulesSym →
    ¬ (st.sym K.modulesSym).valid = true → (st'.sym K.modulesSym).valid = true →
    st'.modulesVal = m

/-- A step of others. -/
abbrev Quiet (K : Kconfig σ) (m : Tristate) (o : σ → Result σ) (st st' : KconfigState σ) : Prop :=
  K.Step m o (fun _ => False) st st'

theorem Agrees.step (h : K.Agrees o st t) (hs : K.Step m o own st st') (ht : ¬ own t)
    (hv : (st.sym t).valid = true) : K.Agrees o st' t :=
  ⟨(hs.curr t ht hv).trans h.curr, fun hd => hs.visible t (h.visible hd),
    fun hd => hs.revTri t (h.revTri hd)⟩

theorem Step.refl : K.Step m o own st st where
  user _ := rfl
  valid _ h := h
  curr _ _ _ := rfl
  visible _ h := h
  revTri _ h := h
  fresh _ _ h h' := absurd h' h
  modules := .inl rfl
  modulesSym _ _ h h' := absurd h' h

theorem Step.mono (h : K.Step m o own st st') (hown : ∀ t, own t → own' t) :
    K.Step m o own' st st' :=
  { h with
    curr := fun t ht => h.curr t fun h' => ht (hown t h')
    fresh := fun t ht => h.fresh t fun h' => ht (hown t h')
    modulesSym := fun ht => h.modulesSym fun h' => ht (hown _ h') }

theorem Step.trans (h : K.Step m o own st st') (h' : K.Step m o own st' st'') :
    K.Step m o own st st'' where
  user t := (h'.user t).trans (h.user t)
  valid t hv := h'.valid t (h.valid t hv)
  curr t ht hv := (h'.curr t ht (h.valid t hv)).trans (h.curr t ht hv)
  visible t hv := h'.visible t (h.visible t hv)
  revTri t hv := h'.revTri t (h.revTri t hv)
  fresh t ht hv hv'' := by
    by_cases hv' : (st'.sym t).valid = true
    · exact (h.fresh t ht hv hv').step h' ht hv'
    · exact h'.fresh t ht hv' hv''
  modules := by
    rcases h'.modules with hm' | hm'
    · rw [hm']
      exact h.modules
    · exact .inr hm'
  modulesSym ht hd hv hv'' := by
    by_cases hv' : (st'.sym K.modulesSym).valid = true
    · have hm := h.modulesSym ht hd hv hv'
      rcases h'.modules with hm' | hm'
      · rw [hm', hm]
      · exact hm'
    · exact h'.modulesSym ht hd hv' hv''

theorem Step.widen (h : K.Quiet m o st st') : K.Step m o own st st' :=
  Step.mono h fun _ h => h.elim

/-- A state with the same values, and with what is visible or selected as in the solution. -/
theorem quiet_of_fields (huser : ∀ t, (st'.sym t).user = (st.sym t).user)
    (hvalid : ∀ t, (st'.sym t).valid = (st.sym t).valid)
    (hcurr : ∀ t, (st'.sym t).curr = (st.sym t).curr)
    (hvisible : ∀ t, (st'.sym t).visible = (st.sym t).visible ∨
      (st'.sym t).visible = (o t).visible)
    (hrevTri : ∀ t, (st'.sym t).revTri = (st.sym t).revTri ∨ (st'.sym t).revTri = (o t).revTri)
    (hmodules : st'.modulesVal = st.modulesVal ∨ st'.modulesVal = m) : K.Quiet m o st st' where
  user := huser
  valid t h := (hvalid t).trans h
  curr t _ _ := hcurr t
  visible t h := (hvisible t).elim (·.trans h) id
  revTri t h := (hrevTri t).elim (·.trans h) id
  fresh t _ h h' := absurd (hvalid t ▸ h') h
  modules := hmodules
  modulesSym _ _ h h' := absurd (hvalid _ ▸ h') h

/-- A state that differs in the value of the symbol at work. -/
theorem step_of_fields (hother : ∀ t, t ≠ s → st'.sym t = st.sym t)
    (huser : (st'.sym s).user = (st.sym s).user) (hvalid : (st'.sym s).valid = (st.sym s).valid)
    (hvisible : (st'.sym s).visible = (st.sym s).visible)
    (hrevTri : (st'.sym s).revTri = (st.sym s).revTri)
    (hmodules : st'.modulesVal = st.modulesVal) : K.Step m o (· = s) st st' where
  user t := by
    by_cases ht : t = s
    · exact ht ▸ huser
    · rw [hother t ht]
  valid t h := by
    by_cases ht : t = s
    · exact ht ▸ hvalid.trans (ht ▸ h)
    · rwa [hother t ht]
  curr t ht _ := by rw [hother t ht]
  visible t h := by
    by_cases ht : t = s
    · exact ht ▸ hvisible.trans (ht ▸ h)
    · rwa [hother t ht]
  revTri t h := by
    by_cases ht : t = s
    · exact ht ▸ hrevTri.trans (ht ▸ h)
    · rwa [hother t ht]
  fresh t ht h h' := absurd (hother t ht ▸ h') h
  modules := .inl hmodules
  modulesSym ht _ h h' := absurd (hother _ ht ▸ h') h

section Update

variable [DecidableEq σ]

theorem quiet_visible (s : σ) (a : Tristate) (ha : a = (o s).visible) :
    K.Quiet m o st (st.update s fun d => { d with visible := a }) := by
  refine quiet_of_fields (fun t => ?_) (fun t => ?_) (fun t => ?_) (fun t => ?_) (fun t => ?_)
    (.inl rfl)
  all_goals by_cases ht : t = s <;> [subst ht; skip] <;> simp_all

theorem quiet_revTri (s : σ) (a : Tristate) (ha : a = (o s).revTri) :
    K.Quiet m o st (st.update s fun d => { d with revTri := a }) := by
  refine quiet_of_fields (fun t => ?_) (fun t => ?_) (fun t => ?_) (fun t => ?_) (fun t => ?_)
    (.inl rfl)
  all_goals by_cases ht : t = s <;> [subst ht; skip] <;> simp_all

theorem quiet_write (s : σ) (b : Bool) :
    K.Quiet m o st (st.update s fun d => { d with write := b }) := by
  refine quiet_of_fields (fun t => ?_) (fun t => ?_) (fun t => ?_) (fun t => ?_) (fun t => ?_)
    (.inl rfl)
  all_goals by_cases ht : t = s <;> [subst ht; skip] <;> simp_all

theorem step_curr (s : σ) (f : SymbolValue σ → SymbolValue σ) :
    K.Step m o (· = s) st (st.update s fun d => { d with curr := f d.curr }) :=
  step_of_fields (fun _ ht => KconfigState.update_of_ne ht) (by simp) (by simp) (by simp)
    (by simp) rfl

end Update

/-! ## What may be asked for -/

/-- A symbol is being calculated. It has the flag already, and what is of a lower rank is the
solution as far as it is valid. -/
structure During (K : Kconfig σ) (rank : σ → ℕ) (u : σ → User σ) (m : Tristate)
    (o : σ → Result σ) (s : σ) (st : KconfigState σ) : Prop where
  below : ∀ t, rank t < rank s → (st.sym t).valid = true → K.Agrees o st t
  user : ∀ t, (st.sym t).user = u t
  values : ∀ x, (K.choiceOf x).isSome → (st.sym x).revTri = (o x).revTri
  modules : st.modulesVal = m ∨ rank s ≤ rank K.modulesSym
  valid : (st.sym s).valid = true

theorem During.step (h : K.During rank u m o s st) (hs : K.Step m o own st st')
    (hown : ∀ t, own t → t = s) : K.During rank u m o s st' where
  below t ht hv' := by
    have hno : ¬ own t := fun ho => absurd (hown t ho ▸ ht) (lt_irrefl _)
    by_cases hv : (st.sym t).valid = true
    · exact (h.below t ht hv).step hs hno hv
    · exact hs.fresh t hno hv hv'
  user t := (hs.user t).trans (h.user t)
  values x hx := hs.revTri x (h.values x hx)
  modules := by
    rcases hs.modules with hm | hm
    · rw [hm]
      exact h.modules
    · exact .inl hm
  valid := hs.valid s h.valid

theorem During.quiet (h : K.During rank u m o s st) (hs : K.Quiet m o st st') :
    K.During rank u m o s st' :=
  h.step hs fun _ h => h.elim

/-- The symbol of modules is below a tristate symbol, and has been calculated before it. -/
theorem During.modulesVal (h : K.During rank u m o s st) (hK : K.HasRank rank)
    (ht : K.type s = .tristate) : st.modulesVal = m :=
  h.modules.resolve_right (Nat.not_le_of_lt (hK s _ (.modules ht)))

/-- What a reading is to say of a symbol that is asked for : the solution, or what the symbol at
work has for the time being. -/
def Known (rank : σ → ℕ) (o : σ → Result σ) (s : σ) (r : Reading σ) (st : KconfigState σ)
    (t : σ) : Prop :=
  rank t < rank s ∧ r.Same (readingOf o) t ∨ t = s ∧ r.Same st.reading t

variable {r : Reading σ}

theorem Known.quiet (h : Known rank o s r st t) (hd : K.During rank u m o s st)
    (hs : K.Quiet m o st st') : Known rank o s r st' t := by
  rcases h with h | ⟨rfl, htri, hval⟩
  · exact .inl h
  · have hc := hs.curr t id hd.valid
    exact .inr ⟨rfl, htri.trans (congrArg (·.tri) hc).symm, hval.trans (congrArg (·.val) hc).symm⟩

/-- The reading is right once the symbol is valid. -/
theorem Known.same (h : Known rank o s r st t) (hd : K.During rank u m o s st)
    (hv : (st.sym t).valid = true) : st.reading.Same r t := by
  rcases h with ⟨hlt, htri, hval⟩ | ⟨-, htri, hval⟩
  · have hc := (hd.below t hlt hv).curr
    exact ⟨(congrArg (·.tri) hc).trans htri.symm, (congrArg (·.val) hc).trans hval.symm⟩
  · exact ⟨htri.symm, hval.symm⟩

/-- What `sym_calc_value` does for the symbols that are asked for while `s` is calculated. -/
def Asks (K : Kconfig σ) (rank : σ → ℕ) (u : σ → User σ) (m : Tristate) (o : σ → Result σ)
    (ask : σ → CalcM σ Unit) (s : σ) : Prop :=
  ∀ t, rank t < rank s ∨ t = s → ∀ st, K.During rank u m o s st →
    Runs (ask t) st fun _ st' => K.Quiet m o st st' ∧ (st'.sym t).valid = true

end Steps

/-! ## Expressions -/

section Expressions

variable [DecidableEq σ] {K : Kconfig σ} {rank : σ → ℕ} {u : σ → User σ} {m : Tristate}
variable {o : σ → Result σ} {ask : σ → CalcM σ Unit} {s : σ} {r : Reading σ}
variable {st : KconfigState σ}

/-- A symbol that is asked for is valid then, and what the reading says. -/
structure Serves (K : Kconfig σ) (m : Tristate) (o : σ → Result σ) (ask : σ → CalcM σ Unit)
    (r : Reading σ) (st : KconfigState σ) (t : σ) : Prop where
  run : ∀ st', K.Quiet m o st st' →
    Runs (ask t) st' fun _ st'' => K.Quiet m o st' st'' ∧ (st''.sym t).valid = true
  same : ∀ st', K.Quiet m o st st' → (st'.sym t).valid = true → st'.reading.Same r t

theorem Serves.quiet {st' : KconfigState σ} {t : σ} (h : K.Serves m o ask r st t)
    (hs : K.Quiet m o st st') : K.Serves m o ask r st' t :=
  ⟨fun st₁ h₁ => h.run st₁ (hs.trans h₁), fun st₁ h₁ => h.same st₁ (hs.trans h₁)⟩

theorem Known.serves {t : σ} (h : Known rank o s r st t) (hask : K.Asks rank u m o ask s)
    (hd : K.During rank u m o s st) : K.Serves m o ask r st t :=
  ⟨fun st' hs => hask t (h.imp And.left And.left) st' (hd.quiet hs),
    fun _ hs => (h.quiet hd hs).same (hd.quiet hs)⟩

theorem symCalc_serves {sym : Symbol σ}
    (h : ∀ t, sym = .other t → K.Serves m o ask r st t) :
    Runs (symCalc ask sym) st fun _ st' =>
      K.Quiet m o st st' ∧ ∀ t, sym = .other t → (st'.sym t).valid = true := by
  cases sym with
  | other t =>
    refine ((h t rfl).run st .refl).mono fun _ st' h' => ⟨h'.1, ?_⟩
    rintro t' ⟨⟩
    exact h'.2
  | _ => exact runs_pure.mpr ⟨.refl, nofun⟩

/-- An expression has its value, and its symbols are valid afterwards. -/
theorem exprCalcValue_serves {e : Expr σ} :
    ∀ {st}, (∀ t, e.Mentions t → K.Serves m o ask r st t) →
      Runs (K.exprCalcValue ask e) st fun a st' =>
        a = K.exprValue r e ∧ K.Quiet m o st st' ∧
          ∀ t, e.Mentions t → (st'.sym t).valid = true := by
  induction e with
  | symbol sym =>
    intro st h
    refine (symCalc_serves h).bind fun _ st' ⟨hs, hv⟩ => ?_
    rw [runs_bind, runs_get, runs_pure]
    exact ⟨Reading.symTri_congr fun t ht => (h t ht).same st' hs (hv t ht), hs, hv⟩
  | not e ih =>
    intro st h
    refine (ih h).bind fun a st' ⟨ha, hs⟩ => ?_
    rw [runs_pure, ha]
    exact ⟨rfl, hs⟩
  | comp type sym₁ sym₂ =>
    intro st h
    refine (symCalc_serves fun t ht => h t (.inl ht)).bind fun _ st₁ ⟨hs₁, hv₁⟩ => ?_
    refine (symCalc_serves fun t ht => (h t (.inr ht)).quiet hs₁).bind fun _ st₂ ⟨hs₂, hv₂⟩ => ?_
    have hs := hs₁.trans hs₂
    have hvalid : ∀ t, sym₁ = .other t ∨ sym₂ = .other t → (st₂.sym t).valid = true :=
      fun t ht => ht.elim (fun ht => hs₂.valid t (hv₁ t ht)) (hv₂ t)
    have hsame : ∀ t, sym₁ = .other t ∨ sym₂ = .other t → st₂.reading.Same r t :=
      fun t ht => (h t ht).same st₂ hs (hvalid t ht)
    rw [runs_bind, runs_get]
    have hstr₁ : st₂.reading.symGetStringValue K.toSymbols sym₁ = r.symGetStringValue _ sym₁ :=
      Reading.symGetStringValue_congr fun t ht => hsame t (.inl ht)
    have hstr₂ : st₂.reading.symGetStringValue K.toSymbols sym₂ = r.symGetStringValue _ sym₂ :=
      Reading.symGetStringValue_congr fun t ht => hsame t (.inr ht)
    cases type <;> exact runs_pure.mpr ⟨by rw [hstr₁, hstr₂]; rfl, hs, hvalid⟩
  | two type e₁ e₂ ih₁ ih₂ =>
    intro st h
    have hboth : Runs (do
        let val₁ ← K.exprCalcValue ask e₁
        let val₂ ← K.exprCalcValue ask e₂
        pure (type.op val₁ val₂)) st fun a st' => a = K.exprValue r (.two type e₁ e₂) ∧
          K.Quiet m o st st' ∧ ∀ t, (Expr.two type e₁ e₂).Mentions t →
            (st'.sym t).valid = true := by
      refine (ih₁ fun t ht => h t (.inl ht)).bind fun a st₁ ⟨ha, hs₁, hv₁⟩ => ?_
      refine (ih₂ fun t ht => (h t (.inr ht)).quiet hs₁).bind fun b st₂ ⟨hb, hs₂, hv₂⟩ => ?_
      rw [runs_pure, ha, hb]
      exact ⟨rfl, hs₁.trans hs₂, fun t ht => ht.elim (fun ht => hs₂.valid t (hv₁ t ht)) (hv₂ t)⟩
    cases type
    · simpa only [exprCalcValue, Tristate.eOr_eq] using hboth
    · simpa only [exprCalcValue, Tristate.eAnd_eq] using hboth

theorem symCalc_runs (hask : K.Asks rank u m o ask s) (hd : K.During rank u m o s st)
    {sym : Symbol σ} (h : ∀ t, sym = .other t → Known rank o s r st t) :
    Runs (symCalc ask sym) st fun _ st' =>
      K.Quiet m o st st' ∧ ∀ t, sym = .other t → (st'.sym t).valid = true :=
  symCalc_serves fun t ht => (h t ht).serves hask hd

theorem exprCalcValue_runs (hask : K.Asks rank u m o ask s) (hd : K.During rank u m o s st)
    {e : Expr σ} (h : ∀ t, e.Mentions t → Known rank o s r st t) :
    Runs (K.exprCalcValue ask e) st fun a st' =>
      a = K.exprValue r e ∧ K.Quiet m o st st' ∧ ∀ t, e.Mentions t → (st'.sym t).valid = true :=
  exprCalcValue_serves fun t ht => (h t ht).serves hask hd

theorem depCalcValue_runs (hask : K.Asks rank u m o ask s) (hd : K.During rank u m o s st)
    {p : Option (Expr σ)} (h : ∀ e, p = some e → ∀ t, e.Mentions t → Known rank o s r st t) :
    Runs (K.depCalcValue ask p) st fun a st' => a = K.depValue r p ∧ K.Quiet m o st st' ∧
      ∀ e, p = some e → ∀ t, e.Mentions t → (st'.sym t).valid = true := by
  cases p with
  | none => exact runs_pure.mpr ⟨rfl, .refl, nofun⟩
  | some e =>
    refine (exprCalcValue_runs hask hd (h e rfl)).mono fun a st' ⟨ha, hs, hv⟩ => ⟨ha, hs, ?_⟩
    rintro e' ⟨⟩
    exact hv

theorem calcRevDep_runs (hask : K.Asks rank u m o ask s) (hd : K.During rank u m o s st)
    {p : Option (Expr σ)} (h : ∀ e, p = some e → ∀ t, e.Mentions t → Known rank o s r st t) :
    Runs (K.calcRevDep ask p) st fun a st' =>
      a = p.elim .no (K.exprValue r) ∧ K.Quiet m o st st' := by
  cases p with
  | none => exact runs_pure.mpr ⟨rfl, .refl⟩
  | some e => exact (exprCalcValue_runs hask hd (h e rfl)).mono fun a st' h' => ⟨h'.1, h'.2.1⟩

/-- The loop finds the first property that is visible. -/
theorem firstVisibleProp_runs (hask : K.Asks rank u m o ask s) {π : Type}
    {visible : π → Option (Expr σ)} {props : List π} :
    ∀ {st}, K.During rank u m o s st →
      (∀ p ∈ props, ∀ e, visible p = some e → ∀ t, e.Mentions t → Known rank o s r st t) →
      Runs (K.firstVisibleProp ask visible props) st fun a st' =>
        a = K.firstVisible r visible props ∧ K.Quiet m o st st' := by
  induction props with
  | nil => exact fun _ _ => runs_pure.mpr ⟨rfl, .refl⟩
  | cons p props ih =>
    intro st hd h
    refine (depCalcValue_runs hask hd (h p (by simp))).bind fun a st₁ ⟨ha, hs₁, _⟩ => ?_
    have hfirst : K.firstVisible r visible (p :: props) =
        if a = .no then K.firstVisible r visible props else some p := by
      rw [firstVisible, List.find?_cons, ← ha]
      by_cases hno : a = .no <;> simp [hno, firstVisible]
    rw [hfirst]
    split_ifs
    · refine (ih (hd.quiet hs₁) fun p' hp' e he t ht => ?_).mono fun b st₂ ⟨hb, hs₂⟩ =>
        ⟨hb, hs₁.trans hs₂⟩
      exact (h p' (by simp [hp']) e he t ht).quiet hd hs₁
    · exact runs_pure.mpr ⟨rfl, hs₁⟩

/-- The loop over the prompts. Their symbols are valid afterwards. -/
theorem calcPrompts_runs (hask : K.Asks rank u m o ask s) {props : List (Option (Expr σ))} :
    ∀ {st} {tri : Tristate}, K.During rank u m o s st →
      (∀ e, some e ∈ props → ∀ t, e.Mentions t → Known rank o s r st t) →
      Runs (K.calcPrompts ask props tri) st fun a st' =>
        a = tri ⊔ (props.map (K.depValue r)).foldr (· ⊔ ·) .no ∧ K.Quiet m o st st' ∧
          ∀ e, some e ∈ props → ∀ t, e.Mentions t → (st'.sym t).valid = true := by
  induction props with
  | nil =>
    refine fun _ _ => runs_pure.mpr ⟨(sup_bot_eq _).symm, .refl, fun e he => ?_⟩
    simp at he
  | cons p props ih =>
    intro st tri hd h
    refine (depCalcValue_runs hask hd fun e he => h e (by simp [he])).bind
      fun a st₁ ⟨ha, hs₁, hv₁⟩ => ?_
    refine (ih (hd.quiet hs₁) fun e he t ht =>
      (h e (List.mem_cons_of_mem _ he) t ht).quiet hd hs₁).mono fun b st₂ ⟨hb, hs₂, hv₂⟩ =>
        ⟨?_, hs₁.trans hs₂, fun e he => ?_⟩
    · rw [hb, ha, Tristate.eOr_eq, List.map_cons, List.foldr_cons]
      exact sup_assoc ..
    · rcases List.mem_cons.mp he with he | he
      · exact fun t ht => hs₂.valid t (hv₁ e he.symm t ht)
      · exact hv₂ e he

end Expressions

/-! ## sym_calc_visibility -/

section Visibility

variable [DecidableEq σ] {K : Kconfig σ} {rank : σ → ℕ} {u : σ → User σ} {m : Tristate}
variable {o : σ → Result σ} {ask : σ → CalcM σ Unit} {s x : σ} {r : Reading σ}
variable {st : KconfigState σ}

/-- The symbol at work and the values of a choice at work see the same symbol of modules. -/
theorem During.modules_iff (hd : K.During rank u m o s st) (hK : K.HasRank rank)
    (hx : K.type x = K.type s) :
    (K.type x ≠ .tristate ∨ st.modulesVal = .no) ↔ (K.type x ≠ .tristate ∨ m = .no) := by
  by_cases ht : K.type x = .tristate
  · rw [hd.modulesVal hK (hx ▸ ht)]
  · simp [ht]

theorem During.symGetType_eq (hd : K.During rank u m o s st) (hK : K.HasRank rank)
    (hx : K.type x = K.type s) :
    K.symGetType st x = K.typeOf m (st.sym x).visible x := by
  unfold Kconfig.symGetType typeOf
  by_cases ht : K.type x = .tristate
  · rw [hd.modulesVal hK (hx ▸ ht)]
  · simp [ht]

/-- A value of a choice is made visible as it is in the solution, if the reading says so. -/
theorem symCalcVisibility_value (hK : K.HasRank rank) (hask : K.Asks rank u m o ask s)
    (hd : K.During rank u m o s st) (hx : K.choiceOf x = some s)
    (h : ∀ e, some e ∈ K.prompts x → ∀ t, e.Mentions t → Known rank o s r st t)
    (hvisible : K.visibleOf r m x = (o x).visible) :
    Runs (K.symCalcVisibility ask x) st fun _ st' =>
      K.Quiet m o st st' ∧ (st'.sym x).visible = (o x).visible := by
  refine (calcPrompts_runs hask hd h).bind fun a st₁ ⟨ha, hs₁, _⟩ => ?_
  have hiff := (hd.quiet hs₁).modules_iff hK (K.type_of_value x s hx)
  rw [runs_bind, runs_get, runs_bind, runs_modify, if_pos (by rw [hx]; rfl), runs_pure]
  have htri : (if a = .mod ∧ (K.type x ≠ .tristate ∨ st₁.modulesVal = .no) then .yes else a) =
      (o x).visible := by
    rw [← hvisible, visibleOf, Tristate.promote, ha]
    simp only [hiff]
    rfl
  rw [htri]
  exact ⟨hs₁.trans (quiet_visible x _ rfl), by simp⟩

/-- The symbol at work becomes visible and selected as it is in the solution. -/
theorem symCalcVisibility_self (hK : K.HasRank rank) (hask : K.Asks rank u m o ask s)
    (ho : K.Solution u m o) (hd : K.During rank u m o s st) :
    Runs (K.symCalcVisibility ask s) st fun _ st' =>
      K.Quiet m o st st' ∧ (st'.sym s).visible = (o s).visible ∧
      (st'.sym s).revTri = (o s).revTri ∧
      ∀ e, some e ∈ K.prompts s → ∀ t, e.Mentions t → (st'.sym t).valid = true := by
  have hvisible : (o s).visible = K.visibleOf (readingOf o) m s := congrArg (·.visible) (ho.eq s)
  have hrevTri : (o s).revTri = K.revOf (readingOf o) m (o s).visible s := by
    rw [hvisible]
    exact congrArg (·.revTri) (ho.eq s)
  have hknown : ∀ st t, K.Reads s t → Known rank o s (readingOf o) st t :=
    fun st t ht => .inl ⟨hK s t ht, rfl, rfl⟩
  refine (calcPrompts_runs (r := readingOf o) hask hd
    fun e he t ht => hknown st t (.prompt he ht)).bind fun a st₁ h₁ => ?_
  obtain ⟨ha, hs₁, hv₁⟩ := h₁
  have hd₁ := hd.quiet hs₁
  have hiff := hd₁.modules_iff hK rfl
  rw [runs_bind, runs_get, runs_bind, runs_modify]
  have htri : (if a = .mod ∧ (K.type s ≠ .tristate ∨ st₁.modulesVal = .no) then .yes else a) =
      (o s).visible := by
    rw [hvisible, visibleOf, Tristate.promote, ha]
    simp only [hiff]
    rfl
  rw [htri]
  have hq : K.Quiet m o st₁ (st₁.update s fun d => { d with visible := (o s).visible }) :=
    quiet_visible s (o s).visible rfl
  have hs₂ := hs₁.trans hq
  have hv₂ : ∀ e, some e ∈ K.prompts s → ∀ t, e.Mentions t →
      ((st₁.update s fun d => { d with visible := (o s).visible }).sym t).valid = true :=
    fun e he t ht => hq.valid t (hv₁ e he t ht)
  split_ifs with hc
  · exact runs_pure.mpr ⟨hs₂, by simp, hs₂.revTri s (hd.values s hc), hv₂⟩
  generalize hst₂ : st₁.update s (fun d => { d with visible := (o s).visible }) = st₂ at hs₂ hv₂
  have hvis₂ : (st₂.sym s).visible = (o s).visible := by simp [← hst₂]
  have hno : K.choiceOf s = none := Option.not_isSome_iff_eq_none.mp hc
  refine (calcRevDep_runs (r := readingOf o) hask (hd.quiet hs₂)
    fun e he t ht => hknown st₂ t (.revDep hno he ht)).bind fun b st₃ h₃ => ?_
  obtain ⟨hb, hs₃⟩ := h₃
  rw [runs_bind, runs_get, runs_modify, (hd.quiet (hs₂.trans hs₃)).symGetType_eq hK rfl,
    hs₃.visible s hvis₂]
  have htri' : (if b = .mod ∧ K.typeOf m (o s).visible s = .boolean then .yes else b) =
      (o s).revTri := by
    rw [hrevTri, revOf, if_neg hc, Tristate.promote, hb]
  rw [htri']
  have hs₄ := hs₃.trans (quiet_revTri s (o s).revTri rfl)
  exact ⟨hs₂.trans hs₄, hs₄.visible s hvis₂, by simp,
    fun e he t ht => hs₄.valid t (hv₂ e he t ht)⟩

end Visibility

/-! ## sym_calc_choice -/

section Choice

variable [DecidableEq σ] {K : Kconfig σ} {rank : σ → ℕ} {u : σ → User σ} {m : Tristate}
variable {o : σ → Result σ} {ask : σ → CalcM σ Unit} {s x : σ} {r : Reading σ}
variable {st : KconfigState σ}

/-- A conjunct bounds the value. -/
theorem exprValue_le_of_conjunct {e : Expr σ} (h : e.Conjunct s) : K.exprValue r e ≤ r.tri s := by
  induction e with
  | symbol sym =>
    rcases h with rfl | rfl
    · exact le_rfl
    · exact bot_le
  | two type e₁ e₂ ih₁ ih₂ =>
    cases type with
    | and => exact h.elim (fun h => inf_le_left.trans (ih₁ h)) fun h => inf_le_right.trans (ih₂ h)
    | or => exact h.elim
  | _ => exact h.elim

/-- A conjunct is in the expression, unless that is `n` for good. -/
theorem mentions_of_conjunct {e : Expr σ} (h : e.Conjunct s) (hv : K.exprValue r e ≠ .no) :
    e.Mentions s := by
  induction e with
  | symbol sym =>
    rcases h with rfl | rfl
    · rfl
    · exact absurd rfl hv
  | two type e₁ e₂ ih₁ ih₂ =>
    cases type with
    | and =>
      rcases h with h | h
      · exact .inl (ih₁ h fun h₁ => hv (le_bot_iff.mp (inf_le_left.trans h₁.le)))
      · exact .inr (ih₂ h fun h₂ => hv (le_bot_iff.mp (inf_le_right.trans h₂.le)))
    | or => exact h.elim
  | _ => exact h.elim

/-- Where a symbol is visible, a prompt is. -/
theorem exists_prompt (h : K.visibleOf r m x ≠ .no) :
    ∃ p ∈ K.prompts x, K.depValue r p ≠ .no := by
  by_contra hno
  push Not at hno
  have hfold : ∀ l : List (Option (Expr σ)), (∀ p ∈ l, K.depValue r p = .no) →
      (l.map (K.depValue r)).foldr (· ⊔ ·) .no = .no := by
    intro l
    induction l with
    | nil => exact fun _ => rfl
    | cons p l ih =>
      intro hl
      rw [List.map_cons, List.foldr_cons, ih fun p hp => hl p (by simp [hp]), hl p (by simp)]
      rfl
  exact h (by rw [visibleOf, hfold _ hno]; rfl)

/-- The values of a choice that is `n` are not visible. -/
theorem visibleOf_eq_no (hx : K.choiceOf x = some s) (hno : r.tri s = .no) :
    K.visibleOf r m x = .no := by
  by_contra h
  obtain ⟨p, hp, hv⟩ := exists_prompt h
  obtain ⟨e, rfl, he⟩ := K.prompts_of_value x s hx p hp
  exact hv (le_bot_iff.mp ((exprValue_le_of_conjunct he).trans hno.le))

/-- The value of a choice that is `y` for the time being. -/
structure Choosing (K : Kconfig σ) (u : σ → User σ) (m : Tristate) (o : σ → Result σ) (s : σ) :
    Prop where
  isChoice : K.isChoice s = true
  wellSet : ∀ y, (u s).sym = some y → K.choiceOf y = some s
  curr : (o s).curr =
    match K.pick (readingOf o) (u s) m s with
    | some x => ⟨['n'], some x, .yes⟩
    | none => .no

/-- A choice that is `y` has what is looked for. -/
theorem choosing_self (htri : r.tri s = .yes) (hval : r.val s = ['n']) : r.choosing s = r := by
  obtain ⟨tri, val⟩ := r
  simp only [Reading.choosing, Reading.mk.injEq]
  exact ⟨Function.update_eq_self_iff.mpr htri.symm, Function.update_eq_self_iff.mpr hval.symm⟩

/-- While the choice is `y` for the time being, its values are visible as in the solution. -/
theorem Choosing.visible (h : K.Choosing u m o s) (ho : K.Solution u m o)
    (hx : x ∈ K.candidates ((readingOf o).choosing s) (u s) s) :
    K.visibleOf ((readingOf o).choosing s) m x = (o x).visible := by
  have hxs := choiceOf_candidate h.isChoice h.wellSet hx
  rw [show (o x).visible = K.visibleOf (readingOf o) m x from congrArg (·.visible) (ho.eq x)]
  have hcurr := h.curr
  cases hp : K.pick (readingOf o) (u s) m s with
  | some y =>
    simp only [hp] at hcurr
    rw [choosing_self (congrArg (·.tri) hcurr) (congrArg (·.val) hcurr)]
  | none =>
    simp only [hp] at hcurr
    have hno : (readingOf o).tri s = .no := congrArg (·.tri) hcurr
    rw [visibleOf_eq_no hxs hno]
    simpa using List.find?_eq_none.mp hp x hx

/-- The prompts of its values may be asked for. -/
theorem known_choosing (hK : K.HasRank rank) (hx : K.choiceOf x = some s)
    (hcurr : (st.sym s).curr = ⟨['n'], none, .yes⟩) {e : Expr σ} (he : some e ∈ K.prompts x)
    {t : σ} (ht : e.Mentions t) : Known rank o s ((readingOf o).choosing s) st t := by
  by_cases hts : t = s
  · subst hts
    refine .inr ⟨rfl, ?_⟩
    simp [Reading.Same, Reading.choosing, KconfigState.reading, hcurr]
  · refine .inl ⟨hK s t (.value hx he ht hts), ?_⟩
    simp [Reading.Same, Reading.choosing, hts]

/-- A search for the value of the choice `s` finds the first symbol of a list that is visible, and
makes the choice `n` if there is none. -/
def Finds (K : Kconfig σ) (rank : σ → ℕ) (u : σ → User σ) (m : Tristate) (o : σ → Result σ)
    (s : σ) (search : CalcM σ (Option σ)) (l : List σ) : Prop :=
  ∀ st, K.During rank u m o s st → (st.sym s).curr = ⟨['n'], none, .yes⟩ →
    Runs search st fun a st' =>
      a = l.find? (fun x => K.visibleOf ((readingOf o).choosing s) m x ≠ .no) ∧
      K.Step m o (· = s) st st' ∧
      (st'.sym s).curr = if a = none then .no else ⟨['n'], none, .yes⟩

theorem Finds.of_quiet {search : CalcM σ (Option σ)} {l : List σ} {st st₁ : KconfigState σ}
    (h : K.Finds rank u m o s search l) (hd : K.During rank u m o s st)
    (hcurr : (st.sym s).curr = ⟨['n'], none, .yes⟩) (hs : K.Quiet m o st st₁) :
    Runs search st₁ fun a st' =>
      a = l.find? (fun x => K.visibleOf ((readingOf o).choosing s) m x ≠ .no) ∧
      K.Step m o (· = s) st st' ∧
      (st'.sym s).curr = if a = none then .no else ⟨['n'], none, .yes⟩ :=
  (h st₁ (hd.quiet hs) ((hs.curr s id hd.valid).trans hcurr)).mono
    fun _ _ ⟨ha, hs', hc⟩ => ⟨ha, hs.widen.trans hs', hc⟩

theorem ifVisible_finds (hK : K.HasRank rank) (hask : K.Asks rank u m o ask s)
    {next : CalcM σ (Option σ)} {l : List σ} (h : K.Finds rank u m o s next l)
    (hx : K.choiceOf x = some s)
    (hvisible : K.visibleOf ((readingOf o).choosing s) m x = (o x).visible) :
    K.Finds rank u m o s (K.ifVisible ask x next) (x :: l) := by
  intro st hd hcurr
  refine (symCalcVisibility_value hK hask hd hx
    (fun e he t ht => known_choosing hK hx hcurr he ht) hvisible).bind fun _ st₁ ⟨hs₁, hv₁⟩ => ?_
  rw [runs_bind, runs_get, List.find?_cons, hv₁, hvisible]
  split_ifs with hno
  · simpa [hno] using h.of_quiet hd hcurr hs₁
  · refine runs_pure.mpr ⟨by simp [hno], hs₁.widen, ?_⟩
    rw [if_neg (by simp), hs₁.curr s id hd.valid, hcurr]

theorem choiceFirst_finds (hK : K.HasRank rank) (hask : K.Asks rank u m o ask s)
    {next : CalcM σ (Option σ)} {l : List σ} (h : K.Finds rank u m o s next l) (xs : List σ)
    (hxs : ∀ x ∈ xs, K.choiceOf x = some s ∧
      K.visibleOf ((readingOf o).choosing s) m x = (o x).visible) :
    K.Finds rank u m o s (K.choiceFirst ask next xs) (xs ++ l) := by
  induction xs with
  | nil => exact h
  | cons x xs ih =>
    obtain ⟨hx, hvisible⟩ := hxs x (by simp)
    exact ifVisible_finds hK hask (ih fun y hy => hxs y (by simp [hy])) hx hvisible

theorem choiceDefault_finds (hK : K.HasRank rank) (hask : K.Asks rank u m o ask s)
    {next : CalcM σ (Option σ)} {l : List σ} (h : K.Finds rank u m o s next l)
    (ds : List (Default σ)) (hds : ∀ d ∈ ds, d ∈ K.defaults s)
    (hxs : ∀ d ∈ ds, K.depValue ((readingOf o).choosing s) d.visible ≠ .no →
      ∀ x, defaultSymbol d = some x → K.choiceOf x = some s ∧
        K.visibleOf ((readingOf o).choosing s) m x = (o x).visible) :
    K.Finds rank u m o s (K.choiceDefault ask next ds)
      ((ds.filter fun d => K.depValue ((readingOf o).choosing s) d.visible ≠ .no).filterMap
        defaultSymbol ++ l) := by
  induction ds with
  | nil => exact h
  | cons d ds ih =>
    intro st hd hcurr
    have hknown : ∀ e, d.visible = some e → ∀ t, e.Mentions t →
        Known rank o s ((readingOf o).choosing s) st t := fun e he t ht => by
      have hlt := hK s t (.defaultVisible (hds d (by simp)) he ht)
      have hne : t ≠ s := fun h => absurd (h ▸ hlt) (lt_irrefl _)
      exact .inl ⟨hlt, by simp [Reading.Same, Reading.choosing, hne]⟩
    have hnext := ih (fun d hd => hds d (by simp [hd])) fun d hd => hxs d (by simp [hd])
    refine (depCalcValue_runs hask hd hknown).bind fun a st₁ h₁ => ?_
    obtain ⟨ha, hs₁, -⟩ := h₁
    rw [List.filter_cons, ← ha]
    split_ifs with hno hno' hno'
    · simp [hno] at hno'
    · exact hnext.of_quiet hd hcurr hs₁
    · rw [List.filterMap_cons]
      cases hsym : defaultSymbol d with
      | some x =>
        obtain ⟨hx, hvisible⟩ := hxs d (by simp) (ha ▸ hno) x hsym
        have hexpr : d.expr = .symbol (.other x) := by
          unfold defaultSymbol at hsym
          split at hsym
          · rename_i y hy
            rw [hy, Option.some.inj hsym]
          · simp at hsym
        rw [hexpr]
        exact (ifVisible_finds hK hask hnext hx hvisible).of_quiet hd hcurr hs₁
      | none =>
        split
        · rename_i y hy
          simp [defaultSymbol, hy] at hsym
        · exact hnext.of_quiet hd hcurr hs₁
    · simp [hno] at hno'

/-- `sym_calc_choice` picks the value that the solution has. -/
theorem symCalcChoice_finds (hK : K.HasRank rank) (hask : K.Asks rank u m o ask s)
    (ho : K.Solution u m o) (hc : K.Choosing u m o s) :
    K.Finds rank u m o s (K.symCalcChoice ask s)
      (K.candidates ((readingOf o).choosing s) (u s) s) := by
  have hvalue : ∀ x ∈ K.candidates ((readingOf o).choosing s) (u s) s, K.choiceOf x = some s ∧
      K.visibleOf ((readingOf o).choosing s) m x = (o x).visible := fun x hx =>
    ⟨choiceOf_candidate hc.isChoice hc.wellSet hx, hc.visible ho hx⟩
  have hreset : K.Finds rank u m o s (do
      modify (·.update s fun d => { d with curr.tri := .no })
      pure none) [] := fun st hd hcurr => by
    rw [runs_bind, runs_modify, runs_pure]
    refine ⟨rfl, step_curr s fun c => { c with tri := .no }, ?_⟩
    rw [KconfigState.update_self, hcurr]
    rfl
  have hfirst := choiceFirst_finds hK hask hreset (K.choiceValues s) fun x hx =>
    hvalue x (List.mem_append_right _ hx)
  rw [List.append_nil] at hfirst
  have hsearch := choiceDefault_finds hK hask hfirst (K.defaults s) (fun _ h => h)
    fun d hd hno x hx => hvalue x (List.mem_append_left _ (List.mem_append_right _
      (List.mem_filterMap.mpr ⟨d, List.mem_filter.mpr ⟨hd, by simpa using hno⟩, hx⟩)))
  intro st hd hcurr
  unfold symCalcChoice
  rw [runs_bind, runs_get, hd.user s, candidates, List.append_assoc]
  cases hu : (u s).sym with
  | none => exact hsearch st hd hcurr
  | some y =>
    obtain ⟨hy, hvisible⟩ := hvalue y (by simp [candidates, hu])
    exact ifVisible_finds hK hask hsearch hy hvisible st hd hcurr

end Choice

/-! ## sym_calc_value -/

section Value

variable [DecidableEq σ] {K : Kconfig σ} {rank : σ → ℕ} {u : σ → User σ} {m : Tristate}
variable {o : σ → Result σ} {ask : σ → CalcM σ Unit} {s : σ} {st : KconfigState σ}

/-- What the calculation of a symbol reads may be asked for. -/
theorem known_reads (hK : K.HasRank rank) {t : σ} (h : K.Reads s t) :
    Known rank o s (readingOf o) st t :=
  .inl ⟨hK s t h, rfl, rfl⟩

theorem symGetDefaultProp_runs (hK : K.HasRank rank) (hask : K.Asks rank u m o ask s)
    (hd : K.During rank u m o s st) :
    Runs (K.symGetDefaultProp ask s) st fun a st' =>
      a = K.firstVisible (readingOf o) Default.visible (K.defaults s) ∧ K.Quiet m o st st' :=
  firstVisibleProp_runs hask hd fun _ hp _ he _ ht => known_reads hK (.defaultVisible hp he ht)

theorem fromDefault_runs (hK : K.HasRank rank) (hask : K.Asks rank u m o ask s)
    (hs : K.isChoice s = false) (hd : K.During rank u m o s st) :
    Runs (do
      let prop ← K.symGetDefaultProp ask s
      match prop with
      | none => pure none
      | some prop => do
        let tri ← K.exprCalcValue ask prop.expr
        pure (some tri)) st fun a st' =>
      a.getD .no = K.defaultOf (readingOf o) s ∧ K.Quiet m o st st' := by
  refine (symGetDefaultProp_runs hK hask hd).bind fun a st₁ ⟨ha, hs₁⟩ => ?_
  rw [defaultOf, ← ha]
  cases a with
  | none => exact runs_pure.mpr ⟨rfl, hs₁⟩
  | some prop =>
    have hmem : prop ∈ K.defaults s := List.mem_of_find?_eq_some ha.symm
    refine (exprCalcValue_runs hask (hd.quiet hs₁) fun t ht =>
      known_reads hK (.default hs hmem ht)).bind fun tri st₂ ⟨htri, hs₂, _⟩ => ?_
    exact runs_pure.mpr ⟨htri, hs₁.trans hs₂⟩

/-- The value of a boolean or tristate symbol, once it is known whether it is visible. -/
theorem calcTristate_runs (hK : K.HasRank rank) (hask : K.Asks rank u m o ask s)
    (hd : K.During rank u m o s st) (hvisible : (st.sym s).visible = (o s).visible)
    (hrevTri : (st.sym s).revTri = (o s).revTri)
    (hchoice : ∀ c, K.choiceOf s = some c → (o s).visible = .yes → (st.sym c).valid = true) :
    Runs (K.calcTristate ask s) st fun a st' =>
      a = K.settledTri (readingOf o) (u s) ((K.choiceOf s).bind fun c => (o c).curr.sym)
        (o s).visible (o s).revTri s ∧ K.Quiet m o st st' := by
  unfold calcTristate
  rw [runs_bind, runs_get]
  simp only [hvisible, hrevTri, hd.user s, Tristate.eOr_eq_sup, Tristate.eAnd_eq_inf]
  unfold settledTri
  by_cases hval : (K.choiceOf s).isSome = true ∧ (o s).visible = .yes
  · rw [if_pos hval, if_pos hval]
    cases hc : K.choiceOf s with
    | none => simp [hc] at hval
    | some c =>
      have hsym : (st.sym c).curr.sym = (o c).curr.sym :=
        congrArg (·.sym) (hd.below c (hK s c (.choice hc)) (hchoice c hc hval.2)).curr
      exact runs_pure.mpr ⟨by rw [hsym]; rfl, .refl⟩
  rw [if_neg hval, if_neg hval]
  by_cases hno : (o s).visible ⊔ (o s).revTri ≠ .no
  · rw [if_pos hno, if_pos hno, runs_bind, runs_modify]
    have hs₁ : K.Quiet m o st (st.update s fun d => { d with write := true }) := quiet_write s true
    generalize st.update s (fun d => { d with write := true }) = st₁ at hs₁
    refine Runs.bind (P := fun a st' => a = K.wanted (readingOf o) (u s) s ∧ K.Quiet m o st st')
      ?_ fun a st₂ h₂ => ?_
    · unfold wanted
      split_ifs with hu hs
      · exact runs_pure.mpr ⟨rfl, hs₁⟩
      · exact runs_pure.mpr ⟨rfl, hs₁⟩
      · refine (fromDefault_runs hK hask (Bool.eq_false_of_not_eq_true hs)
          (hd.quiet hs₁)).bind fun a st₂ ⟨ha, hs₂⟩ => ?_
        exact runs_pure.mpr ⟨ha, hs₁.trans hs₂⟩
    · obtain ⟨ha, hs₂⟩ := h₂
      rw [runs_bind, runs_get, runs_pure, hs₂.visible s hvisible, hs₂.revTri s hrevTri, ha]
      exact ⟨rfl, hs₂⟩
  rw [if_neg hno, if_neg hno]
  split_ifs with hs
  · exact runs_pure.mpr ⟨rfl, .refl⟩
  · refine (fromDefault_runs hK hask (Bool.eq_false_of_not_eq_true hs) hd).bind
      fun a st₁ ⟨ha, hs₁⟩ => ?_
    rw [← ha]
    cases a with
    | none => exact runs_pure.mpr ⟨rfl, hs₁⟩
    | some tri =>
      rw [runs_bind, runs_modify, runs_pure]
      exact ⟨rfl, hs₁.trans (quiet_write s true)⟩

/-- The default of a string or a number. -/
theorem stringDefault_runs (hK : K.HasRank rank) (hask : K.Asks rank u m o ask s)
    (hs : K.isChoice s = false) (hd : K.During rank u m o s st) :
    Runs (do
      let prop ← K.symGetDefaultProp ask s
      match prop with
      | some ⟨_, .symbol ds⟩ => do
        modify (·.update s fun d => { d with write := true })
        symCalc ask ds
        let st ← get
        pure (st.reading.symVal ds)
      | _ => pure (SymbolValue.empty : SymbolValue σ).val) st fun a st' =>
      a = (match K.firstVisible (readingOf o) Default.visible (K.defaults s) with
        | some ⟨_, .symbol ds⟩ => (readingOf o).symVal ds
        | _ => []) ∧ K.Quiet m o st st' := by
  refine (symGetDefaultProp_runs hK hask hd).bind fun a st₁ h₁ => ?_
  obtain ⟨ha, hs₁⟩ := h₁
  rw [← ha]
  rcases a with _ | ⟨visible, e⟩
  · exact runs_pure.mpr ⟨rfl, hs₁⟩
  cases e with
  | symbol ds =>
    have hmem : ⟨visible, .symbol ds⟩ ∈ K.defaults s := List.mem_of_find?_eq_some ha.symm
    dsimp only
    rw [runs_bind, runs_modify]
    have hs₂ : K.Quiet m o st (st₁.update s fun d => { d with write := true }) :=
      hs₁.trans (quiet_write s true)
    generalize st₁.update s (fun d => { d with write := true }) = st₂ at hs₂
    have hd₂ := hd.quiet hs₂
    have hknown : ∀ st t, ds = .other t → Known rank o s (readingOf o) st t :=
      fun st t ht => known_reads hK (.default hs hmem ht)
    refine (symCalc_runs hask hd₂ (hknown st₂)).bind fun _ st₃ h₃ => ?_
    obtain ⟨hs₃, hv₃⟩ := h₃
    rw [runs_bind, runs_get, runs_pure]
    refine ⟨Reading.symVal_congr fun t ht => ?_, hs₂.trans hs₃⟩
    exact (hknown st₃ t ht).same (hd₂.quiet hs₃) (hv₃ t ht)
  | _ => exact runs_pure.mpr ⟨rfl, hs₁⟩

/-- The value of a string or a number, before it is put into its range. -/
theorem calcString_runs (hK : K.HasRank rank) (hask : K.Asks rank u m o ask s)
    (hs : K.isChoice s = false) (hd : K.During rank u m o s st)
    (hvisible : (st.sym s).visible = (o s).visible) :
    Runs (K.calcString ask s) st fun a st' =>
      a = K.valOf (readingOf o) (u s) (o s).visible s ∧ K.Quiet m o st st' := by
  unfold calcString
  rw [runs_bind, runs_get]
  simp only [hvisible, hd.user s]
  unfold valOf
  by_cases hv : (o s).visible ≠ .no
  · rw [if_pos hv, runs_bind, runs_modify]
    have hs₁ : K.Quiet m o st (st.update s fun d => { d with write := true }) := quiet_write s true
    by_cases hu : (u s).isNew = false
    · rw [if_pos hu, if_pos ⟨hv, hu⟩]
      exact runs_pure.mpr ⟨rfl, hs₁⟩
    · rw [if_neg hu, if_neg fun h => hu h.2]
      exact (stringDefault_runs hK hask hs (hd.quiet hs₁)).mono fun _ _ h => ⟨h.1, hs₁.trans h.2⟩
  · rw [if_neg hv, if_neg fun h => hv h.1]
    exact stringDefault_runs hK hask hs hd

theorem symGetRangeVal_runs (hask : K.Asks rank u m o ask s) (hd : K.During rank u m o s st)
    {sym : Symbol σ} (h : ∀ t, sym = .other t → Known rank o s (readingOf o) st t) (base : ℕ) :
    Runs (K.symGetRangeVal ask sym base) st fun a st' =>
      a = K.rangeVal (readingOf o) sym base ∧ K.Quiet m o st st' := by
  refine (symCalc_runs hask hd h).bind fun _ st₁ ⟨hs₁, hv₁⟩ => ?_
  rw [runs_bind, runs_get, runs_pure, rangeVal]
  refine ⟨?_, hs₁⟩
  rw [Reading.symVal_congr fun t ht => ((h t ht).quiet hd hs₁).same (hd.quiet hs₁) (hv₁ t ht)]

/-- The number that is there is put into its range. -/
theorem validateRange_runs (hK : K.HasRank rank) (hask : K.Asks rank u m o ask s)
    (hd : K.During rank u m o s st) (base : ℕ) :
    Runs (K.validateRange ask s base) st fun _ st' => K.Step m o (· = s) st st' ∧
      (st'.sym s).curr = { (st.sym s).curr with
        val := K.rangedIn (readingOf o) s base (st.sym s).curr.val } := by
  have hprop : Runs (K.symGetRangeProp ask s) st fun a st' =>
      a = K.firstVisible (readingOf o) Range.visible (K.ranges s) ∧ K.Quiet m o st st' :=
    firstVisibleProp_runs hask hd fun _ hp _ he _ ht => known_reads hK (.rangeVisible hp he ht)
  refine hprop.bind fun a st₁ ⟨ha, hs₁⟩ => ?_
  unfold rangedIn
  rw [← ha]
  cases a with
  | none => exact runs_pure.mpr ⟨hs₁.widen, hs₁.curr s id hd.valid⟩
  | some prop =>
    have hmem : prop ∈ K.ranges s := List.mem_of_find?_eq_some ha.symm
    dsimp only
    rw [runs_bind, runs_get, hs₁.curr s id hd.valid]
    refine (symGetRangeVal_runs hask (hd.quiet hs₁) (fun t ht => known_reads hK (.left hmem ht))
      base).bind fun low st₂ ⟨hlow, hs₂⟩ => ?_
    have hs₂ := hs₁.trans hs₂
    -- Both bounds are written alike.
    have hwrite : ∀ (st₃ : KconfigState σ) (val : Text), K.Quiet m o st st₃ →
        Runs (modify (·.update s fun d => { d with curr.val := val }) : CalcM σ Unit) st₃
          fun _ st' => K.Step m o (· = s) st st' ∧
            (st'.sym s).curr = { (st.sym s).curr with val := val } := fun st₃ val hs₃ => by
      rw [runs_modify, KconfigState.update_self]
      have hcurr := hs₃.curr s id hd.valid
      exact ⟨hs₃.widen.trans (step_curr s fun c => { c with val := val }), by rw [hcurr]⟩
    rw [hlow]
    by_cases hle : K.rangeVal (readingOf o) prop.left base ≤ strtol (st.sym s).curr.val base
    · rw [if_pos hle, if_pos hle]
      refine (symGetRangeVal_runs hask (hd.quiet hs₂)
        (fun t ht => known_reads hK (.right hmem ht)) base).bind fun high st₃ ⟨hhigh, hs₃⟩ => ?_
      have hs₃ := hs₂.trans hs₃
      rw [hhigh]
      by_cases hle' : strtol (st.sym s).curr.val base ≤ K.rangeVal (readingOf o) prop.right base
      · rw [if_pos hle', if_pos hle']
        exact runs_pure.mpr ⟨hs₃.widen, hs₃.curr s id hd.valid⟩
      · rw [if_neg hle', if_neg hle']
        exact hwrite st₃ _ hs₃
    · rw [if_neg hle, if_neg hle]
      exact hwrite st₂ _ hs₂

theorem symValidateRange_runs (hK : K.HasRank rank) (hask : K.Asks rank u m o ask s)
    (hd : K.During rank u m o s st) :
    Runs (K.symValidateRange ask s) st fun _ st' => K.Step m o (· = s) st st' ∧
      (st'.sym s).curr = { (st.sym s).curr with
        val := K.ranged (readingOf o) s (st.sym s).curr.val } := by
  unfold symValidateRange ranged
  cases K.type s
  case int => exact validateRange_runs hK hask hd 10
  case hex => exact validateRange_runs hK hask hd 16
  all_goals exact runs_pure.mpr ⟨.refl, rfl⟩

/-- A boolean or tristate symbol. -/
def IsTristate (K : Kconfig σ) (s : σ) : Prop := K.type s = .boolean ∨ K.type s = .tristate

/-- A string or a number. -/
def IsText (K : Kconfig σ) (s : σ) : Prop :=
  K.type s = .int ∨ K.type s = .hex ∨ K.type s = .string

theorem typeOf_tristate (h : K.IsTristate s) (visible : Tristate) :
    K.typeOf m visible s = .boolean ∨ K.typeOf m visible s = .tristate := by
  unfold typeOf
  rcases h with h | h <;> simp only [h] <;> split_ifs <;> simp_all

theorem typeOf_text (h : K.IsText s) (visible : Tristate) :
    K.typeOf m visible s = K.type s :=
  if_neg fun ht => by rcases h with h | h | h <;> simp [h] at ht

theorem IsText.not_choice (h : K.IsText s) : K.isChoice s = false := by
  by_contra hs
  have := K.logical_of_choice s (Bool.eq_true_of_not_eq_false hs)
  rcases h with h | h | h <;> simp [h] at this

section Solution

variable (ho : K.Solution u m o)

include ho

theorem Solution.visible_eq : (o s).visible = K.visibleOf (readingOf o) m s :=
  congrArg (·.visible) (ho.eq s)

theorem Solution.revTri_eq : (o s).revTri = K.revOf (readingOf o) m (o s).visible s := by
  rw [ho.visible_eq]
  exact congrArg (·.revTri) (ho.eq s)

/-- What a boolean or tristate symbol would be for another wish of the user. -/
theorem Solution.result_curr (h : K.IsTristate s) (v : User σ) :
    (K.result v m o s).curr =
      if K.isChoice s ∧ K.triOf (readingOf o) v m
          ((K.choiceOf s).bind fun c => (o c).curr.sym) (o s).visible (o s).revTri s = .yes then
        match K.pick (readingOf o) v m s with
        | some x => ⟨['n'], some x, .yes⟩
        | none => .no
      else ⟨['n'], none, K.triOf (readingOf o) v m
        ((K.choiceOf s).bind fun c => (o c).curr.sym) (o s).visible (o s).revTri s⟩ := by
  rw [ho.revTri_eq, ho.visible_eq]
  unfold result
  rcases h with h | h <;> simp only [h] <;> rfl

theorem Solution.curr_tristate (h : K.IsTristate s) :
    (o s).curr =
      if K.isChoice s ∧ K.triOf (readingOf o) (u s) m
          ((K.choiceOf s).bind fun c => (o c).curr.sym) (o s).visible (o s).revTri s = .yes then
        match K.pick (readingOf o) (u s) m s with
        | some x => ⟨['n'], some x, .yes⟩
        | none => .no
      else ⟨['n'], none, K.triOf (readingOf o) (u s) m
        ((K.choiceOf s).bind fun c => (o c).curr.sym) (o s).visible (o s).revTri s⟩ :=
  (congrArg Result.curr (ho.eq s)).trans (ho.result_curr h (u s))

theorem Solution.val_tristate (h : K.IsTristate s) : (o s).curr.val = ['n'] := by
  rw [ho.curr_tristate h]
  split_ifs
  · cases K.pick (readingOf o) (u s) m s <;> rfl
  · rfl

theorem Solution.curr_text (h : K.IsText s) :
    (o s).curr = ⟨K.ranged (readingOf o) s (K.valOf (readingOf o) (u s) (o s).visible s),
      none, .no⟩ := by
  rw [ho.visible_eq]
  conv_lhs => rw [ho.eq s]
  unfold result
  rcases h with h | h | h <;> simp only [h]

end Solution

/-- The value of a tristate symbol goes into what it is calculated to. -/
theorem newval_tristate (hK : K.HasRank rank) (hask : K.Asks rank u m o ask s)
    (hs : K.IsTristate s) (hd : K.During rank u m o s st)
    (hvisible : (st.sym s).visible = (o s).visible) (hrevTri : (st.sym s).revTri = (o s).revTri)
    (hchoice : ∀ c, K.choiceOf s = some c → (o s).visible = .yes → (st.sym c).valid = true) :
    Runs (match K.symGetType st s with
      | .boolean | .tristate => do
        let tri ← K.calcTristate ask s
        let st ← get
        let tri := if tri = .mod ∧ K.symGetType st s = .boolean then .yes else tri
        pure { (.no : SymbolValue σ) with tri := tri }
      | _ => do
        let val ← K.calcString ask s
        pure { (.no : SymbolValue σ) with val := val } : CalcM σ (SymbolValue σ)) st fun a st' =>
      a = ⟨['n'], none, K.triOf (readingOf o) (u s) m
        ((K.choiceOf s).bind fun c => (o c).curr.sym) (o s).visible (o s).revTri s⟩ ∧
      K.Quiet m o st st' := by
  have hrun : Runs (do
      let tri ← K.calcTristate ask s
      let st ← get
      let tri := if tri = .mod ∧ K.symGetType st s = .boolean then .yes else tri
      pure { (.no : SymbolValue σ) with tri := tri }) st fun a st' =>
      a = ⟨['n'], none, K.triOf (readingOf o) (u s) m
        ((K.choiceOf s).bind fun c => (o c).curr.sym) (o s).visible (o s).revTri s⟩ ∧
      K.Quiet m o st st' := by
    refine (calcTristate_runs hK hask hd hvisible hrevTri hchoice).bind fun a st₁ ⟨ha, hs₁⟩ => ?_
    rw [runs_bind, runs_get, runs_pure, (hd.quiet hs₁).symGetType_eq hK rfl,
      hs₁.visible s hvisible, ha]
    exact ⟨rfl, hs₁⟩
  rw [hd.symGetType_eq hK rfl]
  rcases typeOf_tristate (m := m) hs (st.sym s).visible with h | h <;> rw [h] <;> exact hrun

theorem newval_text (hK : K.HasRank rank) (hask : K.Asks rank u m o ask s)
    (hs : K.IsText s) (hd : K.During rank u m o s st)
    (hvisible : (st.sym s).visible = (o s).visible) :
    Runs (match K.symGetType st s with
      | .boolean | .tristate => do
        let tri ← K.calcTristate ask s
        let st ← get
        let tri := if tri = .mod ∧ K.symGetType st s = .boolean then .yes else tri
        pure { (.empty : SymbolValue σ) with tri := tri }
      | _ => do
        let val ← K.calcString ask s
        pure { (.empty : SymbolValue σ) with val := val } : CalcM σ (SymbolValue σ)) st
      fun a st' => a = ⟨K.valOf (readingOf o) (u s) (o s).visible s, none, .no⟩ ∧
        K.Quiet m o st st' := by
  have hrun : Runs (do
      let val ← K.calcString ask s
      pure { (.empty : SymbolValue σ) with val := val }) st fun a st' =>
      a = ⟨K.valOf (readingOf o) (u s) (o s).visible s, none, .no⟩ ∧ K.Quiet m o st st' := by
    refine (calcString_runs hK hask hs.not_choice hd hvisible).bind fun a st₁ ⟨ha, hs₁⟩ => ?_
    rw [runs_pure, ha]
    exact ⟨rfl, hs₁⟩
  rw [hd.symGetType_eq hK rfl, typeOf_text hs]
  rcases hs with h | h | h <;> rw [h] <;> exact hrun

/-- What is left to do once the symbol has its value. -/
theorem finish_runs (ho : K.Solution u m o) (hs : K.Declared s)
    (hcurr : (st.sym s).curr = (o s).curr) :
    Runs (do
      (if s = K.modulesSym then modify fun st => { st with modulesVal := (st.sym s).curr.tri }
        else pure () : CalcM σ Unit)
      if K.isChoice s then K.flagValues s else pure ()) st fun _ st' =>
      K.Quiet m o st st' ∧ (s = K.modulesSym → st'.modulesVal = m) ∧
        (st'.sym s).curr = (o s).curr := by
  refine Runs.bind (P := fun _ st' => K.Quiet m o st st' ∧ (s = K.modulesSym → st'.modulesVal = m)
    ∧ (st'.sym s).curr = (o s).curr) ?_ fun _ st₁ ⟨hs₁, hm₁, hc₁⟩ => ?_
  · split_ifs with h
    · have hm : (st.sym s).curr.tri = m := by
        rw [hcurr, h]
        exact (ho.modules.trans (if_pos (h ▸ hs))).symm
      rw [runs_modify]
      exact ⟨quiet_of_fields (fun _ => rfl) (fun _ => rfl) (fun _ => rfl) (fun _ => .inl rfl)
        (fun _ => .inl rfl) (.inr hm), fun _ => hm, hcurr⟩
    · exact runs_pure.mpr ⟨.refl, fun h' => absurd h' h, hcurr⟩
  · split_ifs
    · unfold flagValues
      rw [runs_modify]
      split_ifs
      · refine ⟨hs₁.trans (quiet_of_fields (fun t => ?_) (fun t => ?_) (fun t => ?_) (fun t => ?_)
          (fun t => ?_) (.inl rfl)), hm₁, ?_⟩
        all_goals dsimp only; split_ifs <;> first | rfl | exact .inl rfl | exact hc₁
      · exact ⟨hs₁, hm₁, hc₁⟩
    · exact runs_pure.mpr ⟨hs₁, hm₁, hc₁⟩

/-- A choice that is `y` goes for one of its values. -/
theorem settleChoice_runs (hK : K.HasRank rank) (hask : K.Asks rank u m o ask s)
    (hu : K.WellSet u) (ho : K.Solution u m o) (hs : K.IsTristate s)
    (hd : K.During rank u m o s st) {newval : SymbolValue σ}
    (hnew : newval = ⟨['n'], none, K.triOf (readingOf o) (u s) m
      ((K.choiceOf s).bind fun c => (o c).curr.sym) (o s).visible (o s).revTri s⟩)
    (hcurr : (st.sym s).curr = newval) :
    Runs (if K.isChoice s ∧ newval.tri = .yes then do
        let chosen ← K.symCalcChoice ask s
        modify (·.update s fun d => { d with curr.sym := chosen })
      else pure () : CalcM σ Unit) st fun _ st' =>
      K.Step m o (· = s) st st' ∧ (st'.sym s).curr = (o s).curr := by
  have hsol := ho.curr_tristate hs
  subst hnew
  split_ifs with hc
  · rw [if_pos hc] at hsol
    have hchoosing : K.Choosing u m o s := ⟨hc.1, hu s hc.1, hsol⟩
    have hyes : (st.sym s).curr = ⟨['n'], none, .yes⟩ :=
      hcurr.trans (congrArg (SymbolValue.mk ['n'] none) hc.2)
    refine (symCalcChoice_finds hK hask ho hchoosing st hd hyes).bind fun a st₁ h₁ => ?_
    obtain ⟨ha, hs₁, hc₁⟩ := h₁
    rw [runs_modify, KconfigState.update_self, hc₁, hsol, pick, ← ha]
    refine ⟨hs₁.trans (step_curr s fun c => { c with sym := a }), ?_⟩
    cases a <;> rfl
  · rw [if_neg hc] at hsol
    exact runs_pure.mpr ⟨.refl, hcurr.trans hsol.symm⟩

/-- The symbol has the value of the solution when all is done. -/
def Settles (K : Kconfig σ) (m : Tristate) (o : σ → Result σ) (s : σ) (m₀ : CalcM σ Unit)
    (st : KconfigState σ) : Prop :=
  Runs m₀ st fun _ st' => K.Step m o (· = s) st st' ∧ K.Agrees o st' s ∧
    (s = K.modulesSym → K.Declared s → st'.modulesVal = m)

theorem ranged_tristate (hs : K.IsTristate s) {r : Reading σ} (val : Text) :
    K.ranged r s val = val := by
  unfold ranged
  rcases hs with h | h <;> rw [h]

/-- From the value that is calculated to the end. -/
theorem settle_runs (hK : K.HasRank rank) (hask : K.Asks rank u m o ask s)
    (hu : K.WellSet u) (ho : K.Solution u m o) (hd : K.During rank u m o s st)
    (hdecl : K.Declared s) (hvisible : (st.sym s).visible = (o s).visible)
    (hrevTri : (st.sym s).revTri = (o s).revTri) {newval : SymbolValue σ}
    (hnew : K.IsTristate s ∧ newval = ⟨['n'], none, K.triOf (readingOf o) (u s) m
        ((K.choiceOf s).bind fun c => (o c).curr.sym) (o s).visible (o s).revTri s⟩ ∨
      K.IsText s ∧ newval = ⟨K.valOf (readingOf o) (u s) (o s).visible s, none, .no⟩) :
    K.Settles m o s (do
      modify (·.update s fun d => { d with curr := newval })
      (if K.isChoice s ∧ newval.tri = .yes then do
          let chosen ← K.symCalcChoice ask s
          modify (·.update s fun d => { d with curr.sym := chosen })
        else pure () : CalcM σ Unit)
      K.symValidateRange ask s
      (if s = K.modulesSym then modify fun st => { st with modulesVal := (st.sym s).curr.tri }
        else pure () : CalcM σ Unit)
      if K.isChoice s then K.flagValues s else pure ()) st := by
  have hown : ∀ {st st' : KconfigState σ}, K.During rank u m o s st →
      K.Step m o (· = s) st st' → K.During rank u m o s st' := fun hd h => hd.step h fun _ h => h
  unfold Settles
  rw [runs_bind, runs_modify]
  have hs₁ : K.Step m o (· = s) st (st.update s fun d => { d with curr := newval }) :=
    step_curr s fun _ => newval
  have hc₁ : ((st.update s fun d => { d with curr := newval }).sym s).curr = newval := by simp
  generalize st.update s (fun d => { d with curr := newval }) = st₁ at hs₁ hc₁
  have hd₁ := hown hd hs₁
  -- The value is the solution, but for its range.
  refine Runs.bind (P := fun _ st' => K.Step m o (· = s) st st' ∧
    { (st'.sym s).curr with val := K.ranged (readingOf o) s (st'.sym s).curr.val } = (o s).curr)
    ?_ fun _ st₂ ⟨hs₂, hc₂⟩ => ?_
  · rcases hnew with ⟨hs, hnew⟩ | ⟨hs, hnew⟩
    · refine (settleChoice_runs hK hask hu ho hs hd₁ hnew hc₁).mono fun _ st₂ ⟨hs₂, hc₂⟩ =>
        ⟨hs₁.trans hs₂, ?_⟩
      rw [ranged_tristate hs, hc₂]
    · rw [if_neg (by simp [hs.not_choice])]
      refine runs_pure.mpr ⟨hs₁, ?_⟩
      rw [hc₁, hnew, ho.curr_text hs]
  refine (symValidateRange_runs hK hask (hown hd hs₂)).bind fun _ st₃ ⟨hs₃, hc₃⟩ => ?_
  refine (finish_runs ho hdecl (hc₃.trans hc₂)).mono fun _ st₄ ⟨hs₄, hm₄, hc₄⟩ => ?_
  have hs := (hs₂.trans hs₃).trans hs₄.widen
  exact ⟨hs, ⟨hc₄, fun _ => hs.visible s hvisible, fun _ => hs.revTri s hrevTri⟩, fun h _ => hm₄ h⟩

/-- A symbol that has a type, from the flags to the end. -/
theorem calcDeclared_runs (hK : K.HasRank rank) (hask : K.Asks rank u m o ask s)
    (hu : K.WellSet u) (ho : K.Solution u m o) (hd : K.During rank u m o s st)
    {newval : SymbolValue σ}
    (hnew : K.IsTristate s ∧ newval = .no ∨ K.IsText s ∧ newval = .empty) :
    K.Settles m o s (K.calcDeclared ask s newval) st := by
  have hdecl : K.Declared s := by
    rcases hnew with ⟨hs, -⟩ | ⟨hs, -⟩
    · rcases hs with h | h <;> simp [Declared, h]
    · rcases hs with h | h | h <;> simp [Declared, h]
  unfold calcDeclared
  refine Runs.bind (P := fun _ st' => K.Quiet m o st st') ?_ fun _ st₁ hs₁ => ?_
  · split_ifs
    · exact runs_pure.mpr .refl
    · exact runs_modify.mpr (quiet_write s false)
  refine (symCalcVisibility_self hK hask ho (hd.quiet hs₁)).bind
    fun _ st₂ ⟨hs₂, hvis₂, hrev₂, hv₂⟩ => ?_
  have hs₂ := hs₁.trans hs₂
  rw [runs_bind, runs_modify]
  have hs₃ : K.Step m o (· = s) st (st₂.update s fun d => { d with curr := newval }) :=
    hs₂.widen.trans (step_curr s fun _ => newval)
  have hvis₃ : ((st₂.update s fun d => { d with curr := newval }).sym s).visible =
      (o s).visible := by simpa using hvis₂
  have hrev₃ : ((st₂.update s fun d => { d with curr := newval }).sym s).revTri =
      (o s).revTri := by simpa using hrev₂
  have hv₃ : ∀ t, (st₂.sym t).valid = true →
      ((st₂.update s fun d => { d with curr := newval }).sym t).valid = true :=
    fun t ht => (step_curr (K := K) (m := m) (o := o) s fun _ => newval).valid t ht
  generalize st₂.update s (fun d => { d with curr := newval }) = st₃ at hs₃ hvis₃ hrev₃ hv₃
  have hd₃ := hd.step hs₃ fun _ h => h
  -- A choice is in the prompts of its values, and there is one if the value is visible.
  have hchoice : ∀ c, K.choiceOf s = some c → (o s).visible = .yes → (st₃.sym c).valid = true := by
    intro c hc hyes
    have hno : K.visibleOf (readingOf o) m s ≠ .no := by rw [← ho.visible_eq, hyes]; simp
    obtain ⟨p, hp, hv⟩ := exists_prompt hno
    obtain ⟨e, rfl, he⟩ := K.prompts_of_value s c hc p hp
    exact hv₃ c (hv₂ e hp c (mentions_of_conjunct he hv))
  rw [runs_bind, runs_get]
  have hsettle : ∀ {nv : SymbolValue σ} {st₄ : KconfigState σ}, K.Quiet m o st₃ st₄ →
      (K.IsTristate s ∧ nv = ⟨['n'], none, K.triOf (readingOf o) (u s) m
          ((K.choiceOf s).bind fun c => (o c).curr.sym) (o s).visible (o s).revTri s⟩ ∨
        K.IsText s ∧ nv = ⟨K.valOf (readingOf o) (u s) (o s).visible s, none, .no⟩) →
      _ := fun {nv st₄} hs₄ hnv => settle_runs hK hask hu ho (hd₃.quiet hs₄) hdecl
        (hs₄.visible s hvis₃) (hs₄.revTri s hrev₃) hnv
  rcases hnew with ⟨hs, rfl⟩ | ⟨hs, rfl⟩
  · refine (newval_tristate hK hask hs hd₃ hvis₃ hrev₃ hchoice).bind fun nv st₄ ⟨hnv, hs₄⟩ => ?_
    exact (hsettle hs₄ (.inl ⟨hs, hnv⟩)).mono fun _ st₅ ⟨hs₅, h⟩ =>
      ⟨(hs₃.trans hs₄.widen).trans hs₅, h⟩
  · refine (newval_text hK hask hs hd₃ hvis₃).bind fun nv st₄ ⟨hnv, hs₄⟩ => ?_
    exact (hsettle hs₄ (.inr ⟨hs, hnv⟩)).mono fun _ st₅ ⟨hs₅, h⟩ =>
      ⟨(hs₃.trans hs₄.widen).trans hs₅, h⟩

/-- Before a symbol is asked for. What is of no higher rank is the solution as far as it is
valid. -/
structure Before (K : Kconfig σ) (rank : σ → ℕ) (u : σ → User σ) (m : Tristate)
    (o : σ → Result σ) (s : σ) (st : KconfigState σ) : Prop where
  upTo : ∀ t, rank t ≤ rank s → (st.sym t).valid = true → K.Agrees o st t
  user : ∀ t, (st.sym t).user = u t
  values : ∀ x, (K.choiceOf x).isSome → (st.sym x).revTri = (o x).revTri
  modules : st.modulesVal = m ∨ rank s ≤ rank K.modulesSym

/-- While a symbol is calculated, those of a lower rank may be asked for. -/
theorem During.before {t : σ} (hd : K.During rank u m o s st) (ht : rank t < rank s) :
    K.Before rank u m o t st where
  upTo t' ht' := hd.below t' (ht'.trans_lt ht)
  user := hd.user
  values := hd.values
  modules := hd.modules.imp_right fun h => ht.le.trans h

theorem Before.during (hb : K.Before rank u m o s st) :
    K.During rank u m o s (st.update s fun d => { d with valid := true }) := by
  have hother : ∀ t, rank t < rank s →
      (st.update s fun d => { d with valid := true }).sym t = st.sym t := fun t ht =>
    KconfigState.update_of_ne fun h => absurd (h ▸ ht) (lt_irrefl _)
  refine ⟨fun t ht hv => ?_, fun t => ?_, fun x hx => ?_, hb.modules, by simp⟩
  · rw [hother t ht] at hv
    have h := hb.upTo t ht.le hv
    exact ⟨by rw [hother t ht, h.curr], by rw [hother t ht]; exact h.visible,
      by rw [hother t ht]; exact h.revTri⟩
  · by_cases ht : t = s <;> [subst ht; skip] <;> simp_all [hb.user]
  · by_cases ht : x = s <;> [subst ht; skip] <;> simp_all [hb.values x hx]

/-- What a symbol does once it has the flag is a step of others, seen from before. -/
theorem quiet_of_own {st' : KconfigState σ} (hv : ¬ (st.sym s).valid = true)
    (h : K.Step m o (· = s) (st.update s fun d => { d with valid := true }) st')
    (ha : K.Agrees o st' s) (hm : s = K.modulesSym → K.Declared s → st'.modulesVal = m) :
    K.Quiet m o st st' := by
  have hother : ∀ t, t ≠ s → (st.update s fun d => { d with valid := true }).sym t = st.sym t :=
    fun t ht => KconfigState.update_of_ne ht
  have hself : (st.update s fun d => { d with valid := true }).sym s =
      { st.sym s with valid := true } := KconfigState.update_self
  refine ⟨fun t => ?_, fun t ht => ?_, fun t _ ht => ?_, fun t ht => ?_, fun t ht => ?_,
    fun t _ ht ht' => ?_, h.modules, fun _ hd ht ht' => ?_⟩
  · rw [h.user t]
    by_cases ht : t = s
    · rw [ht, hself]
    · rw [hother t ht]
  case refine_7 =>
    by_cases hts : K.modulesSym = s
    · exact hm hts.symm (hts ▸ hd)
    · exact h.modulesSym hts hd (by rwa [hother _ hts]) ht'
  all_goals by_cases hts : t = s
  · exact absurd (hts ▸ ht) hv
  · exact h.valid t (by rwa [hother t hts])
  · exact absurd (hts ▸ ht) hv
  · rw [h.curr t hts (by rwa [hother t hts]), hother t hts]
  · subst hts
    exact h.visible t (by rw [hself]; exact ht)
  · exact h.visible t (by rwa [hother t hts])
  · subst hts
    exact h.revTri t (by rw [hself]; exact ht)
  · exact h.revTri t (by rwa [hother t hts])
  · exact hts ▸ ha
  · exact h.fresh t hts (by rwa [hother t hts]) ht'

theorem calcInvalid_runs (hK : K.HasRank rank) (hask : K.Asks rank u m o ask s)
    (hu : K.WellSet u) (ho : K.Solution u m o) (hd : K.During rank u m o s st) :
    K.Settles m o s (K.calcInvalid ask s) st := by
  unfold calcInvalid
  have hother : ¬ K.Declared s → (o s).curr = ⟨K.name s, none, .no⟩ →
      K.Settles m o s (modify (·.update s fun d => { d with curr := ⟨K.name s, none, .no⟩ })) st :=
    fun hno hcurr => runs_modify.mpr ⟨step_curr s fun _ => ⟨K.name s, none, .no⟩,
      ⟨by rw [hcurr]; simp, fun h => absurd h hno, fun h => absurd h hno⟩,
      fun _ h => absurd h hno⟩
  cases ht : K.type s
  case int => exact calcDeclared_runs hK hask hu ho hd (.inr ⟨.inl ht, rfl⟩)
  case hex => exact calcDeclared_runs hK hask hu ho hd (.inr ⟨.inr (.inl ht), rfl⟩)
  case string => exact calcDeclared_runs hK hask hu ho hd (.inr ⟨.inr (.inr ht), rfl⟩)
  case boolean => exact calcDeclared_runs hK hask hu ho hd (.inl ⟨.inl ht, rfl⟩)
  case tristate => exact calcDeclared_runs hK hask hu ho hd (.inl ⟨.inr ht, rfl⟩)
  all_goals
    refine hother (by simp [Declared, ht]) ?_
    rw [ho.eq s, result]
    simp only [ht]

/-- `sym_calc_value` keeps the solution. -/
theorem symCalcValue_runs (hK : K.HasRank rank) (hu : K.WellSet u) (ho : K.Solution u m o) :
    ∀ {fuel s}, rank s + 2 ≤ fuel → ∀ {st}, K.Before rank u m o s st →
      Runs (K.symCalcValue fuel s) st fun _ st' =>
        K.Quiet m o st st' ∧ (st'.sym s).valid = true := by
  intro fuel
  induction fuel with
  | zero => exact fun hf => absurd hf (by omega)
  | succ fuel ih =>
    intro s hf st hb
    rw [symCalcValue, runs_bind, runs_get]
    split_ifs with hv
    · exact runs_pure.mpr ⟨.refl, hv⟩
    -- The symbol has the flag now, so that it may be asked for itself.
    have hask : K.Asks rank u m o (K.symCalcValue fuel) s := by
      rintro t (ht | rfl) st₁ hd₁
      · exact ih (by omega) (hd₁.before ht)
      · obtain ⟨k, rfl⟩ : ∃ k, fuel = k + 1 := ⟨fuel - 1, by omega⟩
        rw [symCalcValue, runs_bind, runs_get, if_pos hd₁.valid]
        exact runs_pure.mpr ⟨.refl, hd₁.valid⟩
    rw [runs_bind, runs_modify]
    refine (calcInvalid_runs hK hask hu ho hb.during).mono fun _ st' ⟨hs, ha, hm⟩ => ?_
    exact ⟨quiet_of_own hv hs ha hm, hs.valid s (by simp)⟩

/-- While a symbol is valid, what it reads may be asked for again. -/
theorem symCalcValue_asks (hK : K.HasRank rank) (hu : K.WellSet u) (ho : K.Solution u m o)
    {fuel : ℕ} (hf : rank s + 2 ≤ fuel) : K.Asks rank u m o (K.symCalcValue fuel) s := by
  rintro t (ht | rfl) st hd
  · exact symCalcValue_runs hK hu ho (by omega) (hd.before ht)
  · obtain ⟨k, rfl⟩ : ∃ k, fuel = k + 1 := ⟨fuel - 1, by omega⟩
    rw [symCalcValue, runs_bind, runs_get, if_pos hd.valid]
    exact runs_pure.mpr ⟨.refl, hd.valid⟩

end Value

end Kconfig

end Makeroot
