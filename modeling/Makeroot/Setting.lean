import Makeroot.Calculation

/-!
# Setting symbols

`sym_set_tristate_value` and `sym_set_string_value` put what the user wants into a symbol and make
all symbols invalid, unless nothing changes. Between two requests of a front end the state is
settled : what is valid is the solution for what the user has set so far (`SettledBy`). So is a
state after any run of requests, and a value that could be set is the value of the symbol from
then on.
-/

set_option linter.unusedSectionVars false

namespace Makeroot

open DeMorgan GnuMake Fuel

variable {σ : Type}

/-- What the user has set. -/
def KconfigState.users (st : KconfigState σ) : σ → User σ := fun s => (st.sym s).user

/-- The value that `sym_toggle_tristate_value` tries after another. -/
def Tristate.next : Tristate → Tristate
  | .no => .mod
  | .mod => .yes
  | .yes => .no

theorem Tristate.ne_next (a : Tristate) : a ≠ a.next ∧ a ≠ a.next.next := by
  cases a <;> decide

theorem Tristate.next_next_next (a : Tristate) : a.next.next.next = a := by
  cases a <;> rfl

namespace Kconfig

section Code

variable [DecidableEq σ] (K : Kconfig σ)

omit [DecidableEq σ] in
/-- The loop of `sym_clear_all_valid`. -/
def invalidate (st : KconfigState σ) : KconfigState σ :=
  { st with sym := fun s =>
      if K.type s = .other then st.sym s else { st.sym s with valid := false } }

/-- `sym_clear_all_valid`. -/
def symClearAllValid (fuel : ℕ) : CalcM σ Unit := do
  modify K.invalidate
  K.symCalcValue fuel K.modulesSym

/-- `sym_tristate_within_range`. -/
def symTristateWithinRange (st : KconfigState σ) (s : σ) (val : Tristate) : Bool :=
  let type := K.symGetType st s
  let visible := (st.sym s).visible
  if visible = .no then false
  else if type ≠ .boolean ∧ type ≠ .tristate then false
  else if type = .boolean ∧ val = .mod then false
  else if visible ≤ (st.sym s).revTri then false
  else if (K.choiceOf s).isSome ∧ visible = .yes then val = .yes
  else (st.sym s).revTri ≤ val ∧ val ≤ visible

/-- A value of a choice that is set to `y` is what the user has chosen. The choice and the values
that are visible are new no longer. -/
def chooseValue (s c : σ) (st : KconfigState σ) : KconfigState σ :=
  let st := st.update c fun d => { d with user.sym := some s, user.isNew := false }
  { st with sym := fun x =>
      if x ∈ K.choiceValues c ∧ (st.sym x).visible ≠ .no then
        { st.sym x with user.isNew := false }
      else st.sym x }

/-- What `sym_set_tristate_value` writes. -/
def writeTristate (s : σ) (val : Tristate) (st : KconfigState σ) : KconfigState σ :=
  let old : KconfigState σ := st.update s fun d => { d with user.isNew := false }
  let chosen : KconfigState σ :=
    match K.choiceOf s, val with
    | some c, .yes => K.chooseValue s c old
    | _, _ => old
  chosen.update s fun d => { d with user.tri := val }

/-- `sym_set_tristate_value`. -/
def symSetTristateValue (fuel : ℕ) (s : σ) (val : Tristate) : CalcM σ Bool := do
  let st ← get
  let oldval := (st.sym s).curr.tri
  if oldval ≠ val ∧ K.symTristateWithinRange st s val = false then pure false
  else do
    modify (K.writeTristate s val)
    (if oldval ≠ val then K.symClearAllValid fuel else pure () : CalcM σ Unit)
    pure true

/-- The loop of `sym_toggle_tristate_value`, for so many rounds at most. -/
def toggle (fuel : ℕ) (s : σ) (oldval : Tristate) : ℕ → Tristate → CalcM σ Tristate
  | 0, _ => failure
  | rounds + 1, newval => do
    let done ← K.symSetTristateValue fuel s newval.next
    if done = true ∨ oldval = newval.next then pure newval.next
    else toggle fuel s oldval rounds newval.next

/-- `sym_toggle_tristate_value`. There are no more values than three. -/
def symToggleTristateValue (fuel : ℕ) (s : σ) : CalcM σ Tristate := do
  let st ← get
  let oldval := (st.sym s).curr.tri
  K.toggle fuel s oldval 3 oldval

omit [DecidableEq σ] in
/-- What comes after `0x`. -/
def hexBody : Text → Option Text
  | '0' :: 'x' :: str => some str
  | '0' :: 'X' :: str => some str
  | _ => none

/-- `sym_string_valid`. -/
def symStringValid (type : SymbolType) (str : Text) : Bool :=
  let isDigit : Char → Bool := fun c => (digitValue 10 c).isSome
  let isXDigit : Char → Bool := fun c => (digitValue 16 c).isSome
  match type with
  | .string => true
  | .int =>
    match (match str with
      | '-' :: str => str
      | str => str : Text) with
    | [] => false
    | ch :: str => isDigit ch && !(ch = '0' && str ≠ []) && str.all isDigit
  | .hex =>
    match (hexBody str).getD str with
    | [] => false
    | ch :: str => isXDigit ch && str.all isXDigit
  | .boolean | .tristate =>
    match str with
    | ch :: _ => ch ∈ ['y', 'Y', 'm', 'M', 'n', 'N']
    | [] => false
  | _ => false

/-- A number is in the range of the symbol, if one is visible. -/
def numberWithinRange (ask : σ → CalcM σ Unit) (s : σ) (str : Text) (base : ℕ) :
    CalcM σ Bool := do
  let prop ← K.symGetRangeProp ask s
  match prop with
  | none => pure true
  | some prop => do
    let low ← K.symGetRangeVal ask prop.left base
    if low ≤ strtol str base then do
      let high ← K.symGetRangeVal ask prop.right base
      pure (strtol str base ≤ high)
    else pure false

/-- `sym_string_within_range`, for a symbol that is a string or a number. -/
def symStringWithinRange (fuel : ℕ) (s : σ) (str : Text) : CalcM σ Bool :=
  match K.type s with
  | .string => pure (symStringValid .string str)
  | .int =>
    if symStringValid .int str then K.numberWithinRange (K.symCalcValue fuel) s str 10
    else pure false
  | .hex =>
    if symStringValid .hex str then K.numberWithinRange (K.symCalcValue fuel) s str 16
    else pure false
  | _ => pure false

/-- The text that `sym_set_string_value` keeps. -/
def withPrefix (type : SymbolType) (newval : Text) : Text :=
  if type = .hex ∧ hexBody newval = none then '0' :: 'x' :: newval else newval

/-- `sym_set_string_value`. -/
def symSetStringValue (fuel : ℕ) (s : σ) (newval : Text) : CalcM σ Bool :=
  match K.type s with
  | .boolean | .tristate =>
    match newval with
    | 'y' :: _ | 'Y' :: _ => K.symSetTristateValue fuel s .yes
    | 'm' :: _ | 'M' :: _ => K.symSetTristateValue fuel s .mod
    | 'n' :: _ | 'N' :: _ => K.symSetTristateValue fuel s .no
    | _ => pure false
  | type => do
    let within ← K.symStringWithinRange fuel s newval
    if within = false then pure false
    else do
      modify (·.update s fun d => { d with user.isNew := false })
      let st ← get
      if withPrefix type newval = newval ∧ (st.sym s).user.val = some newval then pure true
      else do
        modify (·.update s fun d => { d with user.val := some (withPrefix type newval) })
        K.symClearAllValid fuel
        pure true

end Code

/-! ## What becomes of a wish -/

section Wishes

variable [DecidableEq σ] {K : Kconfig σ} {rank : σ → ℕ} {u u' : σ → User σ} {m m' : Tristate}
variable {o o' : σ → Result σ} {s c x : σ} {val : Tristate}

/-- Two solutions for settings that differ from some rank on. A symbol of that rank is in the
second one what the first one makes of the second setting. -/
theorem Solution.eq_result (hK : K.HasRank rank) (hu : K.WellSet u) (hu' : K.WellSet u')
    (h : K.Solution u m o) (h' : K.Solution u' m' o') (hlt : ∀ t, rank t < rank s → u t = u' t) :
    o' s = K.result (u' s) m o s ∧ ∀ t, rank t < rank s → o' t = o t := by
  have hbelow := h.eq_of_lt hK hu h' hlt
  have hmodules : K.type s = .tristate → m' = m := fun ht => by
    rw [h.modules, h'.modules, modulesOf, modulesOf, hbelow _ (hK s _ (.modules ht))]
  refine ⟨?_, fun t ht => (hbelow t ht).symm⟩
  rw [h'.eq s]
  exact result_congr (hu' s) hmodules fun t ht => (hbelow t (hK s t ht)).symm

/-- The value that a symbol would have, if it is one that may be set. -/
theorem triOf_wish (hval : (o s).revTri ≤ val ∧ val ≤ (o s).visible) (hvis : (o s).visible ≠ .no)
    (hno : ¬ ((K.choiceOf s).isSome ∧ (o s).visible = .yes))
    (hbool : K.typeOf m (o s).visible s = .boolean → val ≠ .mod) {v : User σ}
    (hv : v.isNew = false ∧ v.tri = val) (r : Reading σ) (chosen : Option σ) :
    K.triOf r v m chosen (o s).visible (o s).revTri s = val := by
  have hor : (o s).visible ⊔ (o s).revTri ≠ .no := fun h =>
    hvis (le_bot_iff.mp (le_sup_left.trans h.le))
  have htri : (val ⊓ (o s).visible) ⊔ (o s).revTri = val := by
    rw [inf_eq_left.mpr hval.2, sup_eq_left.mpr hval.1]
  rw [triOf, settledTri, if_neg hno, if_pos hor, wanted, if_pos hv.1, hv.2, htri]
  exact if_neg fun h => hbool h.2 h.1

/-- A value in the range of the symbol is the value that it has once it is set. -/
theorem Solution.tri_of_wish (hK : K.HasRank rank) (hu : K.WellSet u) (hu' : K.WellSet u')
    (h : K.Solution u m o) (h' : K.Solution u' m' o') (hlt : ∀ t, rank t < rank s → u t = u' t)
    (hs : K.IsTristate s) (hc : K.isChoice s = true → val ≠ .yes)
    (hval : (o s).revTri ≤ val ∧ val ≤ (o s).visible) (hvis : (o s).visible ≠ .no)
    (hno : ¬ ((K.choiceOf s).isSome ∧ (o s).visible = .yes))
    (hbool : K.typeOf m (o s).visible s = .boolean → val ≠ .mod)
    (hv : (u' s).isNew = false ∧ (u' s).tri = val) : (o' s).curr.tri = val := by
  rw [(h.eq_result hK hu hu' h' hlt).1, h.result_curr hs, triOf_wish hval hvis hno hbool hv]
  rw [if_neg fun hy => hc hy.1 hy.2]

/-- The prompts of a value are at most the choice. -/
theorem prompts_le (hx : K.choiceOf x = some c) (r : Reading σ) :
    ((K.prompts x).map (K.depValue r)).foldr (· ⊔ ·) .no ≤ r.tri c := by
  have hle : ∀ l : List (Option (Expr σ)), (∀ p ∈ l, ∃ e, p = some e ∧ e.Conjunct c) →
      (l.map (K.depValue r)).foldr (· ⊔ ·) .no ≤ r.tri c := by
    intro l
    induction l with
    | nil => exact fun _ => bot_le
    | cons p l ih =>
      intro h
      obtain ⟨e, rfl, he⟩ := h p (by simp)
      exact sup_le (exprValue_le_of_conjunct he) (ih fun p hp => h p (by simp [hp]))
  exact hle _ (K.prompts_of_value x c hx)

/-- A choice one of whose values is visible without reserve is `y`. -/
theorem Solution.choice_of_visible (h : K.Solution u m o) (hx : K.choiceOf x = some c)
    (hvis : (o x).visible = .yes) :
    K.triOf (readingOf o) (u c) m none (o c).visible (o c).revTri c = .yes ∧
      (o c).curr.tri = .yes := by
  have hmn : ¬ Tristate.mod ≤ .no := by decide
  have hym : ¬ Tristate.yes ≤ .mod := by decide
  have hc := K.isChoice_of_value x c hx
  have hnone := K.choiceOf_choice c hc
  have hle := prompts_le hx (readingOf o)
  rw [h.visible_eq, visibleOf, Tristate.promote_eq_yes] at hvis
  have hcurr := h.curr_tristate (K.logical_of_choice c hc)
  rw [hnone] at hcurr
  have htri : (readingOf o).tri c = (o c).curr.tri := rfl
  rw [htri] at hle
  have hmod : Tristate.mod ≤ (o c).curr.tri := by
    rcases hvis with ha | ⟨ha, -⟩ <;> rw [ha] at hle
    · exact le_trans le_top hle
    · exact hle
  split_ifs at hcurr with hy
  · refine ⟨hy.2, ?_⟩
    cases hp : K.pick (readingOf o) (u c) m c with
    | some y => simp [hcurr, hp]
    | none =>
      rw [hcurr, hp] at hmod
      exact absurd hmod hmn
  · -- The choice is `m`, and so is a prompt of the value, which then is not fully visible.
    exfalso
    generalize hT : K.triOf (readingOf o) (u c) m (none.bind fun c => (o c).curr.sym)
      (o c).visible (o c).revTri c = T at hcurr hy
    have hTne : T ≠ .yes := fun hT => hy ⟨hc, hT⟩
    rw [hcurr] at hmod hle
    have hTmod : T = .mod := by
      cases T
      · exact absurd hmod hmn
      · rfl
      · exact absurd rfl hTne
    rw [hTmod, triOf, Tristate.promote_eq_mod] at hT
    have htype : K.type c = .tristate ∧ m ≠ .no := by
      have hne := hT.2
      unfold typeOf at hne
      rcases K.logical_of_choice c hc with ht | ht
      · simp [ht] at hne
      · exact ⟨ht, by simpa [ht, hnone] using hne⟩
    rw [hTmod] at hle
    rcases hvis with ha | ⟨-, ht | hm⟩
    · rw [ha] at hle
      exact absurd hle hym
    · exact ht (K.type_of_value x c hx ▸ htype.1)
    · exact htype.2 hm

/-- A value that is visible without reserve is `y` if it is the one that the choice has. -/
theorem Solution.tri_of_value (h : K.Solution u m o) (hx : K.choiceOf x = some c)
    (hvis : (o x).visible = .yes) :
    (o x).curr.tri = if (o c).curr.sym = some x then .yes else .no := by
  have hs : K.IsTristate x := by
    rw [IsTristate, K.type_of_value x c hx]
    exact K.logical_of_choice c (K.isChoice_of_value x c hx)
  have hno : K.isChoice x ≠ true := fun hc => by simp [K.choiceOf_choice x hc] at hx
  rw [h.curr_tristate hs, if_neg fun hy => hno hy.1]
  simp only [triOf, settledTri, hx, hvis, Option.isSome_some, true_and, if_true, Option.bind_some]
  split_ifs <;> rfl

/-- A wish for more makes no symbol less. -/
theorem triOf_mono {r : Reading σ} {v v' : User σ} {chosen : Option σ} {visible revTri : Tristate}
    (h : K.wanted r v s ≤ K.wanted r v' s) :
    K.triOf r v m chosen visible revTri s ≤ K.triOf r v' m chosen visible revTri s := by
  refine Tristate.promote_mono ?_
  unfold settledTri
  split_ifs
  · exact le_rfl
  · exact le_rfl
  · exact sup_le_sup_right (inf_le_inf_right _ h) _
  · exact le_rfl
  · exact le_rfl

/-- A wish that is not for less leaves a choice `y`. -/
theorem triOf_choice_of_wish (hc : K.isChoice c = true) {r : Reading σ} {visible revTri : Tristate}
    {v v' : User σ} (h : K.triOf r v m none visible revTri c = .yes)
    (hv : v'.isNew = false ∧ v.tri ≤ v'.tri) :
    K.triOf r v' m none visible revTri c = .yes := by
  have hle : K.wanted r v c ≤ K.wanted r v' c := by
    simp only [wanted, hv.1, hc, if_true]
    split_ifs
    · exact hv.2
    · exact bot_le
  exact top_le_iff.mp (h.symm.le.trans (triOf_mono hle))

/-- A value that is visible without reserve would be the one that the choice has, if it were
set. -/
theorem Solution.curr_choice_of_wish (h : K.Solution u m o) (hx : K.choiceOf x = some c)
    (hvis : (o x).visible = .yes) {v : User σ}
    (hv : v.sym = some x ∧ v.isNew = false ∧ (u c).tri ≤ v.tri) :
    (K.result v m o c).curr = ⟨['n'], some x, .yes⟩ := by
  have hc := K.isChoice_of_value x c hx
  have hs : K.IsTristate c := K.logical_of_choice c hc
  obtain ⟨hyes, htri⟩ := h.choice_of_visible hx hvis
  have hpick : K.pick (readingOf o) v m c = some x := by
    have hcand : ∀ r, K.candidates r v c = x :: (K.candidates r v c).tail := fun r => by
      simp [candidates, hv.1]
    have hself : (readingOf o).choosing c = readingOf o := choosing_self htri (h.val_tristate hs)
    rw [pick, hcand, List.find?_cons, hself, ← h.visible_eq, hvis]
    rfl
  have hT := triOf_choice_of_wish hc hyes hv.2
  rw [h.result_curr hs, K.choiceOf_choice c hc, Option.bind_none, if_pos ⟨hc, hT⟩, hpick]

/-- A value that is visible without reserve is the one that the choice has once it is set. -/
theorem Solution.choice_of_wish (hK : K.HasRank rank) (hu : K.WellSet u) (hu' : K.WellSet u')
    (h : K.Solution u m o) (h' : K.Solution u' m' o') (hlt : ∀ t, rank t < rank c → u t = u' t)
    (hx : K.choiceOf x = some c) (hvis : (o x).visible = .yes)
    (hv : (u' c).sym = some x ∧ (u' c).isNew = false ∧ (u' c).tri = (u c).tri) :
    (o' c).curr = ⟨['n'], some x, .yes⟩ ∧ (o' x).visible = .yes := by
  have hc := K.isChoice_of_value x c hx
  have htri := (h.choice_of_visible hx hvis).2
  have hval := h.val_tristate (K.logical_of_choice c hc)
  obtain ⟨heq, hbelow⟩ := h.eq_result hK hu hu' h' hlt
  have hcurr : (o' c).curr = ⟨['n'], some x, .yes⟩ := by
    rw [heq, h.curr_choice_of_wish hx hvis ⟨hv.1, hv.2.1, hv.2.2.ge⟩]
  refine ⟨hcurr, ?_⟩
  have hmodules : K.type x = .tristate → m' = m := fun ht => by
    rw [h.modules, h'.modules, modulesOf, modulesOf,
      hbelow _ (hK c _ (.modules (K.type_of_value x c hx ▸ ht)))]
  rw [h'.visible_eq, ← hvis, h.visible_eq]
  refine visibleOf_congr hmodules fun e he t ht => ?_
  by_cases htc : t = c
  · subst htc
    exact ⟨(congrArg (·.tri) hcurr).trans htri.symm, (congrArg (·.val) hcurr).trans hval.symm⟩
  · have ho := hbelow t (hK c t (.value hx he ht htc))
    exact ⟨congrArg (·.curr.tri) ho, congrArg (·.curr.val) ho⟩

end Wishes

/-! ## Settled states -/

section Settled

variable [DecidableEq σ] {K : Kconfig σ} {rank : σ → ℕ} {o : σ → Result σ}
variable {st st' : KconfigState σ} {s c x : σ} {val : Tristate} {fuel : ℕ}

/-- What is valid in the state is the solution for what the user has set. -/
structure SettledBy (K : Kconfig σ) (o : σ → Result σ) (st : KconfigState σ) : Prop where
  wellSet : K.WellSet st.users
  solution : K.Solution st.users st.modulesVal o
  agrees : ∀ t, (st.sym t).valid = true → K.Agrees o st t
  values : ∀ x, (K.choiceOf x).isSome → (st.sym x).revTri = .no

/-- Two states between which nothing but calculations lie. -/
structure Kept (st st' : KconfigState σ) : Prop where
  users : st'.users = st.users
  modulesVal : st'.modulesVal = st.modulesVal
  valid : ∀ t, (st.sym t).valid = true → (st'.sym t).valid = true

theorem Solution.revTri_of_value {u : σ → User σ} {m : Tristate} (ho : K.Solution u m o)
    (hx : (K.choiceOf x).isSome) : (o x).revTri = .no := by
  rw [ho.revTri_eq, revOf, if_pos hx]

theorem SettledBy.before (h : K.SettledBy o st) :
    K.Before rank st.users st.modulesVal o s st where
  upTo t _ hv := h.agrees t hv
  user _ := rfl
  values x hx := (h.values x hx).trans (h.solution.revTri_of_value hx).symm
  modules := .inl rfl

theorem SettledBy.during (h : K.SettledBy o st) (hv : (st.sym s).valid = true) :
    K.During rank st.users st.modulesVal o s st where
  below t _ hv := h.agrees t hv
  user _ := rfl
  values x hx := (h.values x hx).trans (h.solution.revTri_of_value hx).symm
  modules := .inl rfl
  valid := hv

theorem SettledBy.quiet (h : K.SettledBy o st) (hs : K.Quiet st.modulesVal o st st') :
    K.SettledBy o st' ∧ Kept st st' := by
  have hu : st'.users = st.users := funext hs.user
  have hm : st'.modulesVal = st.modulesVal := hs.modules.elim id id
  refine ⟨⟨hu ▸ h.wellSet, hu ▸ hm ▸ h.solution, fun t hv' => ?_, fun x hx => ?_⟩,
    hu, hm, hs.valid⟩
  · by_cases hv : (st.sym t).valid = true
    · exact (h.agrees t hv).step hs id hv
    · exact hs.fresh t id hv hv'
  · have hno := h.solution.revTri_of_value hx
    rw [← hno]
    exact hs.revTri x ((h.values x hx).trans hno.symm)

/-- A symbol that is asked for in a settled state has the value of the solution. -/
theorem SettledBy.symCalcValue (h : K.SettledBy o st) (hK : K.HasRank rank)
    (hf : rank s + 2 ≤ fuel) :
    Runs (K.symCalcValue fuel s) st fun _ st' =>
      K.SettledBy o st' ∧ Kept st st' ∧ (st'.sym s).valid = true :=
  (symCalcValue_runs hK h.wellSet h.solution hf h.before).mono fun _ _ ⟨hs, hv⟩ =>
    ⟨(h.quiet hs).1, (h.quiet hs).2, hv⟩

/-- A state that `sym_clear_all_valid` can make settled. Symbols of no known type keep the flag. -/
structure Clearable (K : Kconfig σ) (st : KconfigState σ) : Prop where
  wellSet : K.WellSet st.users
  other : ∀ t, K.type t = .other → (st.sym t).valid = true →
    (st.sym t).curr = ⟨K.name t, none, .no⟩
  values : ∀ x, (K.choiceOf x).isSome → (st.sym x).revTri = .no
  modules : ¬ K.Declared K.modulesSym → st.modulesVal = .no

theorem Solution.curr_other {u : σ → User σ} {m : Tristate} (ho : K.Solution u m o)
    (h : ¬ K.Declared s) : (o s).curr = ⟨K.name s, none, .no⟩ := by
  rw [ho.eq s, result]
  cases ht : K.type s <;> simp_all [Declared]

theorem symClearAllValid_runs (hK : K.HasRank rank) (hf : rank K.modulesSym + 2 ≤ fuel)
    (h : K.Clearable st) :
    Runs (K.symClearAllValid fuel) st fun _ st' => ∃ o, K.SettledBy o st' ∧
      st'.users = st.users := by
  obtain ⟨m, o, ho⟩ := exists_solution hK h.wellSet
  unfold symClearAllValid
  rw [runs_bind, runs_modify]
  set st₁ := K.invalidate st with hst₁
  have hvalid : ∀ t, (st₁.sym t).valid = true → K.Agrees o st₁ t := fun t hv => by
    by_cases ht : K.type t = .other
    · have hd : ¬ K.Declared t := fun hd => hd.2 ht
      have heq : st₁.sym t = st.sym t := if_pos ht
      rw [heq] at hv
      exact ⟨by rw [heq, h.other t ht hv, ho.curr_other hd], fun h => absurd h hd,
        fun h => absurd h hd⟩
    · simp [hst₁, invalidate, ht] at hv
  have huser : ∀ t, (st₁.sym t).user = st.users t := fun t => by
    by_cases ht : K.type t = .other <;> simp [hst₁, invalidate, ht, KconfigState.users]
  have hrev : ∀ t, (st₁.sym t).revTri = (st.sym t).revTri := fun t => by
    by_cases ht : K.type t = .other <;> simp [hst₁, invalidate, ht]
  have hb : K.Before rank st.users m o K.modulesSym st₁ :=
    ⟨fun t _ hv => hvalid t hv, huser,
      fun x hx => by rw [hrev, h.values x hx, ho.revTri_of_value hx], .inr le_rfl⟩
  refine (symCalcValue_runs hK h.wellSet ho hf hb).mono fun _ st' ⟨hs, hv'⟩ => ?_
  have hu : st'.users = st.users := funext fun t => (hs.user t).trans (huser t)
  have hmod : st'.modulesVal = m := by
    by_cases hd : K.Declared K.modulesSym
    · refine hs.modulesSym id hd (fun hv => ?_) hv'
      simp [hst₁, invalidate, hd.2] at hv
    · have hm : st.modulesVal = m := (h.modules hd).trans (ho.modules.trans (if_neg hd)).symm
      exact hs.modules.elim (fun h => h.trans hm) id
  refine ⟨o, ⟨hu ▸ h.wellSet, by rw [hu, hmod]; exact ho, fun t hv => ?_, fun x hx => ?_⟩, hu⟩
  · by_cases hv₁ : (st₁.sym t).valid = true
    · exact (hvalid t hv₁).step hs id hv₁
    · exact hs.fresh t id hv₁ hv
  · rw [← ho.revTri_of_value hx]
    exact hs.revTri x (by rw [hrev, h.values x hx, ho.revTri_of_value hx])

/-- The user's part of the symbols is written, and no other. -/
structure Rewritten (st st' : KconfigState σ) : Prop where
  curr : ∀ t, (st'.sym t).curr = (st.sym t).curr
  visible : ∀ t, (st'.sym t).visible = (st.sym t).visible
  revTri : ∀ t, (st'.sym t).revTri = (st.sym t).revTri
  valid : ∀ t, (st'.sym t).valid = (st.sym t).valid
  modulesVal : st'.modulesVal = st.modulesVal

theorem SettledBy.clearable (h : K.SettledBy o st) (hst : Rewritten st st')
    (hw : K.WellSet st'.users) : K.Clearable st' where
  wellSet := hw
  other t ht hv := by
    rw [hst.valid t] at hv
    rw [hst.curr t, (h.agrees t hv).curr, h.solution.curr_other fun hd => hd.2 ht]
  values x hx := (hst.revTri x).trans (h.values x hx)
  modules hd := hst.modulesVal.trans (h.solution.modules.trans (if_neg hd))

theorem rewritten_update (st : KconfigState σ) (s : σ) (f : User σ → User σ) :
    Rewritten st (st.update s fun d => { d with user := f d.user }) := by
  refine ⟨fun t => ?_, fun t => ?_, fun t => ?_, fun t => ?_, rfl⟩
  all_goals by_cases ht : t = s <;> [subst ht; skip] <;> simp_all

theorem Rewritten.trans {st'' : KconfigState σ} (h : Rewritten st st') (h' : Rewritten st' st'') :
    Rewritten st st'' :=
  ⟨fun t => (h'.curr t).trans (h.curr t), fun t => (h'.visible t).trans (h.visible t),
    fun t => (h'.revTri t).trans (h.revTri t), fun t => (h'.valid t).trans (h.valid t),
    h'.modulesVal.trans h.modulesVal⟩

theorem rewritten_chooseValue (s c : σ) : Rewritten st (K.chooseValue s c st) := by
  refine (rewritten_update st c fun d => { d with sym := some s, isNew := false }).trans
    ⟨fun t => ?_, fun t => ?_, fun t => ?_, fun t => ?_, rfl⟩
  all_goals
    dsimp only [chooseValue]
    split_ifs <;> rfl

theorem rewritten_writeTristate (K : Kconfig σ) (st : KconfigState σ) (s : σ) (val : Tristate) :
    Rewritten st (K.writeTristate s val st) := by
  have hold := rewritten_update st s fun d => { d with isNew := false }
  unfold writeTristate
  refine Rewritten.trans ?_ (rewritten_update _ s fun d => { d with tri := val })
  dsimp only
  split
  · exact hold.trans (rewritten_chooseValue s _)
  · exact hold

/-- What the user has set, where no value of a choice is set to `y`. -/
theorem users_writeTristate (st : KconfigState σ) (h : K.choiceOf s = none ∨ val ≠ .yes) :
    (K.writeTristate s val st).users =
      Function.update st.users s { st.users s with isNew := false, tri := val } := by
  have hmid : K.writeTristate s val st =
      (st.update s fun d => { d with user.isNew := false }).update s
        fun d => { d with user.tri := val } := by
    unfold writeTristate
    dsimp only
    split
    · rename_i hc
      simp [hc] at h
    · rfl
  funext t
  by_cases ht : t = s
  · subst ht
    simp [hmid, KconfigState.users]
  · simp [hmid, KconfigState.users, ht]

theorem ne_choice (hx : K.choiceOf s = some c) : s ≠ c := fun h => by
  have hnone := K.choiceOf_choice c (K.isChoice_of_value s c hx)
  rw [← h, hx] at hnone
  simp at hnone

/-- What the user has set, where a value of a choice is set to `y`. -/
theorem users_writeTristate_choice (st : KconfigState σ) (hx : K.choiceOf s = some c) (t : σ) :
    ((K.writeTristate s .yes st).users t).sym =
        (if t = c then some s else (st.users t).sym) ∧
      ((K.writeTristate s .yes st).users t).tri = (if t = s then .yes else (st.users t).tri) ∧
      (t = c ∨ t = s → ((K.writeTristate s .yes st).users t).isNew = false) ∧
      (t ≠ c → K.choiceOf t ≠ some c → (K.writeTristate s .yes st).users t = st.users t) := by
  have hsc := ne_choice hx
  have hmem : t ∈ K.choiceValues c → K.choiceOf t = some c :=
    K.choiceOf_mem c (K.isChoice_of_value s c hx) t
  simp only [writeTristate, hx, chooseValue, KconfigState.users]
  by_cases hts : t = s
  · subst hts
    refine ⟨?_, ?_, fun _ => ?_, fun _ h => absurd hx h⟩ <;> simp [hsc]
  · by_cases htc : t = c
    · subst htc
      refine ⟨?_, ?_, fun _ => ?_, fun h => absurd rfl h⟩ <;> simp [hts]
    · refine ⟨?_, ?_, fun h => absurd h (by simp [hts, htc]), fun _ hno => ?_⟩
      · simp [hts, htc]
        split_ifs <;> simp
      · simp [hts, htc]
        split_ifs <;> simp
      · simp [hts, htc, if_neg fun h : t ∈ K.choiceValues c ∧ _ => hno (hmem h.1)]

theorem WellSet.update {u : σ → User σ} (h : K.WellSet u) (s : σ) {v : User σ}
    (hv : v.sym = (u s).sym) : K.WellSet (Function.update u s v) := by
  intro c hc y hy
  by_cases hcs : c = s
  · subst hcs
    rw [Function.update_self, hv] at hy
    exact h c hc y hy
  · rw [Function.update_of_ne hcs] at hy
    exact h c hc y hy

theorem WellSet.choose (h : K.WellSet st.users) (hx : K.choiceOf s = some c) :
    K.WellSet (K.writeTristate s .yes st).users := by
  intro c' hc' y hy
  rw [(users_writeTristate_choice _ hx c').1] at hy
  split_ifs at hy with hcc
  · rw [← Option.some.inj hy, hcc, hx]
  · exact h c' hc' y hy

/-- What `sym_tristate_within_range` finds of a symbol that is valid. -/
theorem SettledBy.within (h : K.SettledBy o st) (hv : (st.sym s).valid = true)
    (hs : K.IsTristate s) (hw : K.symTristateWithinRange st s val = true) :
    (o s).visible ≠ .no ∧
      (K.typeOf st.modulesVal (o s).visible s = .boolean → val ≠ .mod) ∧
      ((K.choiceOf s).isSome ∧ (o s).visible = .yes → val = .yes) ∧
      (¬ ((K.choiceOf s).isSome ∧ (o s).visible = .yes) →
        (o s).revTri ≤ val ∧ val ≤ (o s).visible) := by
  have hdecl : K.Declared s := by rcases hs with h | h <;> simp [Declared, h]
  have hag := h.agrees s hv
  have htype : K.symGetType st s = K.typeOf st.modulesVal (o s).visible s := by
    rw [← hag.visible hdecl]
    rfl
  unfold symTristateWithinRange at hw
  simp only [hag.visible hdecl, hag.revTri hdecl, htype] at hw
  split_ifs at hw with h₁ h₂ h₃ h₄ h₅
  · exact ⟨h₁, fun hb hm => h₃ ⟨hb, hm⟩, fun _ => by simpa using hw, fun hno => absurd h₅ hno⟩
  · exact ⟨h₁, fun hb hm => h₃ ⟨hb, hm⟩, fun hy => absurd hy h₅, fun _ => by simpa using hw⟩

/-- A value that differs from that of the symbol, which is valid : either it is out of range, and
nothing changes, or the state is settled with that value afterwards. A choice that is set to `y`
may have no value that is visible. -/
theorem symSetTristateValue_runs (hK : K.HasRank rank) (hf : rank K.modulesSym + 2 ≤ fuel)
    (h : K.SettledBy o st) (hv : (st.sym s).valid = true) (hs : K.IsTristate s)
    (hne : (st.sym s).curr.tri ≠ val) :
    Runs (K.symSetTristateValue fuel s val) st fun b st' =>
      b = K.symTristateWithinRange st s val ∧ (b = false → st' = st) ∧
      (b = true → ∃ o', K.SettledBy o' st' ∧
        ((K.isChoice s = true → val ≠ .yes) → (o' s).curr.tri = val)) := by
  unfold symSetTristateValue
  rw [runs_bind, runs_get]
  by_cases hw : K.symTristateWithinRange st s val = true
  · rw [if_neg (by simp [hw]), runs_bind, runs_modify, if_pos hne, hw]
    obtain ⟨hvis, hbool, hyes, hrange⟩ := h.within hv hs hw
    have hre := rewritten_writeTristate K st s val
    have hfinish : K.WellSet (K.writeTristate s val st).users →
        (∀ o' m', K.Solution (K.writeTristate s val st).users m' o' →
          (K.isChoice s = true → val ≠ .yes) → (o' s).curr.tri = val) →
        Runs (do
          K.symClearAllValid fuel
          pure true) (K.writeTristate s val st) fun b st' =>
          b = true ∧ (b = false → st' = st) ∧
            (b = true → ∃ o', K.SettledBy o' st' ∧
              ((K.isChoice s = true → val ≠ .yes) → (o' s).curr.tri = val)) := fun hw htri => by
      refine (symClearAllValid_runs hK hf (h.clearable hre hw)).bind
        fun _ st' ⟨o', ho', hu'⟩ => ?_
      exact runs_pure.mpr ⟨rfl, nofun, fun _ => ⟨o', ho', htri o' _ (hu' ▸ ho'.solution)⟩⟩
    by_cases hplain : K.choiceOf s = none ∨ val ≠ .yes
    · have hu := users_writeTristate st hplain
      have hno : ¬ ((K.choiceOf s).isSome ∧ (o s).visible = .yes) := fun hy => by
        rcases hplain with hp | hp
        · simp [hp] at hy
        · exact hp (hyes hy)
      have hwell : K.WellSet (K.writeTristate s val st).users := by
        rw [hu]
        exact h.wellSet.update s rfl
      refine hfinish hwell fun o' m' h' hc => ?_
      refine h.solution.tri_of_wish hK h.wellSet hwell h'
        (fun t ht => ?_) hs hc (hrange hno) hvis hno hbool (by simp [hu])
      rw [hu]
      have hts : t ≠ s := fun h => absurd (h ▸ ht) (lt_irrefl _)
      rw [Function.update_of_ne hts]
    · push Not at hplain
      obtain ⟨hsome, rfl⟩ := hplain
      obtain ⟨c, hx⟩ := Option.ne_none_iff_exists'.mp hsome
      have hu := users_writeTristate_choice st hx
      have hvis' : (o s).visible = .yes := by
        by_contra hno
        exact hno (top_le_iff.mp (hrange fun hy => hno hy.2).2)
      refine hfinish (h.wellSet.choose hx) fun o' m' h' _ => ?_
      have hlt : ∀ t, rank t < rank c → st.users t = (K.writeTristate s .yes st).users t :=
        fun t ht => ((hu t).2.2.2 (fun h => absurd (h ▸ ht) (lt_irrefl _))
          fun hx' => absurd (hK t c (.choice hx')) (by omega)).symm
      have hwish := h.solution.choice_of_wish hK h.wellSet (h.wellSet.choose hx) h' hlt hx hvis'
        ⟨by rw [(hu c).1, if_pos rfl], (hu c).2.2.1 (.inl rfl),
          by rw [(hu c).2.1, if_neg (ne_choice hx).symm]⟩
      rw [h'.tri_of_value hx hwish.2, hwish.1, if_pos rfl]
  · rw [if_pos ⟨hne, Bool.eq_false_of_not_eq_true hw⟩, Bool.eq_false_of_not_eq_true hw]
    exact runs_pure.mpr ⟨rfl, fun _ => rfl, nofun⟩

/-! ### The same value again

A value that a symbol has already is written without a look at its range, and nothing is
calculated anew. -/

/-- The value that a symbol has is as good as what the user wants. -/
theorem promote_again (p : Prop) [Decidable p] : ∀ a visible revTri : Tristate,
    Tristate.promote p ((Tristate.promote p ((a ⊓ visible) ⊔ revTri) ⊓ visible) ⊔ revTri) =
      Tristate.promote p ((a ⊓ visible) ⊔ revTri) := by
  by_cases hp : p <;> simp only [Tristate.promote, hp, and_true, and_false, if_false] <;> decide

/-- A symbol that is no value of a choice would be the same for its own value as a wish. -/
theorem triOf_again (hx : K.choiceOf s = none) {r : Reading σ} {v v' : User σ} {m : Tristate}
    {chosen : Option σ} {visible revTri : Tristate}
    (hval : K.triOf r v m chosen visible revTri s = val)
    (hv : v'.isNew = false ∧ v'.tri = val) :
    K.triOf r v' m chosen visible revTri s = val := by
  simp only [triOf, settledTri, hx, Option.isSome_none, Bool.false_eq_true, false_and,
    if_false] at hval ⊢
  by_cases hor : visible ⊔ revTri ≠ .no
  · rw [if_pos hor] at hval ⊢
    conv_rhs => rw [← hval]
    rw [show K.wanted r v' s = val from (if_pos hv.1).trans hv.2, ← hval]
    exact promote_again _ _ _ _
  · rw [if_neg hor] at hval ⊢
    exact hval

theorem triOf_boolean (hb : K.type s = .boolean) {r : Reading σ} {v : User σ} {m : Tristate}
    {chosen : Option σ} {visible revTri : Tristate} :
    K.triOf r v m chosen visible revTri s ≠ .mod := by
  rw [triOf, Ne, Tristate.promote_eq_mod]
  simp [typeOf, hb]

/-- What the user wants does not matter to a value of a boolean choice. -/
theorem triOf_value (hx : (K.choiceOf s).isSome) {visible : Tristate} (hvis : visible ≠ .mod)
    (r : Reading σ) (v v' : User σ) (m : Tristate) (chosen : Option σ) :
    K.triOf r v m chosen visible .no s = K.triOf r v' m chosen visible .no s := by
  cases visible with
  | no => simp [triOf, settledTri]
  | mod => exact absurd rfl hvis
  | yes => simp [triOf, settledTri, hx]

section Solution

variable {u u' : σ → User σ} {m : Tristate}

/-- Settings that make no difference to the value of any symbol. -/
theorem Solution.of_curr (h : K.Solution u m o)
    (hcurr : ∀ t, (K.result (u' t) m o t).curr = (o t).curr) : K.Solution u' m o where
  eq t := by
    have hv : (K.result (u' t) m o t).visible = (o t).visible := by
      rw [h.eq t]
      rfl
    have hr : (K.result (u' t) m o t).revTri = (o t).revTri := by
      rw [h.eq t]
      rfl
    calc o t = ⟨(o t).curr, (o t).visible, (o t).revTri⟩ := rfl
      _ = K.result (u' t) m o t := by rw [← hcurr t, ← hv, ← hr]
  modules := h.modules

theorem Solution.curr_self (h : K.Solution u m o) (t : σ) :
    (K.result (u t) m o t).curr = (o t).curr :=
  (congrArg Result.curr (h.eq t)).symm

theorem Solution.visible_boolean (h : K.Solution u m o) (hb : K.type s = .boolean) :
    (o s).visible ≠ .mod := by
  rw [h.visible_eq, visibleOf, Ne, Tristate.promote_eq_mod]
  simp [hb]

/-- A symbol that has no part in a choice. -/
theorem Solution.curr_again (h : K.Solution u m o) (hs : K.IsTristate s)
    (hc : K.isChoice s = false) (hx : K.choiceOf s = none) (htri : (o s).curr.tri = val)
    {v : User σ} (hv : v.isNew = false ∧ v.tri = val) :
    (K.result v m o s).curr = (o s).curr := by
  have hnot : ∀ T, ¬ (K.isChoice s = true ∧ T) := fun T hy => by simp [hc] at hy
  have hcurr := h.curr_tristate hs
  rw [if_neg (hnot _)] at hcurr
  rw [hcurr] at htri
  rw [h.result_curr hs, if_neg (hnot _), triOf_again hx htri hv, hcurr, ← htri]

/-- A value of a boolean choice. -/
theorem Solution.curr_value (h : K.Solution u m o) (hb : K.type s = .boolean)
    (hx : (K.choiceOf s).isSome) (v : User σ) : (K.result v m o s).curr = (o s).curr := by
  have hrev : (o s).revTri = .no := by rw [h.revTri_eq, revOf, if_pos hx]
  have hnot : ∀ T, ¬ (K.isChoice s = true ∧ T) := fun T hy => by
    simp [K.choiceOf_choice s hy.1] at hx
  rw [h.result_curr (.inl hb), h.curr_tristate (.inl hb), if_neg (hnot _), if_neg (hnot _), hrev,
    triOf_value hx (h.visible_boolean hb) _ v (u s)]

/-- A boolean choice, for a wish that is its own value. -/
theorem Solution.curr_choice_again (h : K.Solution u m o) (hb : K.type c = .boolean)
    (hc : K.isChoice c = true) {v : User σ} (hsym : v.sym = (u c).sym)
    (hv : v.isNew = false ∧ v.tri = (o c).curr.tri) :
    (K.result v m o c).curr = (o c).curr := by
  have hnone := K.choiceOf_choice c hc
  have hpick : K.pick (readingOf o) v m c = K.pick (readingOf o) (u c) m c := by
    simp only [pick, candidates, hsym]
  have hcurr := h.curr_tristate (.inl hb)
  rw [hnone, Option.bind_none] at hcurr
  rw [h.result_curr (.inl hb), hnone, Option.bind_none, hpick]
  cases hT : K.triOf (readingOf o) (u c) m none (o c).visible (o c).revTri c with
  | mod => exact absurd hT (triOf_boolean hb)
  | no =>
    rw [hT, if_neg (by simp)] at hcurr
    have hle : K.wanted (readingOf o) v c ≤ K.wanted (readingOf o) (u c) c := by
      rw [wanted, if_pos hv.1, hv.2, hcurr]
      exact bot_le
    have hno : K.triOf (readingOf o) v m none (o c).visible (o c).revTri c = .no :=
      le_bot_iff.mp ((triOf_mono hle).trans hT.le)
    rw [hno, if_neg (by simp), hcurr]
  | yes =>
    rw [hT, if_pos ⟨hc, rfl⟩] at hcurr
    cases hp : K.pick (readingOf o) (u c) m c with
    | some x =>
      simp only [hp] at hcurr
      rw [if_pos ⟨hc, triOf_choice_of_wish hc hT ⟨hv.1, by rw [hv.2, hcurr]; exact le_top⟩⟩, hcurr]
    | none =>
      -- The choice has no value that is visible, and is `n` either way.
      simp only [hp] at hcurr
      rw [hcurr]
      cases hT' : K.triOf (readingOf o) v m none (o c).visible (o c).revTri c with
      | mod => exact absurd hT' (triOf_boolean hb)
      | no => simp [SymbolValue.no]
      | yes => exact if_pos ⟨hc, rfl⟩

end Solution

/-- The same values, after the user's part has been written. -/
theorem SettledBy.rewritten (h : K.SettledBy o st) (hre : Rewritten st st')
    (hw : K.WellSet st'.users)
    (hcurr : ∀ t, (K.result (st'.users t) st.modulesVal o t).curr = (o t).curr) :
    K.SettledBy o st' where
  wellSet := hw
  solution := hre.modulesVal ▸ h.solution.of_curr hcurr
  agrees t ht := by
    have hag := h.agrees t (hre.valid t ▸ ht)
    exact ⟨(hre.curr t).trans hag.curr, fun hd => (hre.visible t).trans (hag.visible hd),
      fun hd => (hre.revTri t).trans (hag.revTri hd)⟩
  values x hx := (hre.revTri x).trans (h.values x hx)

/-- The value that a symbol has already, for one that has no part in a choice or a part in a
boolean one. -/
theorem symSetTristateValue_same (h : K.SettledBy o st) (hv : (st.sym s).valid = true)
    (hs : K.IsTristate s)
    (hc : K.isChoice s = false ∧ K.choiceOf s = none ∨
      K.type s = .boolean ∧ (st.sym s).visible ≠ .no)
    (heq : (st.sym s).curr.tri = val) :
    Runs (K.symSetTristateValue fuel s val) st fun b st' =>
      b = true ∧ K.SettledBy o st' ∧ (o s).curr.tri = val := by
  unfold symSetTristateValue
  rw [runs_bind, runs_get, if_neg fun hne => hne.1 heq, runs_bind, runs_modify,
    if_neg (not_not.mpr heq), runs_bind, runs_pure, runs_pure]
  have hag := h.agrees s hv
  have htri : (o s).curr.tri = val := by rw [← hag.curr, heq]
  have hre := rewritten_writeTristate K st s val
  refine ⟨rfl, ?_, htri⟩
  by_cases hplain : K.choiceOf s = none ∨ val ≠ .yes
  · have hu := users_writeTristate st hplain
    refine h.rewritten hre (by rw [hu]; exact h.wellSet.update s rfl) fun t => ?_
    rw [hu]
    by_cases hts : t = s
    · subst hts
      rw [Function.update_self]
      rcases hc with ⟨hno, hx⟩ | ⟨hb, hvis⟩
      · exact h.solution.curr_again hs hno hx htri ⟨rfl, rfl⟩
      · by_cases hx : (K.choiceOf t).isSome
        · exact h.solution.curr_value hb hx _
        · by_cases hch : K.isChoice t = true
          · exact h.solution.curr_choice_again hb hch rfl ⟨rfl, htri.symm⟩
          · exact h.solution.curr_again hs (Bool.eq_false_of_not_eq_true hch)
              (Option.not_isSome_iff_eq_none.mp hx) htri ⟨rfl, rfl⟩
    · rw [Function.update_of_ne hts]
      exact h.solution.curr_self t
  · push Not at hplain
    obtain ⟨hsome, rfl⟩ := hplain
    obtain ⟨c, hx⟩ := Option.ne_none_iff_exists'.mp hsome
    obtain ⟨hb, hvis⟩ := hc.resolve_left fun h => hsome h.2
    have hu := users_writeTristate_choice st hx
    refine h.rewritten hre (h.wellSet.choose hx) fun t => ?_
    by_cases htc : t = c
    · subst htc
      have hdecl : K.Declared s := by simp [Declared, hb]
      have hyes : (o s).visible = .yes := by
        have hmod := h.solution.visible_boolean hb
        rw [hag.visible hdecl] at hvis
        cases hv : (o s).visible <;> simp_all
      have hsym : (o t).curr.sym = some s := by
        by_contra hne
        rw [h.solution.tri_of_value hx hyes, if_neg hne] at htri
        exact absurd htri (by decide)
      have hT := (h.solution.choice_of_visible hx hyes).1
      rw [h.solution.curr_choice_of_wish hx hyes ⟨by rw [(hu t).1, if_pos rfl],
        (hu t).2.2.1 (.inl rfl), by rw [(hu t).2.1, if_neg (ne_choice hx).symm]⟩]
      have hch := K.isChoice_of_value s t hx
      have hcurr := h.solution.curr_tristate (K.logical_of_choice t hch)
      rw [K.choiceOf_choice t hch, Option.bind_none, if_pos ⟨hch, hT⟩] at hcurr
      cases hp : K.pick (readingOf o) (st.users t) st.modulesVal t with
      | none => simp [hcurr, hp, SymbolValue.no] at hsym
      | some x =>
        simp only [hp] at hcurr
        rw [hcurr] at hsym ⊢
        rw [← Option.some.inj hsym]
    · by_cases hxt : K.choiceOf t = some c
      · have hbt : K.type t = .boolean := by
          rw [K.type_of_value t c hxt, ← K.type_of_value s c hx, hb]
        exact h.solution.curr_value hbt (by simp [hxt]) _
      · rw [(hu t).2.2.2 htc hxt]
        exact h.solution.curr_self t

end Settled

/-! ## sym_set_string_value -/

section Strings

variable {t : Text} {c : Char}

theorem plain_of_digit (h : (digitValue 16 c).isSome) :
    isSpace c = false ∧ c ≠ '-' ∧ c ≠ '+' := by
  refine ⟨?_, ?_, ?_⟩
  · by_contra hs
    rw [Bool.not_eq_false] at hs
    simp only [isSpace, Bool.or_eq_true, beq_iff_eq] at hs
    rcases hs with ((((rfl | rfl) | rfl) | rfl) | rfl) | rfl <;> revert h <;> decide
  · rintro rfl
    revert h
    decide
  · rintro rfl
    revert h
    decide

/-- A number that starts with a digit is read from there. -/
theorem strtol_of_digit (h : (digitValue 16 c).isSome) :
    strtol (c :: t) 16 =
      (min (2 ^ 63 - 1) (readDigits 16 (dropHexPrefix 16 (c :: t)) 0 : ℤ)).bmod (2 ^ 32) := by
  obtain ⟨hspace, hminus, hplus⟩ := plain_of_digit h
  have hdrop : (c :: t).dropWhile isSpace = c :: t := by simp [hspace]
  simp only [strtol, hdrop]
  split
  · rename_i heq
    exact absurd (List.cons.inj heq).1 hminus
  · rename_i heq
    exact absurd (List.cons.inj heq).1 hplus
  · rfl

theorem dropHexPrefix_eq (h : hexBody t = none) : dropHexPrefix 16 t = t := by
  unfold dropHexPrefix
  split
  · split_ifs with hp
    · rcases hp.2.1 with rfl | rfl <;> simp [hexBody] at h
    · rfl
  · rfl

/-- The prefix makes no difference to a number. -/
theorem strtol_withPrefix (h : symStringValid .hex t = true) :
    strtol (withPrefix .hex t) 16 = strtol t 16 := by
  unfold withPrefix
  split_ifs with hno
  · simp only [symStringValid, hno.2, Option.getD_none] at h
    cases t with
    | nil => simp at h
    | cons c t =>
      have hc : (digitValue 16 c).isSome := by
        simp only [Bool.and_eq_true] at h
        exact h.1
      rw [strtol_of_digit hc, strtol_of_digit (by decide), dropHexPrefix_eq hno.2]
      simp [dropHexPrefix, hc]
  · rfl

variable [DecidableEq σ] {K : Kconfig σ} {rank : σ → ℕ} {u u' : σ → User σ} {m m' : Tristate}
variable {o o' : σ → Result σ} {ask : σ → CalcM σ Unit} {st st' : KconfigState σ} {s : σ}
variable {r : Reading σ} {base fuel : ℕ} {str val : Text}

/-- A text is a number in the first range that is visible. -/
def inRange (K : Kconfig σ) (r : Reading σ) (s : σ) (str : Text) (base : ℕ) : Bool :=
  match K.firstVisible r Range.visible (K.ranges s) with
  | none => true
  | some prop => K.rangeVal r prop.left base ≤ strtol str base ∧
      strtol str base ≤ K.rangeVal r prop.right base

/-- A number that is in the range stays as it is. -/
theorem rangedIn_of_inRange (h : K.inRange r s str base = true)
    (hval : strtol val base = strtol str base) : K.rangedIn r s base val = val := by
  unfold inRange at h
  unfold rangedIn
  cases hp : K.firstVisible r Range.visible (K.ranges s) with
  | none => rfl
  | some prop =>
    simp only [hp, decide_eq_true_eq] at h
    simp only [hval, if_pos h.1, if_pos h.2]

theorem numberWithinRange_runs (hK : K.HasRank rank) (hask : K.Asks rank u m o ask s)
    (hd : K.During rank u m o s st) :
    Runs (K.numberWithinRange ask s str base) st fun b st' =>
      b = K.inRange (readingOf o) s str base ∧ K.Quiet m o st st' := by
  have hprop : Runs (K.symGetRangeProp ask s) st fun a st' =>
      a = K.firstVisible (readingOf o) Range.visible (K.ranges s) ∧ K.Quiet m o st st' :=
    firstVisibleProp_runs hask hd fun _ hp _ he _ ht => known_reads hK (.rangeVisible hp he ht)
  refine hprop.bind fun a st₁ ⟨ha, hs₁⟩ => ?_
  unfold inRange
  rw [← ha]
  cases a with
  | none => exact runs_pure.mpr ⟨rfl, hs₁⟩
  | some prop =>
    have hmem : prop ∈ K.ranges s := List.mem_of_find?_eq_some ha.symm
    refine (symGetRangeVal_runs hask (hd.quiet hs₁) (fun t ht => known_reads hK (.left hmem ht))
      base).bind fun low st₂ ⟨hlow, hs₂⟩ => ?_
    have hs₂ := hs₁.trans hs₂
    rw [hlow]
    by_cases hle : K.rangeVal (readingOf o) prop.left base ≤ strtol str base
    · rw [if_pos hle]
      refine (symGetRangeVal_runs hask (hd.quiet hs₂)
        (fun t ht => known_reads hK (.right hmem ht)) base).bind fun high st₃ ⟨hhigh, hs₃⟩ => ?_
      exact runs_pure.mpr ⟨by simp [hhigh, hle], hs₂.trans hs₃⟩
    · rw [if_neg hle]
      exact runs_pure.mpr ⟨by simp [hle], hs₂⟩

/-- What `sym_string_within_range` lets through is kept as it is by the range of the symbol. -/
theorem symStringWithinRange_runs (hK : K.HasRank rank) (h : K.SettledBy o st)
    (hv : (st.sym s).valid = true) (hf : rank s + 2 ≤ fuel) :
    Runs (K.symStringWithinRange fuel s str) st fun b st' =>
      K.Quiet st.modulesVal o st st' ∧ (b = true →
        K.ranged (readingOf o) s (withPrefix (K.type s) str) = withPrefix (K.type s) str) := by
  have hask := symCalcValue_asks (s := s) hK h.wellSet h.solution hf
  have hd : K.During rank st.users st.modulesVal o s st := h.during hv
  unfold symStringWithinRange ranged
  cases ht : K.type s
  case string => exact runs_pure.mpr ⟨.refl, fun _ => rfl⟩
  case int =>
    dsimp only
    split_ifs
    · refine (numberWithinRange_runs hK hask hd).mono fun b st' ⟨hb, hs⟩ => ⟨hs, fun hy => ?_⟩
      exact rangedIn_of_inRange (hb.symm.trans hy) (by simp [withPrefix])
    · exact runs_pure.mpr ⟨.refl, nofun⟩
  case hex =>
    dsimp only
    split_ifs with hvalid
    · refine (numberWithinRange_runs hK hask hd).mono fun b st' ⟨hb, hs⟩ => ⟨hs, fun hy => ?_⟩
      exact rangedIn_of_inRange (hb.symm.trans hy) (strtol_withPrefix hvalid)
    · exact runs_pure.mpr ⟨.refl, nofun⟩
  all_goals exact runs_pure.mpr ⟨.refl, nofun⟩

/-- The value of a string or a number that is visible is what the user has set. -/
theorem Solution.val_of_wish (hK : K.HasRank rank) (hu : K.WellSet u) (hu' : K.WellSet u')
    (h : K.Solution u m o) (h' : K.Solution u' m' o') (hlt : ∀ t, rank t < rank s → u t = u' t)
    (hs : K.IsText s) (hvis : (o s).visible ≠ .no)
    (hval : K.ranged (readingOf o) s val = val)
    (hv : (u' s).isNew = false ∧ (u' s).val = some val) : (o' s).curr.val = val := by
  obtain ⟨heq, hbelow⟩ := h.eq_result hK hu hu' h' hlt
  have hsame : ∀ t, K.Reads s t → (readingOf o').Same (readingOf o) t := fun t ht =>
    ⟨congrArg (·.curr.tri) (hbelow t (hK s t ht)), congrArg (·.curr.val) (hbelow t (hK s t ht))⟩
  have hvis' : (o' s).visible = (o s).visible := by
    rw [heq, h.visible_eq]
    rfl
  rw [h'.curr_text hs, valOf, if_pos ⟨hvis' ▸ hvis, hv.1⟩, hv.2, Option.getD_some,
    ranged_congr _ hsame, hval]

/-- A text for a symbol that is valid, and has not been made new with that text : either it is out
of range, or the state is settled with that value afterwards, if the symbol is visible. -/
theorem symSetStringValue_runs (hK : K.HasRank rank) (hf : rank s + 2 ≤ fuel)
    (hfm : rank K.modulesSym + 2 ≤ fuel) (h : K.SettledBy o st)
    (hv : (st.sym s).valid = true) (hs : K.IsText s)
    (hnew : (st.sym s).user.isNew = true → (st.sym s).user.val ≠ some str) :
    Runs (K.symSetStringValue fuel s str) st fun b st' =>
      (b = false → K.SettledBy o st' ∧ Kept st st') ∧
      (b = true → ∃ o', K.SettledBy o' st' ∧
        ((o s).visible ≠ .no → (o' s).curr.val = withPrefix (K.type s) str)) := by
  have hrun : Runs (do
      let within ← K.symStringWithinRange fuel s str
      if within = false then pure false
      else do
        modify (·.update s fun d => { d with user.isNew := false })
        let st ← get
        if withPrefix (K.type s) str = str ∧ (st.sym s).user.val = some str then pure true
        else do
          modify (·.update s fun d => { d with user.val := some (withPrefix (K.type s) str) })
          K.symClearAllValid fuel
          pure true) st fun b st' =>
      (b = false → K.SettledBy o st' ∧ Kept st st') ∧
      (b = true → ∃ o', K.SettledBy o' st' ∧
        ((o s).visible ≠ .no → (o' s).curr.val = withPrefix (K.type s) str)) := by
    refine (symStringWithinRange_runs hK h hv hf).bind fun b st₁ ⟨hs₁, hin⟩ => ?_
    obtain ⟨h₁, hk₁⟩ := h.quiet hs₁
    cases b with
    | false => exact runs_pure.mpr ⟨fun _ => ⟨h₁, hk₁⟩, nofun⟩
    | true =>
      rw [if_neg (by simp), runs_bind, runs_modify, runs_bind, runs_get]
      have hin := hin rfl
      have huser : (st₁.sym s).user = (st.sym s).user := congrFun hk₁.users s
      split_ifs with hsame
      · -- The same text again. The symbol was not new, and nothing is written.
        have hval : (st₁.sym s).user.val = some str := by simpa using hsame.2
        have hold : (st₁.sym s).user.isNew = false := by
          by_contra hno
          rw [huser] at hno hval
          exact hnew (Bool.eq_true_of_not_eq_false hno) hval
        have hself : (st₁.update s fun d => { d with user.isNew := false }) = st₁ := by
          have hd : { st₁.sym s with user.isNew := false } = st₁.sym s := by rw [← hold]
          exact congrArg (KconfigState.mk · st₁.modulesVal) (Function.update_eq_self_iff.mpr hd)
        rw [hself]
        refine runs_pure.mpr ⟨nofun, fun _ => ⟨o, h₁, fun hvis => ?_⟩⟩
        exact h₁.solution.val_of_wish hK h₁.wellSet h₁.wellSet h₁.solution
          (fun _ _ => rfl) hs hvis hin ⟨hold, by rw [hsame.1]; exact hval⟩
      · rw [runs_bind, runs_modify]
        have hre := (rewritten_update st₁ s fun d => { d with isNew := false }).trans
          (rewritten_update _ s fun d => { d with val := some (withPrefix (K.type s) str) })
        generalize hst₂ : (st₁.update s fun d => { d with user.isNew := false }).update s
          (fun d => { d with user.val := some (withPrefix (K.type s) str) }) = st₂ at hre
        have hu₂ : st₂.users = Function.update st₁.users s { st₁.users s with
            isNew := false, val := some (withPrefix (K.type s) str) } := by
          funext t
          by_cases hts : t = s
          · subst hts
            simp [← hst₂, KconfigState.users]
          · simp [← hst₂, KconfigState.users, hts]
        have hwell : K.WellSet st₂.users := by
          rw [hu₂]
          exact h₁.wellSet.update s rfl
        refine (symClearAllValid_runs hK hfm (h₁.clearable hre hwell)).bind
          fun _ st₃ ⟨o', ho', hu'⟩ => ?_
        refine runs_pure.mpr ⟨nofun, fun _ => ⟨o', ho', fun hvis => ?_⟩⟩
        refine h₁.solution.val_of_wish hK h₁.wellSet ho'.wellSet ho'.solution
          (fun t ht => ?_) hs hvis hin
          (by simp [hu', hu₂])
        have hts : t ≠ s := fun h => absurd (h ▸ ht) (lt_irrefl _)
        rw [hu', hu₂, Function.update_of_ne hts]
  unfold symSetStringValue
  rcases hs with ht | ht | ht <;> simpa only [ht] using hrun

end Strings

end Kconfig

end Makeroot
