import Makeroot.Setting
import Makeroot.Transform

/-!
# Sessions

A front end asks for the values of symbols and sets symbols, in any order and as often as it
likes. Whatever it has done, what it is told about a symbol is the one and only solution for what
the user has set by then (`Session.answer_solution`), so that the order in which symbols are asked
for makes no difference.
-/

set_option linter.unusedSectionVars false

namespace Makeroot

open DeMorgan GnuMake Fuel

variable {σ : Type}

/-- What a front end calls. -/
inductive Request (σ : Type)
  | value (s : σ)
  | tristate (s : σ) (val : Tristate)
  | string (s : σ) (newval : Text)

namespace Kconfig

section Code

variable [DecidableEq σ] (K : Kconfig σ)

def perform (fuel : ℕ) : Request σ → CalcM σ Unit
  | .value s => K.symCalcValue fuel s
  | .tristate s val => do
    let _ ← K.symSetTristateValue fuel s val
    pure ()
  | .string s newval => do
    let _ ← K.symSetStringValue fuel s newval
    pure ()

omit [DecidableEq σ] in
/-- The symbols when their values have been read from a file and none is calculated. -/
def loaded (u : σ → User σ) : KconfigState σ :=
  ⟨fun s => ⟨.empty, u s, .no, .no, false, false⟩, .no⟩

omit [DecidableEq σ] in
/-- A symbol is set after its value has been asked for. What it is already is set again only
where it has no part in a choice, or is visible and has a part in a boolean one. -/
def Allowed (st : KconfigState σ) : Request σ → Prop
  | .value _ => True
  | .tristate s val => (st.sym s).valid = true ∧ K.IsTristate s ∧
      ((st.sym s).curr.tri = val → K.isChoice s = false ∧ K.choiceOf s = none ∨
        K.type s = .boolean ∧ (st.sym s).visible ≠ .no)
  | .string s newval => (st.sym s).valid = true ∧ K.IsText s ∧
      ((st.sym s).user.isNew = true → (st.sym s).user.val ≠ some newval)

/-- The states that a front end can lead to. -/
inductive Session (fuel : ℕ) : KconfigState σ → Prop
  | start {u : σ → User σ} {st : KconfigState σ} (hu : K.WellSet u)
      (hrun : K.symCalcValue fuel K.modulesSym (loaded u) = some ((), st)) : Session fuel st
  | step {st st' : KconfigState σ} (req : Request σ) (h : Session fuel st)
      (ha : K.Allowed st req) (hrun : K.perform fuel req st = some ((), st')) : Session fuel st'

end Code

/-! ## Runs -/

section Runs

variable [DecidableEq σ] {K : Kconfig σ} {rank : σ → ℕ} {fuel : ℕ} {o : σ → Result σ}
variable {st st' : KconfigState σ} {s c x : σ}

theorem clearable_loaded {u : σ → User σ} (hu : K.WellSet u) : K.Clearable (loaded u) :=
  ⟨hu, fun _ _ h => by simp [loaded] at h, fun _ _ => rfl, fun _ => rfl⟩

/-- A request comes to an end, and the state is settled again. -/
theorem SettledBy.perform (hK : K.HasRank rank) (hf : ∀ s, rank s + 2 ≤ fuel)
    (h : K.SettledBy o st) {req : Request σ} (ha : K.Allowed st req) :
    Runs (K.perform fuel req) st fun _ st' => ∃ o', K.SettledBy o' st' := by
  cases req with
  | value s => exact (h.symCalcValue hK (hf s)).mono fun _ _ hs => ⟨o, hs.1⟩
  | tristate s val =>
    obtain ⟨hv, hs, hsame⟩ := ha
    refine Runs.bind (P := fun _ st' => ∃ o', K.SettledBy o' st') ?_
      fun _ _ hs => runs_pure.mpr hs
    by_cases heq : (st.sym s).curr.tri = val
    · exact (symSetTristateValue_same h hv hs (hsame heq) heq).mono fun _ _ hr => ⟨o, hr.2.1⟩
    · refine (symSetTristateValue_runs hK (hf _) h hv hs heq).mono fun b st' ⟨_, hno, hyes⟩ => ?_
      cases b with
      | false => exact ⟨o, (hno rfl).symm ▸ h⟩
      | true => exact (hyes rfl).imp fun _ ho' => ho'.1
  | string s newval =>
    obtain ⟨hv, hs, hnew⟩ := ha
    refine (symSetStringValue_runs hK (hf s) (hf _) h hv hs hnew).bind
      fun b st' ⟨hno, hyes⟩ => runs_pure.mpr ?_
    cases b with
    | false => exact ⟨o, (hno rfl).1⟩
    | true => exact (hyes rfl).imp fun _ ho' => ho'.1

theorem invalidate_loaded (u : σ → User σ) : K.invalidate (loaded u) = loaded u := by
  simp [invalidate, loaded]

theorem loaded_runs (hK : K.HasRank rank) (hf : rank K.modulesSym + 2 ≤ fuel)
    {u : σ → User σ} (hu : K.WellSet u) :
    Runs (K.symCalcValue fuel K.modulesSym) (loaded u) fun _ st' => ∃ o, K.SettledBy o st' := by
  have hclear := symClearAllValid_runs hK hf (clearable_loaded hu)
  rw [symClearAllValid, runs_bind, runs_modify, invalidate_loaded] at hclear
  exact hclear.mono fun _ _ ⟨o, ho, _⟩ => ⟨o, ho⟩

/-- The state is settled all along. -/
theorem Session.settled (hK : K.HasRank rank) (hf : ∀ s, rank s + 2 ≤ fuel)
    (h : K.Session fuel st) : ∃ o, K.SettledBy o st := by
  induction h with
  | start hu hrun => exact (loaded_runs hK (hf _) hu).of_eq hrun
  | step req _ ha hrun ih =>
    obtain ⟨o, ho⟩ := ih
    exact (ho.perform hK hf ha).of_eq hrun

/-- What a front end is told about a symbol. -/
def answer (K : Kconfig σ) (fuel : ℕ) (st : KconfigState σ) (s : σ) : Option (Result σ) :=
  (K.symCalcValue fuel s st).map fun r =>
    ⟨(r.2.sym s).curr, (r.2.sym s).visible, (r.2.sym s).revTri⟩

theorem SettledBy.answer (hK : K.HasRank rank) (hf : ∀ s, rank s + 2 ≤ fuel)
    (h : K.SettledBy o st) (s : σ) :
    ∃ r, K.answer fuel st s = some r ∧ r.curr = (o s).curr ∧ (K.Declared s → r = o s) := by
  obtain ⟨_, st', hrun, ho, -, hv⟩ := (h.symCalcValue hK (hf s)).exists
  have hag := ho.agrees s hv
  refine ⟨_, by rw [Kconfig.answer, hrun, Option.map_some], hag.curr, fun hd => ?_⟩
  rw [hag.curr, hag.visible hd, hag.revTri hd]

theorem SettledBy.answer_declared (hK : K.HasRank rank) (hf : ∀ s, rank s + 2 ≤ fuel)
    (h : K.SettledBy o st) (hd : K.Declared s) : K.answer fuel st s = some (o s) := by
  obtain ⟨r, hr, -, hs⟩ := h.answer hK hf s
  rw [hr, hs hd]

end Runs

end Kconfig

/-! ## A small configuration -/

/-- The symbols of a small configuration : a choice between two values, and a name for the one that
is chosen. -/
inductive Small
  | modules
  | choice
  | first
  | second
  | name
deriving DecidableEq

namespace Small

instance : Fintype Small := ⟨{modules, choice, first, second, name}, fun s => by cases s <;> decide⟩

def symbols : Symbols Small where
  name
    | modules => "MODULES".toList
    | choice => []
    | first => "FIRST".toList
    | second => "SECOND".toList
    | name => "NAME".toList
  type
    | name => .string
    | _ => .boolean
  isConst _ := false
  type_const := nofun
  name_const := nofun
  name_letter := nofun

def properties : Properties Small where
  toSymbols := symbols
  props
    | modules => [.prompt none]
    | choice => [.prompt none, .default ⟨none, .symbol (.other second)⟩, .choice]
    | first => [.prompt (some (.symbol (.other choice))), .choice]
    | second => [.prompt (some (.symbol (.other choice))), .choice]
    | name => [.prompt (some (.two .or (.symbol (.other first)) (.symbol (.other second))))]
  revDep
    | choice => some (.symbol .mod)
    | _ => none
  isChoice s := s = choice
  choiceOf
    | first => some choice
    | second => some choice
    | _ => none
  choiceValues
    | choice => [first, second]
    | _ => []
  modulesSym := modules

def config : Kconfig Small where
  toProperties := properties
  logical_of_choice := by decide
  choiceOf_choice := by decide
  isChoice_of_value := by decide
  type_of_value := by decide
  prompts_of_value x c h p hp := by
    cases x <;> simp [properties] at h
    all_goals
      simp only [Properties.prompts, properties, List.mem_filterMap] at hp
      simp at hp
      exact ⟨_, hp.symm, .inl (h ▸ rfl)⟩
  choiceOf_mem := by decide
  default_of_choice c hc d hd := by
    cases c <;> simp [properties] at hc
    simp only [Properties.defaults, properties, List.mem_filterMap] at hd
    simp at hd
    exact ⟨.other second, by rw [← hd], fun x hx => by rw [← Symbol.other.inj hx]; rfl⟩

def rank : Small → ℕ
  | modules => 0
  | choice => 1
  | first => 2
  | second => 2
  | name => 3

theorem hasRank : config.HasRank rank := by
  intro s t h
  cases h with
  | prompt h ht =>
    cases s <;> simp [config, properties, Properties.prompts] at h
    all_goals
      subst h
      simp only [Expr.Mentions, Symbol.other.injEq] at ht
      revert ht
      cases t <;> decide
  | revDep hs h ht =>
    cases s <;> simp [config, properties] at h
    subst h
    cases ht
  | defaultVisible h he ht =>
    cases s <;> simp [config, properties, Properties.defaults] at h
    subst h
    simp at he
  | default hs h ht =>
    cases s <;> simp [config, properties, Properties.defaults] at h hs
  | rangeVisible h he ht => cases s <;> simp [config, properties, Properties.ranges] at h
  | left h ht => cases s <;> simp [config, properties, Properties.ranges] at h
  | right h ht => cases s <;> simp [config, properties, Properties.ranges] at h
  | choice h =>
    cases s <;> simp [config, properties] at h
    all_goals
      subst h
      decide
  | modules h => cases s <;> simp [config, properties, symbols] at h
  | value hx h ht hne =>
    rename_i x e
    cases x <;> simp [config, properties, Properties.prompts] at hx h
    all_goals
      subst hx h
      cases ht
      exact absurd rfl hne

theorem fuel_le : ∀ s, rank s + 2 ≤ 5 := by decide

/-- The state in which nothing has been set. -/
def start : KconfigState Small :=
  ((config.symCalcValue 5 modules (Kconfig.loaded fun _ => ⟨none, none, .no, true⟩)).get
    (by decide +kernel)).2

theorem session_start : config.Session 5 start :=
  .start (fun _ _ _ h => by simp at h) (run_get _)

/-- The state in which all symbols have been asked for. -/
def asked : KconfigState Small :=
  ((config.symCalcValue 5 name start).get (by decide +kernel)).2

theorem session_asked : config.Session 5 asked :=
  .step (.value name) session_start trivial (run_get _)

theorem allowed_first : config.Allowed asked (.tristate first .yes) := by
  have hvalid : (asked.sym first).valid = true := by decide +kernel
  have hval : (asked.sym first).curr.tri = .no := by decide +kernel
  exact ⟨hvalid, .inl rfl, fun h => by simp [hval] at h⟩

theorem allowed_toggle : config.Allowed asked (.tristate first (asked.sym first).curr.tri) := by
  have hvisible : (asked.sym first).visible ≠ .no := by decide +kernel
  exact ⟨allowed_first.1, .inl rfl, fun _ => .inr ⟨rfl, hvisible⟩⟩

theorem allowed_name : config.Allowed asked (.string name ['x']) := by
  have hvalid : (asked.sym name).valid = true := by decide +kernel
  have hval : (asked.sym name).user.val = none := by decide +kernel
  exact ⟨hvalid, .inr (.inr rfl), fun _ h => by simp [hval] at h⟩

example : config.answer 5 asked choice = some ⟨⟨['n'], some second, .yes⟩, .yes, .yes⟩ := by
  decide +kernel

end Small

/-! ## What is asked for -/

namespace Kconfig

section Answers

variable [DecidableEq σ] {K : Kconfig σ} {rank : σ → ℕ} {fuel : ℕ} {st st' : KconfigState σ} {s : σ}

theorem SettledBy.unique {o o' : σ → Result σ} {m' : Tristate} (hK : K.HasRank rank)
    (h : K.SettledBy o st) (h' : K.Solution st.users m' o') : m' = st.modulesVal ∧ o' = o := by
  have heq := h'.unique hK h.wellSet h.solution
  exact ⟨h'.modules.trans (heq ▸ h.solution.modules.symm), heq⟩

end Answers

/-! ## What is set -/

section Sets

variable [DecidableEq σ] {K : Kconfig σ} {rank : σ → ℕ} {fuel : ℕ} {u : σ → User σ} {m : Tristate}
variable {o : σ → Result σ} {st st' : KconfigState σ} {s c x : σ} {val : Tristate}

theorem IsTristate.declared (h : K.IsTristate s) : K.Declared s := by
  rcases h with h | h <;> simp [Declared, h]

theorem IsText.declared (h : K.IsText s) : K.Declared s := by
  rcases h with h | h | h <;> simp [Declared, h]

/-- What `sym_set_tristate_value` does in a session. -/
theorem Session.setTristate_runs (hK : K.HasRank rank) (hf : ∀ s, rank s + 2 ≤ fuel)
    (h : K.Session fuel st) (ha : K.Allowed st (.tristate s val)) :
    Runs (K.symSetTristateValue fuel s val) st fun b st' => K.Session fuel st' ∧
      (b = true ↔ (st.sym s).curr.tri = val ∨ K.symTristateWithinRange st s val = true) ∧
      (b = false → st' = st) ∧
      (b = true → (K.isChoice s = true → val ≠ .yes) →
        ∃ r, K.answer fuel st' s = some r ∧ r.curr.tri = val) := by
  obtain ⟨o, ho⟩ := h.settled hK hf
  obtain ⟨hv, hs, hsame⟩ := ha
  have hrun : Runs (K.symSetTristateValue fuel s val) st fun b st' =>
      (b = true ↔ (st.sym s).curr.tri = val ∨ K.symTristateWithinRange st s val = true) ∧
      (b = false → st' = st) ∧
      (b = true → (K.isChoice s = true → val ≠ .yes) →
        ∃ r, K.answer fuel st' s = some r ∧ r.curr.tri = val) := by
    by_cases heq : (st.sym s).curr.tri = val
    · refine (symSetTristateValue_same ho hv hs (hsame heq) heq).mono
        fun b st' ⟨hb, ho', htri⟩ => ⟨by simp [hb, heq], fun hno => by simp [hb] at hno,
          fun _ _ => ?_⟩
      exact ⟨_, ho'.answer_declared hK hf hs.declared, htri⟩
    · refine (symSetTristateValue_runs hK (hf _) ho hv hs heq).mono
        fun b st' ⟨hb, hno, hyes⟩ => ⟨by simp [hb, heq], hno, fun h hc => ?_⟩
      obtain ⟨o', ho', htri⟩ := hyes h
      exact ⟨_, ho'.answer_declared hK hf hs.declared, htri hc⟩
  obtain ⟨b, st', hset, hr⟩ := hrun.exists
  exact ⟨(b, st'), hset, .step (.tristate s val) h ⟨hv, hs, hsame⟩ (run_discard hset), hr⟩

/-- The first of the two other values that the symbol may have, or else the one it has. -/
def toggled (K : Kconfig σ) (st : KconfigState σ) (s : σ) : Tristate :=
  let oldval := (st.sym s).curr.tri
  ([oldval.next, oldval.next.next].find? (K.symTristateWithinRange st s)).getD oldval

/-- What may be set to the value it has may be set to any. -/
theorem Allowed.any (ha : K.Allowed st (.tristate s (st.sym s).curr.tri)) (val : Tristate) :
    K.Allowed st (.tristate s val) :=
  ⟨ha.1, ha.2.1, fun _ => ha.2.2 rfl⟩

/-- A round of `sym_toggle_tristate_value` : the last one, or one that changes nothing. -/
theorem Session.toggle_round (hK : K.HasRank rank) (hf : ∀ s, rank s + 2 ≤ fuel)
    (h : K.Session fuel st) (ha : K.Allowed st (.tristate s (st.sym s).curr.tri)) (n : ℕ)
    {Q : Tristate → KconfigState σ → Prop}
    (hset : (st.sym s).curr.tri = val.next ∨ K.symTristateWithinRange st s val.next = true →
      ∀ st', K.Session fuel st' → ((K.isChoice s = true → val.next ≠ .yes) →
        ∃ r, K.answer fuel st' s = some r ∧ r.curr.tri = val.next) → Q val.next st')
    (hskip : (st.sym s).curr.tri ≠ val.next → K.symTristateWithinRange st s val.next = false →
      Runs (K.toggle fuel s (st.sym s).curr.tri n val.next) st Q) :
    Runs (K.toggle fuel s (st.sym s).curr.tri (n + 1) val) st Q := by
  refine (h.setTristate_runs hK hf (ha.any val.next)).bind
    fun done st' ⟨hsess, hb, hno, hyes⟩ => ?_
  cases done with
  | true =>
    rw [if_pos (.inl rfl), runs_pure]
    exact hset (hb.mp rfl) st' hsess (hyes rfl)
  | false =>
    have hout := not_or.mp fun hor => Bool.false_ne_true (hb.mpr hor)
    rw [if_neg (by simp [hout.1]), hno rfl]
    exact hskip hout.1 (by simpa using hout.2)

-- What is not chosen is `n`, and may be `y` only.
example : Small.config.toggled Small.asked .first = .yes := by decide +kernel

/-- A boolean choice that is `y` has exactly one visible value that is `y`. -/
theorem Solution.existsUnique_value (hu : K.WellSet u) (h : K.Solution u m o)
    (hb : K.type c = .boolean) (hc : K.isChoice c = true) (hyes : (o c).curr.tri = .yes) :
    ∃! x, K.choiceOf x = some c ∧ (o x).visible ≠ .no ∧ (o x).curr.tri = .yes := by
  have hvisible : ∀ x, K.choiceOf x = some c → (o x).visible ≠ .no → (o x).visible = .yes :=
    fun x hx hno => by
      have hmod := h.visible_boolean ((K.type_of_value x c hx).trans hb)
      cases hv : (o x).visible <;> simp_all
  have hchosen : ∀ x, K.choiceOf x = some c → (o x).visible ≠ .no → (o x).curr.tri = .yes →
      (o c).curr.sym = some x := fun x hx hno hy => by
    by_contra hne
    rw [h.tri_of_value hx (hvisible x hx hno), if_neg hne] at hy
    exact absurd hy (by decide)
  have hcurr := h.curr_tristate (.inl hb)
  rw [K.choiceOf_choice c hc, Option.bind_none] at hcurr
  split_ifs at hcurr with hT
  · cases hp : K.pick (readingOf o) (u c) m c with
    | none =>
      rw [hcurr, hp] at hyes
      simp [SymbolValue.no] at hyes
    | some x =>
      simp only [hp] at hcurr
      have hself : (readingOf o).choosing c = readingOf o :=
        choosing_self hyes (h.val_tristate (.inl hb))
      rw [pick, hself] at hp
      have hx : K.choiceOf x = some c :=
        choiceOf_candidate hc (hu c hc) (List.mem_of_find?_eq_some hp)
      have hno : (o x).visible ≠ .no := by
        rw [h.visible_eq]
        simpa using List.find?_some hp
      have hsym : (o c).curr.sym = some x := by rw [hcurr]
      refine ⟨x, ⟨hx, hno, ?_⟩, fun y hy => ?_⟩
      · rw [h.tri_of_value hx (hvisible x hx hno), if_pos hsym]
      · exact Option.some.inj ((hchosen y hy.1 hy.2.1 hy.2.2).symm.trans hsym)
  · -- The choice itself is worked out to be `m` or `n`.
    rw [hcurr] at hyes
    exact absurd ⟨hc, hyes⟩ hT

end Sets

/-! ## Expressions -/

section Expressions

variable [DecidableEq σ] {K : Kconfig σ} {rank : σ → ℕ} {fuel : ℕ} {u : σ → User σ} {m : Tristate}
variable {o : σ → Result σ} {st : KconfigState σ}

/-- The values of a solution. -/
def Solution.valuation (h : K.Solution u m o) : Valuation K.toSymbols where
  tri s := (o s).curr.tri
  val s := (o s).curr.val
  boolean s hs hmod := by
    rw [h.curr_tristate (.inl hs)] at hmod
    split_ifs at hmod with hy
    · split at hmod <;> simp [SymbolValue.no] at hmod
    · exact triOf_boolean hs hmod
  logical s hb ht := by
    by_cases hd : K.Declared s
    · have htext : K.IsText s := by
        cases hs : K.type s <;> simp_all [Declared, IsText]
      rw [h.curr_text htext]
    · rw [h.curr_other hd]
  unknown s hs := by rw [h.curr_other fun hd => hd.1 hs]

theorem Solution.exprValue_eq (h : K.Solution u m o) (e : Expr σ) :
    K.exprValue (readingOf o) e = Makeroot.exprCalcValue h.valuation e := by
  have htri : ∀ sym, (readingOf o).symTri sym = h.valuation.symTri sym := fun sym => by
    cases sym <;> rfl
  have hstr : ∀ sym, (readingOf o).symGetStringValue K.toSymbols sym =
      h.valuation.symGetStringValue sym := fun sym => by
    cases sym <;> rfl
  induction e with
  | symbol sym => exact htri sym
  | not e ih => rw [exprValue, ih, exprCalcValue_not]
  | comp type sym₁ sym₂ => cases type <;> simp only [exprValue, hstr] <;> rfl
  | two type e₁ e₂ ih₁ ih₂ => rw [exprValue, ih₁, ih₂, exprCalcValue_two]

theorem SettledBy.serves (hK : K.HasRank rank) (hf : ∀ s, rank s + 2 ≤ fuel)
    (h : K.SettledBy o st) (t : σ) :
    K.Serves st.modulesVal o (K.symCalcValue fuel) (readingOf o) st t where
  run st' hs := by
    obtain ⟨h', hk⟩ := h.quiet hs
    have hrun := symCalcValue_runs hK h'.wellSet h'.solution (hf t) h'.before
    rwa [hk.modulesVal] at hrun
  same st' hs hv := by
    have hag := (h.quiet hs).1.agrees t hv
    exact ⟨congrArg (·.tri) hag.curr, congrArg (·.val) hag.curr⟩

/-- What an expression is worth to a front end. -/
def worth (K : Kconfig σ) (fuel : ℕ) (st : KconfigState σ) (e : Expr σ) : Option Tristate :=
  (K.exprCalcValue (K.symCalcValue fuel) e st).map Prod.fst

theorem SettledBy.worth (hK : K.HasRank rank) (hf : ∀ s, rank s + 2 ≤ fuel)
    (h : K.SettledBy o st) (e : Expr σ) :
    K.worth fuel st e = some (Makeroot.exprCalcValue h.solution.valuation e) := by
  obtain ⟨a, st', hrun, ha, -⟩ := (exprCalcValue_serves (e := e) fun t _ => h.serves hK hf t).exists
  rw [Kconfig.worth, hrun, Option.map_some, ha, h.solution.exprValue_eq]

/-- In a session an expression is worth as much as what `expr_transform` makes of it. -/
theorem Session.worth_transform (hK : K.HasRank rank) (hf : ∀ s, rank s + 2 ≤ fuel)
    (h : K.Session fuel st) (e : Expr σ) :
    ∃ e' a, exprTransform K.toSymbols (2 * e.height + 1) e = some e' ∧
      K.worth fuel st e = some a ∧ K.worth fuel st e' = some a := by
  obtain ⟨o, ho⟩ := h.settled hK hf
  obtain ⟨e', he', htrans⟩ := exprTransform_of_height (S := K.toSymbols) e.height e le_rfl _ le_rfl
  exact ⟨e', _, he', ho.worth hK hf e, by rw [ho.worth hK hf e', htrans.calcValue]⟩

theorem Session.worth_transform_small :
    ∃ e' a, exprTransform Small.symbols 5 (.not (.comp .equal (.other .first) .yes)) = some e' ∧
      Small.config.worth 5 Small.asked (.not (.comp .equal (.other .first) .yes)) = some a ∧
      Small.config.worth 5 Small.asked e' = some a :=
  Session.worth_transform Small.hasRank Small.fuel_le Small.session_asked
    (.not (.comp .equal (.other .first) .yes))

end Expressions

end Kconfig

end Makeroot
