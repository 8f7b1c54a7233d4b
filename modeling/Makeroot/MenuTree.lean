import Makeroot.ExprDups

/-!
# Entries below a symbol

`menu_finalize` first makes what an entry is visible for of what its menu, the entry and the
property depend on (`propVisible_spec`). Then it goes through the entries of a menu and puts those
behind a symbol below it, as long as their dependencies have to do with the symbol. The
dependencies are compared as expressions, after they have been simplified. Whatever is put below a
symbol is visible only where the symbol is not `n`, or where the symbol itself is visible, if no
symbol is `m` ; and no entry is lost, put in twice or moved before another (`finalizeMenus_spec`).
-/

namespace Makeroot

open GnuMake DeMorgan Fuel

variable {σ : Type}

/-! ## The symbols of an expression -/

section Symbols

variable [DecidableEq σ] (sym : Symbol σ)

/-- `expr_contains_symbol`. -/
def exprContainsSymbol : Expr σ → Bool
  | .two _ e₁ e₂ => exprContainsSymbol e₁ || exprContainsSymbol e₂
  | .symbol s => s = sym
  | .comp _ s₁ s₂ => s₁ = sym || s₂ = sym
  | .not e => exprContainsSymbol e

/-- `expr_depends_symbol`. -/
def exprDependsSymbol : Expr σ → Bool
  | .two .and e₁ e₂ => exprDependsSymbol e₁ || exprDependsSymbol e₂
  | .symbol s => s = sym
  | .comp .equal s₁ s₂ => s₁ = sym && (s₂ = .yes || s₂ = .mod)
  | .comp .unequal s₁ s₂ => s₁ = sym && s₂ = .no
  | _ => false

variable {S : Symbols σ} {v v' : Valuation S} {e : Expr σ} {sym}

/-- A table of two tristate symbols `A` and `B`. -/
def twoTristates : Symbols Bool where
  name s := if s then ['B'] else ['A']
  type _ := .tristate
  isConst _ := false
  type_const := nofun
  name_const := nofun
  name_letter := nofun

def twoTristates.values (tri : Bool → Tristate) : Valuation twoTristates where
  tri := tri
  val s := (tri s).letter
  boolean := nofun
  logical _ _ h := absurd rfl h
  unknown := nofun

/-- `A=m || !A`. -/
def twoTristates.ofA : Expr Bool :=
  .two .or (.comp .equal (.other false) .mod) (.not (.symbol (.other false)))

/-- An expression that depends on a symbol is `n` where the symbol is. -/
theorem symTri_ne_no_of_depends (h : exprDependsSymbol sym e = true) (hl : sym.Logical S)
    (hne : exprCalcValue v e ≠ .no) : v.symTri sym ≠ .no := by
  induction e with
  | symbol s =>
    obtain rfl : s = sym := by simpa [exprDependsSymbol] using h
    exact hne
  | not e => simp [exprDependsSymbol] at h
  | comp type s₁ s₂ =>
    have hcases : s₁ = sym ∧ ∃ a : Tristate, s₂ = a.symbol ∧ type.holds .no a = .no := by
      cases type with
      | equal =>
        obtain ⟨h₁, h₂ | h₂⟩ : s₁ = sym ∧ (s₂ = .yes ∨ s₂ = .mod) := by
          simpa [exprDependsSymbol] using h
        · exact ⟨h₁, .yes, h₂, rfl⟩
        · exact ⟨h₁, .mod, h₂, rfl⟩
      | unequal =>
        obtain ⟨h₁, h₂⟩ : s₁ = sym ∧ s₂ = .no := by simpa [exprDependsSymbol] using h
        exact ⟨h₁, .no, h₂, rfl⟩
    obtain ⟨rfl, a, rfl, ha⟩ := hcases
    rw [exprCalcValue_comp hl] at hne
    exact fun hno => hne (hno ▸ ha)
  | two t e₁ e₂ ih₁ ih₂ =>
    cases t with
    | or => simp [exprDependsSymbol] at h
    | and =>
      have hboth : ∀ a b : Tristate, Junction.and.op a b ≠ .no → a ≠ .no ∧ b ≠ .no := by decide
      rw [exprCalcValue_two] at hne
      obtain ⟨hne₁, hne₂⟩ := hboth _ _ hne
      rcases Bool.or_eq_true_iff.mp h with h | h
      · exact ih₁ h hne₁
      · exact ih₂ h hne₂

end Symbols

/-! ## Inherited dependencies -/

section Inherit

variable {S : Symbols σ} {n : ℕ} {basedep parentdep dep d d₁ d₂ visible : Option (Expr σ)}

/-- The nodes of an expression that may be `NULL`. -/
def depSize (dep : Option (Expr σ)) : ℕ := dep.elim 0 Expr.size

/-- No symbol of a dependency is `m`. -/
def DefiniteDep (v : Valuation S) (dep : Option (Expr σ)) : Prop := ∀ e, dep = some e → e.Definite v

theorem exprAlloc_forall {t : Junction} {P : Expr σ → Prop}
    (hP : ∀ e₁ e₂, P e₁ → P e₂ → P (.two t e₁ e₂)) (h₁ : ∀ e, d₁ = some e → P e)
    (h₂ : ∀ e, d₂ = some e → P e) (e : Expr σ) (he : exprAlloc t d₁ d₂ = some e) : P e := by
  cases d₁ with
  | none => exact h₂ e he
  | some e₁ =>
    cases d₂ with
    | none => exact h₁ e he
    | some e₂ =>
      obtain rfl := Option.some.inj he
      exact hP e₁ e₂ (h₁ e₁ rfl) (h₂ e₂ rfl)

theorem depSize_exprAlloc_le (t : Junction) (d₁ d₂ : Option (Expr σ)) :
    depSize (exprAlloc t d₁ d₂) ≤ depSize d₁ + depSize d₂ + 1 := by
  cases d₁ <;> cases d₂ <;> simp [exprAlloc, depSize, Expr.size]

variable [DecidableEq σ]

variable (S n) in
/-- `dep` simplified under another dependency. So the first loop of `menu_finalize` makes `basedep`
of `parentdep` and the `dep` of an entry, and then of `basedep` the expression of a property. -/
def inheritDep (basedep dep : Option (Expr σ)) : Option (Option (Expr σ)) := do
  let dep ← dep.mapM (exprTransform S n)
  (exprAlloc .and basedep dep).mapM (exprEliminateDups S n)

variable (S n) in
/-- The expression of a property of an entry. -/
def propVisible (sym : Option σ) (basedep visible : Option (Expr σ)) :
    Option (Option (Expr σ)) := do
  let dep ← inheritDep S n basedep visible
  pure (if sym.any (S.type · ≠ .tristate) then dep.map (exprTransBool S) else dep)

/-- A dependency holds as far as both do that it is made of. -/
structure Inherits (S : Symbols σ) (basedep dep d : Option (Expr σ)) : Prop where
  size : depSize d ≤ depSize basedep + 3 * depSize dep + 1
  nnf : (∀ e, basedep = some e → e.Nnf) → ∀ e, d = some e → e.Nnf
  definite : ∀ v : Valuation S, DefiniteDep v basedep → DefiniteDep v dep → DefiniteDep v d
  calcValue : ∀ v : Valuation S, DefiniteDep v basedep → DefiniteDep v dep →
    depCalcValue v d = Junction.and.op (depCalcValue v basedep) (depCalcValue v dep)

theorem inheritDep_returns (hn : 21 * (depSize basedep + 3 * depSize dep + 1) + 1 ≤ n) :
    Returns (inheritDep S n basedep dep) (Inherits S basedep dep) := by
  have htransform : Returns (dep.mapM (exprTransform S n)) fun dep' =>
      depSize dep' ≤ 3 * depSize dep ∧ (∀ e, dep' = some e → e.Nnf) ∧
        ∀ v : Valuation S, (DefiniteDep v dep → DefiniteDep v dep') ∧
          depCalcValue v dep' = depCalcValue v dep := by
    refine returns_mapM (fun h => ⟨by simp [depSize], nofun, fun v => ⟨fun _ => nofun, by rw [h]⟩⟩)
      fun e he => ?_
    subst he
    have hheight := e.height_le_size
    have hleaves := e.leaves_le_size
    change 21 * (depSize basedep + 3 * e.size + 1) + 1 ≤ n at hn
    refine (exprTransform_of_height _ e le_rfl n (by omega)).mono fun e' ht => ?_
    have hsize : e'.size < 3 * e'.leaves := ht.normal.nnf.size_lt
    rw [ht.leaves] at hsize
    refine ⟨?_, fun x hx => Option.some.inj hx ▸ ht.normal.nnf, fun v => ⟨fun h x hx => ?_, ?_⟩⟩
    · change e'.size ≤ 3 * e.size
      omega
    · exact Option.some.inj hx ▸ ht.definite v (h e rfl)
    · exact ht.calcValue v
  refine htransform.bind fun dep' ⟨hsize, hnnf, hdep⟩ => ?_
  have hle := depSize_exprAlloc_le .and basedep dep'
  have hdefinite : ∀ v : Valuation S, DefiniteDep v basedep → DefiniteDep v dep →
      DefiniteDep v (exprAlloc .and basedep dep') := fun v hb hd =>
    exprAlloc_forall (fun _ _ h₁ h₂ => ⟨h₁, h₂⟩) hb ((hdep v).1 hd)
  have hvalue : ∀ v : Valuation S, depCalcValue v (exprAlloc .and basedep dep') =
      Junction.and.op (depCalcValue v basedep) (depCalcValue v dep) := fun v => by
    rw [depCalcValue_and, (hdep v).2]
  refine returns_mapM (fun h => ?_) fun e he => ?_
  · rw [h] at hvalue
    exact ⟨by simp [depSize], fun _ => nofun, fun _ _ _ => nofun, fun v _ _ => hvalue v⟩
  · rw [he] at hle hdefinite hvalue
    change e.size ≤ _ at hle
    have hleaves := e.leaves_le_size
    refine (exprEliminateDups_of_leaves (S := S) (N := e.size) (n := e.size) (by omega) le_rfl
      hleaves).mono fun e' hu => ?_
    have hall : ∀ P, Hereditary P → P e → ∀ x, some e' = some x → P x := fun P hP h x hx =>
      Option.some.inj hx ▸ hu.keep P hP h
    refine ⟨?_, fun hb => hall _ hereditary_nnf ?_, fun v hb hd => ?_, fun v hb hd => ?_⟩
    · change e'.size ≤ _
      have := hu.size
      omega
    · exact exprAlloc_forall (fun _ _ h₁ h₂ => ⟨h₁, h₂⟩) hb hnnf e he
    · exact hall _ (hereditary_definite v) (hdefinite v hb hd e rfl)
    · exact (hu.calcValue v (hdefinite v hb hd e rfl)).trans (hvalue v)

/-- A property of an entry holds where the menu it is in, the entry and the property itself do. -/
theorem propVisible_spec (S : Symbols σ) (sym : Option σ) (hp : ∀ e, parentdep = some e → e.Nnf)
    (dep visible : Option (Expr σ)) : ∃ n₀, ∀ n, n₀ ≤ n → ∃ basedep d,
      inheritDep S n parentdep dep = some basedep ∧
      propVisible S n sym basedep visible = some d ∧ (∀ e, d = some e → e.Nnf) ∧
      ∀ v : Valuation S, DefiniteDep v parentdep → DefiniteDep v dep → DefiniteDep v visible →
        (depCalcValue v d = .no ↔ depCalcValue v parentdep = .no ∨ depCalcValue v dep = .no ∨
          depCalcValue v visible = .no) := by
  have hno : ∀ a b c : Tristate, Junction.and.op (Junction.and.op a b) c = .no ↔
      a = .no ∨ b = .no ∨ c = .no := by decide
  refine ⟨21 * (depSize parentdep + 3 * depSize dep + 3 * depSize visible + 2) + 1,
    fun n hn => ?_⟩
  obtain ⟨basedep, hbase, hb⟩ : Returns (inheritDep S n parentdep dep) _ :=
    inheritDep_returns (by omega)
  obtain ⟨d, hd, hi⟩ : Returns (inheritDep S n basedep visible) _ :=
    inheritDep_returns (by have := hb.size; omega)
  have hnnf := hi.nnf (hb.nnf hp)
  have hvalue : ∀ v : Valuation S, DefiniteDep v parentdep → DefiniteDep v dep →
      DefiniteDep v visible → (depCalcValue v d = .no ↔ depCalcValue v parentdep = .no ∨
        depCalcValue v dep = .no ∨ depCalcValue v visible = .no) := fun v h₁ h₂ h₃ => by
    rw [hi.calcValue v (hb.definite v h₁ h₂) h₃, hb.calcValue v h₁ h₂, hno]
  refine ⟨basedep, _, hbase, by rw [propVisible, hd]; rfl, ?_⟩
  split_ifs with ht
  · -- A comparison of a tristate symbol with `n` is that symbol now.
    cases d with
    | none => exact ⟨nofun, hvalue⟩
    | some e =>
      refine ⟨fun x hx => Option.some.inj hx ▸ (hnnf e rfl).transBool, fun v h₁ h₂ h₃ => ?_⟩
      exact (exprCalcValue_transBool (hnnf e rfl) v).2.trans (hvalue v h₁ h₂ h₃)
  · exact ⟨hnnf, hvalue⟩

/-- A prompt of `B` with `if A!=n`, in a menu that is there for `A`. -/
theorem propVisible_twoTristates : ∃ n₀, ∀ n, n₀ ≤ n → ∃ basedep d,
    inheritDep twoTristates n (some (.symbol (.other false))) none = some basedep ∧
    propVisible twoTristates n (some true) basedep (some (.comp .unequal (.other false) .no)) =
      some d ∧ (∀ e, d = some e → e.Nnf) ∧
    ∀ v : Valuation twoTristates, DefiniteDep v (some (.symbol (.other false))) →
      DefiniteDep v none → DefiniteDep v (some (.comp .unequal (.other false) .no)) →
      (depCalcValue v d = .no ↔ depCalcValue v (some (.symbol (.other false))) = .no ∨
        depCalcValue v none = .no ∨
        depCalcValue v (some (.comp .unequal (.other false) .no)) = .no) := by
  have hp : ∀ e : Expr Bool, some (.symbol (.other false)) = some e → e.Nnf := fun e he =>
    Option.some.inj he ▸ trivial
  exact propVisible_spec twoTristates (some true) hp none
    (some (.comp .unequal (.other false) .no))

end Inherit

/-! ## Menus -/

/-- What `menu_finalize` reads of an entry : `sym`, the expression that `prompt` is visible for, and
`dep`. The expressions are what its first loop leaves. -/
structure MenuEntry (σ : Type) where
  sym : Option σ
  prompt : Option (Option (Expr σ))
  dep : Option (Expr σ)

/-- `basedep`, before it is simplified. -/
def MenuEntry.basedep (e : MenuEntry σ) : Option (Expr σ) := e.prompt.join

/-- `dep`, before it is simplified. -/
def MenuEntry.visible (e : MenuEntry σ) : Option (Expr σ) := e.prompt.getD e.dep

/-- A pointer to an entry with its `list` and its `next`, which may be `NULL`. -/
inductive Menu (σ : Type)
  | null
  | cons (entry : MenuEntry σ) (list next : Menu σ)

namespace Menu

/-- The entries in the order of the Kconfig files. -/
def entries : Menu σ → List (MenuEntry σ)
  | null => []
  | cons e list next => e :: (list.entries ++ next.entries)

/-- The entries of a list, without those below them. -/
def heads : Menu σ → List (MenuEntry σ)
  | null => []
  | cons e _ next => e :: next.heads

/-- The entries with those directly below them. -/
def children : Menu σ → List (MenuEntry σ × MenuEntry σ)
  | null => []
  | cons e list next => list.heads.map (e, ·) ++ list.children ++ next.children

end Menu

section Code

variable [DecidableEq σ] (S : Symbols σ) (n : ℕ)

/-- A dependency made boolean and simplified. -/
def menuDep (dep : Option (Expr σ)) : Option (Expr σ) := do
  let dep ← exprTransform S n (depTransCompare .no .unequal dep)
  exprEliminateDups S n dep

/-- The conditions of the second loop : whether an entry goes below the symbol. -/
def goesBelow (s : σ) (basedep : Expr σ) (e : MenuEntry σ) : Option Bool :=
  if e.visible.any (exprContainsSymbol (.other s)) = false then pure false
  else if e.visible.any (exprDependsSymbol (.other s)) = true then pure true
  else do
    let dep ← menuDep S n e.visible
    let r ← exprEliminateEq S n dep basedep
    -- expr_is_yes(dep2)
    pure (r.2 = .symbol .yes)

mutual

/-- `menu_finalize` of an entry : its `list` and its `next` afterwards. -/
def menuFinalize : ℕ → MenuEntry σ → Menu σ → Menu σ → Option (Menu σ × Menu σ)
  | 0, _, _, _ => none
  | fuel + 1, _, .cons e' list' next', next => do
    let list ← finalizeMenus fuel (.cons e' list' next')
    pure (list, next)
  | fuel + 1, e, .null, next =>
    match e.sym with
    | none => pure (.null, next)
    | some s => do
      let basedep ← menuDep S n e.basedep
      takeMenus fuel s basedep next

/-- `menu_finalize` of the entries of a list. -/
def finalizeMenus : ℕ → Menu σ → Option (Menu σ)
  | 0, _ => none
  | _ + 1, .null => pure .null
  | fuel + 1, .cons e list next => do
    let r ← menuFinalize fuel e list next
    let next ← finalizeMenus fuel r.2
    pure (.cons e r.1 next)

/-- The second loop of `menu_finalize` : the entries that go below the symbol, and the others. -/
def takeMenus : ℕ → σ → Expr σ → Menu σ → Option (Menu σ × Menu σ)
  | 0, _, _, _ => none
  | _ + 1, _, _, .null => pure (.null, .null)
  | fuel + 1, s, basedep, .cons e list next => do
    let below ← goesBelow S n s basedep e
    if below then do
      let r ← menuFinalize fuel e list next
      let taken ← takeMenus fuel s basedep r.2
      pure (.cons e r.1 taken.1, taken.2)
    else pure (.null, .cons e list next)

end

end Code

/-! ## What goes below a symbol -/

section Below

variable {S : Symbols σ} {v : Valuation S} {dep : Option (Expr σ)} {e basedep : Expr σ}
variable {p c : MenuEntry σ} {s : σ} {n N : ℕ}

/-- No symbol of a dependency is `m`, and the symbols that are operands have values. -/
def Sure (v : Valuation S) (dep : Option (Expr σ)) : Prop :=
  ∀ e, dep = some e → e.Definite v ∧ e.Logical S

theorem Expr.Definite.not (h : e.Definite v) : e.DefiniteNot v := by
  induction e with
  | symbol | comp => trivial
  | not e ih => exact ⟨Expr.Definite.calcValue (e := e) h, ih h⟩
  | two t e₁ e₂ ih₁ ih₂ => exact ⟨ih₁ h.1, ih₂ h.2⟩

theorem Expr.Definite.transCompare (h : e.Definite v) (type : Comparison) :
    (exprTransCompare .no e type).Definite v := by
  induction e generalizing type with
  | symbol => trivial
  | comp => cases type <;> trivial
  | not e ih => exact ih h _
  | two t e₁ e₂ ih₁ ih₂ => cases type <;> exact ⟨ih₁ h.1 _, ih₂ h.2 _⟩

/-- What `expr_trans_compare` makes of a dependency is `n` where that is, and `y` elsewhere. -/
theorem Sure.transCompare (h : Sure v dep) :
    (depTransCompare .no .unequal dep).Definite v ∧
      exprCalcValue v (depTransCompare .no .unequal dep) =
        Comparison.unequal.holds (depCalcValue v dep) .no := by
  cases dep with
  | none => exact ⟨nofun, rfl⟩
  | some e =>
    obtain ⟨hd, hl⟩ := h e rfl
    exact ⟨hd.transCompare _, exprCalcValue_transCompare hd.not hl (by decide) _⟩

variable [DecidableEq σ]

theorem menuDep_returns (hN : (depTransCompare .no .unequal dep).size ≤ N)
    (hn : 61 * N + 1 ≤ n) : Returns (menuDep S n dep) fun e => e.size ≤ 3 * N ∧
      ∀ v : Valuation S, Sure v dep →
        exprCalcValue v e = Comparison.unequal.holds (depCalcValue v dep) .no := by
  have hheight := (depTransCompare .no .unequal dep).height_le_size
  have hleaves := (depTransCompare .no .unequal dep).leaves_le_size
  refine (exprTransform_of_height _ _ le_rfl n (by omega)).bind fun e ht => ?_
  have hsize : e.size < 3 * e.leaves := ht.normal.nnf.size_lt
  have heq := ht.leaves
  have hdups : Returns (exprEliminateDups S n e) (Undoubled S e) :=
    exprEliminateDups_of_leaves (N := 3 * N) (n := N) (by omega) (by omega) (by omega)
  refine hdups.mono fun e' hu => ⟨by have := hu.size; omega, fun v hv => ?_⟩
  obtain ⟨hd, hval⟩ := hv.transCompare
  rw [hu.calcValue v (ht.definite v hd), ht.calcValue v, hval]

/-- An entry with the symbol in its dependency, which is visible only where the symbol above it is
not `n`, or that symbol is visible. -/
structure Below (S : Symbols σ) (p c : MenuEntry σ) (s : σ) : Prop where
  sym : p.sym = some s
  contains : c.visible.any (exprContainsSymbol (.other s)) = true
  visible : ∀ v : Valuation S, (Symbol.other s).Logical S → Sure v p.basedep → Sure v c.visible →
    depCalcValue v c.visible ≠ .no →
      v.symTri (.other s) ≠ .no ∨ depCalcValue v p.basedep ≠ .no

theorem goesBelow_returns (hs : p.sym = some s)
    (hN : (depTransCompare .no .unequal c.visible).size ≤ N) (hn : 61 * N + 1 ≤ n)
    (hb : basedep.size ≤ 3 * N) (hval : ∀ v : Valuation S, Sure v p.basedep →
      exprCalcValue v basedep = Comparison.unequal.holds (depCalcValue v p.basedep) .no) :
    Returns (goesBelow S n s basedep c) fun b => b = true → Below S p c s := by
  have hno : ∀ a : Tristate, Comparison.unequal.holds a .no = .yes ↔ a ≠ .no := by decide
  unfold goesBelow
  split_ifs with hcont hdep
  · simp
  · refine returns_pure.mpr fun _ => ⟨hs, by simpa using hcont, fun v hl _ _ hne => .inl ?_⟩
    cases hvis : c.visible with
    | none => simp [hvis] at hdep
    | some e =>
      rw [hvis] at hdep hne
      exact symTri_ne_no_of_depends hdep hl hne
  · refine (menuDep_returns hN hn).bind fun dep ⟨hsize, hdval⟩ => ?_
    refine (exprEliminateEq_of_size (S := S) le_rfl (by omega)).bind fun r hr => ?_
    refine returns_pure.mpr fun hyes => ⟨hs, by simpa using hcont, fun v _ hp hc hne => .inr ?_⟩
    have hle : exprCalcValue v r.1 ≤ exprCalcValue v r.2 := by
      rw [of_decide_eq_true hyes]
      exact le_top
    have horder := (hr v).1 hle
    rw [hdval v hc, hval v hp, (hno _).mpr hne] at horder
    exact (hno _).mp (top_le_iff.mp horder)

end Below

/-! ## The entries afterwards -/

section Entries

variable [DecidableEq σ] {S : Symbols σ} {n N fuel : ℕ}

/-- The dependencies of an entry are no larger than that. -/
def MenuEntry.Within (N : ℕ) (e : MenuEntry σ) : Prop :=
  (depTransCompare .no .unequal e.visible).size ≤ N ∧
    (depTransCompare .no .unequal e.basedep).size ≤ N

omit [DecidableEq σ] in
theorem exists_within (l : List (MenuEntry σ)) : ∃ N, ∀ e ∈ l, e.Within N := by
  induction l with
  | nil => exact ⟨0, by simp⟩
  | cons e l ih =>
    obtain ⟨N, hN⟩ := ih
    refine ⟨N + (depTransCompare .no .unequal e.visible).size +
      (depTransCompare .no .unequal e.basedep).size, List.forall_mem_cons.mpr ⟨?_, fun x hx => ?_⟩⟩
    · exact ⟨by omega, by omega⟩
    · obtain ⟨h₁, h₂⟩ := hN x hx
      exact ⟨by omega, by omega⟩

/-- The entries that have been put below another have been put below a symbol. -/
def Explained (S : Symbols σ) (old new : List (MenuEntry σ × MenuEntry σ)) : Prop :=
  ∀ p c, (p, c) ∈ new → (p, c) ∈ old ∨ ∃ s, Below S p c s

namespace Explained

variable {l l' l'' : List (MenuEntry σ × MenuEntry σ)}

theorem refl (l : List (MenuEntry σ × MenuEntry σ)) : Explained S l l := fun _ _ h => .inl h

theorem trans (h : Explained S l l') (h' : Explained S l' l'') : Explained S l l'' :=
  fun p c hc => (h' p c hc).elim (h p c) .inr

theorem append (h : Explained S l l') (k : List (MenuEntry σ × MenuEntry σ)) :
    Explained S (k ++ l) (k ++ l') := fun p c hc => by
  rcases List.mem_append.mp hc with hc | hc
  · exact .inl (List.mem_append_left _ hc)
  · exact (h p c hc).imp_left (List.mem_append_right _)

end Explained

/-- What `menu_finalize` makes of a list. -/
structure Regrouped (S : Symbols σ) (m m' : Menu σ) : Prop where
  entries : m'.entries = m.entries
  heads : ∀ e ∈ m'.heads, e ∈ m.heads
  children : Explained S m.children m'.children

/-- What it makes of an entry. -/
structure Finalized (S : Symbols σ) (p : MenuEntry σ) (list next : Menu σ)
    (r : Menu σ × Menu σ) : Prop where
  entries : r.1.entries ++ r.2.entries = list.entries ++ next.entries
  heads : ∀ e ∈ r.2.heads, e ∈ next.heads
  children : Explained S (Menu.cons p list next).children (Menu.cons p r.1 r.2).children

/-- What its second loop takes of a list. -/
structure Taken (S : Symbols σ) (p : MenuEntry σ) (s : σ) (m : Menu σ)
    (r : Menu σ × Menu σ) : Prop where
  entries : r.1.entries ++ r.2.entries = m.entries
  heads : ∀ e ∈ r.2.heads, e ∈ m.heads
  below : ∀ e ∈ r.1.heads, Below S p e s
  children : Explained S m.children (r.1.children ++ r.2.children)

variable (S n N)

def Finalizes (fuel : ℕ) : Prop := ∀ p list next,
  (∀ e ∈ p :: (list.entries ++ next.entries), e.Within N) →
  2 * (list.entries ++ next.entries).length + 2 ≤ fuel →
  Returns (menuFinalize S n fuel p list next) (Finalized S p list next)

def Regroups (fuel : ℕ) : Prop := ∀ m : Menu σ, (∀ e ∈ m.entries, e.Within N) →
  2 * m.entries.length + 1 ≤ fuel → Returns (finalizeMenus S n fuel m) (Regrouped S m)

def Takes (fuel : ℕ) : Prop := ∀ (p : MenuEntry σ) (s : σ) (basedep : Expr σ) (m : Menu σ),
  p.sym = some s → basedep.size ≤ 3 * N →
  (∀ v : Valuation S, Sure v p.basedep →
    exprCalcValue v basedep = Comparison.unequal.holds (depCalcValue v p.basedep) .no) →
  (∀ e ∈ m.entries, e.Within N) → 2 * m.entries.length + 1 ≤ fuel →
  Returns (takeMenus S n fuel s basedep m) (Taken S p s m)

variable {S n N}

/-- An entry that has a list already keeps it, and the list is gone through. -/
theorem Finalizes.step (hn : 61 * N + 1 ≤ n) (hmenus : Regroups S n N fuel)
    (htake : Takes S n N fuel) : Finalizes S n N (fuel + 1) := by
  intro p list next hN hf
  rw [List.length_append] at hf
  cases list with
  | cons e' list' next' =>
    refine (hmenus (.cons e' list' next') (fun e he => hN e ?_) (by omega)).bind
      fun list hl => returns_pure.mpr ⟨by rw [hl.entries], fun _ h => h, fun q c hc => ?_⟩
    · exact List.mem_cons_of_mem _ (List.mem_append_left _ he)
    rw [Menu.children, List.mem_append, List.mem_append] at hc ⊢
    rcases hc with (hc | hc) | hc
    · obtain ⟨x, hx, heq⟩ := List.mem_map.mp hc
      exact .inl (.inl (.inl (List.mem_map.mpr ⟨x, hl.heads x hx, heq⟩)))
    · exact (hl.children q c hc).imp_left fun h => .inl (.inr h)
    · exact .inl (.inr hc)
  | null =>
    rw [menuFinalize]
    split
    · exact returns_pure.mpr ⟨rfl, fun _ h => h, .refl _⟩
    · rename_i s hs
      refine (menuDep_returns (hN p List.mem_cons_self).2 hn).bind fun basedep ⟨hb, hval⟩ =>
        (htake p s basedep next hs hb hval
          (fun e he => hN e (List.mem_cons_of_mem _ (List.mem_append_right _ he)))
          (by omega)).mono fun r hr => ⟨hr.entries, hr.heads, fun q c hc => ?_⟩
      rw [Menu.children, List.append_assoc, List.mem_append] at hc
      rcases hc with hc | hc
      · obtain ⟨x, hx, heq⟩ := List.mem_map.mp hc
        obtain ⟨rfl, rfl⟩ := Prod.mk.inj heq
        exact .inr ⟨s, hr.below x hx⟩
      · exact hr.children q c hc

/-- What is left behind an entry is no more than there was. -/
theorem Finalized.rest {p : MenuEntry σ} {list next : Menu σ} {r : Menu σ × Menu σ}
    (h : Finalized S p list next r) (hN : ∀ e ∈ (Menu.cons p list next).entries, e.Within N) :
    (∀ e ∈ r.2.entries, e.Within N) ∧
      r.2.entries.length + 1 ≤ (Menu.cons p list next).entries.length := by
  rw [Menu.entries, ← h.entries] at hN ⊢
  refine ⟨fun e he => hN e (List.mem_cons_of_mem _ (List.mem_append_right _ he)), ?_⟩
  rw [List.length_cons, List.length_append]
  omega

theorem Regroups.step (hentry : Finalizes S n N fuel) (hmenus : Regroups S n N fuel) :
    Regroups S n N (fuel + 1) := by
  intro m hN hf
  cases m with
  | null => exact returns_pure.mpr ⟨rfl, fun _ h => h, .refl _⟩
  | cons p list next =>
    have hfuel : 2 * (list.entries ++ next.entries).length + 2 ≤ fuel := by
      rw [Menu.entries, List.length_cons] at hf
      omega
    refine (hentry p list next hN hfuel).bind fun r hr => ?_
    obtain ⟨hN', hlen⟩ := hr.rest hN
    refine (hmenus r.2 hN' (by omega)).bind fun next' hnext => returns_pure.mpr ⟨?_, ?_, ?_⟩
    · rw [Menu.entries, Menu.entries, hnext.entries, hr.entries]
    · intro e he
      rcases List.mem_cons.mp he with rfl | he
      · exact List.mem_cons_self
      · exact List.mem_cons_of_mem _ (hr.heads e (hnext.heads e he))
    · exact hr.children.trans (hnext.children.append _)

theorem Takes.step (hn : 61 * N + 1 ≤ n) (hentry : Finalizes S n N fuel)
    (htake : Takes S n N fuel) : Takes S n N (fuel + 1) := by
  intro p s basedep m hs hb hval hN hf
  cases m with
  | null => exact returns_pure.mpr ⟨rfl, fun _ h => h, nofun, .refl _⟩
  | cons e list next =>
    refine (goesBelow_returns hs (hN e List.mem_cons_self).1 hn hb hval).bind
      fun below hbelow => ?_
    cases below with
    | false => exact returns_pure.mpr ⟨rfl, fun _ h => h, nofun, .refl _⟩
    | true =>
      have hfuel : 2 * (list.entries ++ next.entries).length + 2 ≤ fuel := by
        rw [Menu.entries, List.length_cons] at hf
        omega
      refine (hentry e list next hN hfuel).bind fun r hr => ?_
      obtain ⟨hN', hlen⟩ := hr.rest hN
      refine (htake p s basedep r.2 hs hb hval hN' (by omega)).bind fun t ht =>
        returns_pure.mpr ⟨?_, fun x hx => ?_, List.forall_mem_cons.mpr ⟨hbelow rfl, ht.below⟩, ?_⟩
      · rw [Menu.entries, Menu.entries, List.cons_append, List.append_assoc, ht.entries,
          hr.entries]
      · exact List.mem_cons_of_mem _ (hr.heads x (ht.heads x hx))
      · have hchildren := hr.children.trans (ht.children.append _)
        rwa [← List.append_assoc] at hchildren

/-- With fuel for all entries, everything comes to an end. -/
theorem menus_of_fuel (hn : 61 * N + 1 ≤ n) (fuel : ℕ) :
    Finalizes S n N fuel ∧ Regroups S n N fuel ∧ Takes S n N fuel := by
  induction fuel with
  | zero =>
    exact ⟨fun _ _ _ _ h => by simp at h, fun _ _ h => by simp at h,
      fun _ _ _ _ _ _ _ _ h => by simp at h⟩
  | succ fuel ih =>
    obtain ⟨hentry, hmenus, htake⟩ := ih
    exact ⟨.step hn hmenus htake, .step hentry hmenus, .step hn hentry htake⟩

-- Of `A`, `B` which depends on `A`, and a comment, `B` goes below `A`.
example : (finalizeMenus twoTristates 200 200
    (.cons ⟨some false, some none, none⟩ .null
      (.cons ⟨some true, some (some (.symbol (.other false))), none⟩ .null
        (.cons ⟨none, some none, none⟩ .null .null)))).map
      (fun m => (m.heads.map (·.sym), m.children.map fun c => (c.1.sym, c.2.sym))) =
    some ([some false, none], [(some false, some true)]) := by
  decide +kernel

end Entries

end Makeroot
