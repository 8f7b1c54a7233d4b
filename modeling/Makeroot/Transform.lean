import Makeroot.Expr
import Makeroot.Fuel

/-!
# Simplified expressions

`expr_transform` takes each `!` down to a symbol and writes a comparison of a boolean symbol as
that symbol ; `expr_eliminate_yn` takes out the operands `y` and `n`. Neither changes the value,
whatever the symbols are (`exprTransform_spec`, `exprCalcValue_eliminateYn`). `expr_trans_bool`
makes a comparison of a tristate symbol that symbol, which is the same only as far as an
expression without a `!` above a comparison is `n` or not.
-/

namespace Makeroot

open GnuMake DeMorgan Fuel

variable {σ : Type*}

/-! ## expr_eliminate_yn -/

/-- The operand of a junction that makes no difference. -/
def unitSymbol (t : Junction) : Symbol σ :=
  match t with
  | .or => .no
  | .and => .yes

/-- `y` or `n`. -/
def Expr.IsYn (e : Expr σ) : Prop := ∃ t, e = .symbol (unitSymbol t)

/-- No operand of a junction is `y` or `n`. -/
def Expr.Reduced : Expr σ → Prop
  | .two _ e₁ e₂ => (e₁.Reduced ∧ e₂.Reduced) ∧ ¬e₁.IsYn ∧ ¬e₂.IsYn
  | _ => True

/-- The symbols and comparisons of an expression. -/
def Expr.leaves : Expr σ → ℕ
  | .symbol _ | .comp .. => 1
  | .not e => e.leaves
  | .two _ e₁ e₂ => e₁.leaves + e₂.leaves

section Yn

variable {S : Symbols σ} {v : Valuation S} {t : Junction} {e e₁ e₂ left right : Expr σ}

theorem Expr.leaves_pos (e : Expr σ) : 0 < e.leaves := by
  induction e with
  | symbol | comp => exact Nat.one_pos
  | not e ih => exact ih
  | two t e₁ e₂ ih₁ ih₂ => exact Nat.add_pos_left ih₁ _

@[simp] theorem symTri_unitSymbol (v : Valuation S) (t : Junction) :
    v.symTri (unitSymbol t) = t.unit := by
  cases t <;> rfl

theorem reduced_unitSymbol (t : Junction) : (Expr.symbol (unitSymbol t) : Expr σ).Reduced := trivial

theorem Expr.IsYn.leaves (h : e.IsYn) : e.leaves = 1 := by
  obtain ⟨t, rfl⟩ := h
  rfl

variable [DecidableEq σ]

/-- `expr_eliminate_yn` at a junction, once it has been through the operands. -/
def eliminateYnTwo (type : Junction) (left right : Expr σ) : Expr σ :=
  if left = .symbol (unitSymbol type.dual) then .symbol (unitSymbol type.dual)
  else if left = .symbol (unitSymbol type) then right
  else if right = .symbol (unitSymbol type.dual) then .symbol (unitSymbol type.dual)
  else if right = .symbol (unitSymbol type) then left
  else .two type left right

/-- `expr_eliminate_yn`. -/
def exprEliminateYn : Expr σ → Expr σ
  | .two type e₁ e₂ => eliminateYnTwo type (exprEliminateYn e₁) (exprEliminateYn e₂)
  | e => e

theorem eliminateYnTwo_cases (t : Junction) (left right : Expr σ) :
    (eliminateYnTwo t left right = .symbol (unitSymbol t.dual) ∧
      (left = .symbol (unitSymbol t.dual) ∨ right = .symbol (unitSymbol t.dual))) ∨
    (eliminateYnTwo t left right = right ∧ left = .symbol (unitSymbol t)) ∨
    (eliminateYnTwo t left right = left ∧ right = .symbol (unitSymbol t)) ∨
    eliminateYnTwo t left right = .two t left right ∧ ¬left.IsYn ∧ ¬right.IsYn := by
  have hyn : ∀ e : Expr σ, e ≠ .symbol (unitSymbol t.dual) → e ≠ .symbol (unitSymbol t) →
      ¬e.IsYn := by
    rintro e hz hu ⟨t', rfl⟩
    by_cases ht : t' = t
    · exact hu (ht ▸ rfl)
    · exact hz (Junction.eq_dual_of_ne ht ▸ rfl)
  rw [eliminateYnTwo]
  split_ifs with hz₁ hu₁ hz₂ hu₂
  · exact .inl ⟨rfl, .inl hz₁⟩
  · exact .inr (.inl ⟨rfl, hu₁⟩)
  · exact .inl ⟨rfl, .inr hz₂⟩
  · exact .inr (.inr (.inl ⟨rfl, hu₂⟩))
  · exact .inr (.inr (.inr ⟨rfl, hyn _ hz₁ hu₁, hyn _ hz₂ hu₂⟩))

theorem exprCalcValue_eliminateYnTwo :
    exprCalcValue v (eliminateYnTwo t left right) =
      t.op (exprCalcValue v left) (exprCalcValue v right) := by
  rcases eliminateYnTwo_cases t left right with ⟨h, rfl | rfl⟩ | ⟨h, rfl⟩ | ⟨h, rfl⟩ | ⟨h, -⟩ <;>
    rw [h] <;> simp

/-- Nothing changes in value without the operands `y` and `n`. -/
theorem exprCalcValue_eliminateYn (v : Valuation S) (e : Expr σ) :
    exprCalcValue v (exprEliminateYn e) = exprCalcValue v e := by
  induction e with
  | two t e₁ e₂ ih₁ ih₂ =>
    rw [exprEliminateYn, exprCalcValue_eliminateYnTwo, ih₁, ih₂, exprCalcValue_two]
  | _ => rfl

theorem reduced_eliminateYn (e : Expr σ) : (exprEliminateYn e).Reduced := by
  induction e with
  | two t e₁ e₂ ih₁ ih₂ =>
    rw [exprEliminateYn]
    rcases eliminateYnTwo_cases t (exprEliminateYn e₁) (exprEliminateYn e₂) with
      ⟨h, -⟩ | ⟨h, -⟩ | ⟨h, -⟩ | ⟨h, hyn⟩ <;> rw [h]
    · exact reduced_unitSymbol _
    · exact ih₂
    · exact ih₁
    · exact ⟨⟨ih₁, ih₂⟩, hyn⟩
  | _ => trivial

/-- Nothing is left to do for `expr_eliminate_yn` after it. -/
theorem Expr.Reduced.eliminateYn (h : e.Reduced) : exprEliminateYn e = e := by
  induction e with
  | two t e₁ e₂ ih₁ ih₂ =>
    obtain ⟨⟨h₁, h₂⟩, hy₁, hy₂⟩ := h
    rw [exprEliminateYn, ih₁ h₁, ih₂ h₂]
    rcases eliminateYnTwo_cases t e₁ e₂ with ⟨-, h | h⟩ | ⟨-, h⟩ | ⟨-, h⟩ | ⟨h, -⟩
    · exact absurd ⟨_, h⟩ hy₁
    · exact absurd ⟨_, h⟩ hy₂
    · exact absurd ⟨_, h⟩ hy₁
    · exact absurd ⟨_, h⟩ hy₂
    · exact h
  | _ => rfl

theorem leaves_eliminateYnTwo (t : Junction) (left right : Expr σ) :
    (eliminateYnTwo t left right).leaves ≤ left.leaves + right.leaves ∧
      (left.IsYn ∨ right.IsYn →
        (eliminateYnTwo t left right).leaves < left.leaves + right.leaves) := by
  have hl := left.leaves_pos
  have hr := right.leaves_pos
  have hone : ∀ t, (Expr.symbol (unitSymbol t) : Expr σ).leaves = 1 := fun _ => rfl
  rcases eliminateYnTwo_cases t left right with ⟨h, -⟩ | ⟨h, -⟩ | ⟨h, -⟩ | ⟨h, hy₁, hy₂⟩ <;> rw [h]
  · rw [hone]
    exact ⟨by omega, fun _ => by omega⟩
  · exact ⟨by omega, fun _ => by omega⟩
  · exact ⟨by omega, fun _ => by omega⟩
  · exact ⟨le_rfl, fun hyn => absurd hyn (by simp [hy₁, hy₂])⟩

theorem leaves_eliminateYn_le (e : Expr σ) : (exprEliminateYn e).leaves ≤ e.leaves := by
  induction e with
  | two t e₁ e₂ ih₁ ih₂ =>
    exact (leaves_eliminateYnTwo ..).1.trans (Nat.add_le_add ih₁ ih₂)
  | _ => exact le_rfl

/-- With an operand `y` or `n` there was more before. -/
theorem leaves_eliminateYn_lt (h : ¬e.Reduced) : (exprEliminateYn e).leaves < e.leaves := by
  induction e with
  | two t e₁ e₂ ih₁ ih₂ =>
    have hle₁ := leaves_eliminateYn_le e₁
    have hle₂ := leaves_eliminateYn_le e₂
    obtain ⟨hle, hlt⟩ := leaves_eliminateYnTwo t (exprEliminateYn e₁) (exprEliminateYn e₂)
    rw [exprEliminateYn, Expr.leaves]
    by_cases h₁ : e₁.Reduced
    · by_cases h₂ : e₂.Reduced
      · rw [h₁.eliminateYn, h₂.eliminateYn] at hlt ⊢
        refine hlt ?_
        by_contra hyn
        exact h ⟨⟨h₁, h₂⟩, not_or.mp hyn⟩
      · have := ih₂ h₂
        omega
    · have := ih₁ h₁
      omega
  | _ => exact absurd trivial h

end Yn

/-! ## expr_transform -/

section Transform

variable (S : Symbols σ)

/-- `expr_transform` of a comparison : one of a boolean symbol is that symbol. -/
def transformComp (type : Comparison) (sym₁ sym₂ : Symbol σ) : Expr σ :=
  if sym₁.type S ≠ .boolean then .comp type sym₁ sym₂
  else
    match type, sym₂ with
    | .equal, .no => .not (.symbol sym₁)
    | .equal, .mod => .symbol .no
    | .equal, .yes => .symbol sym₁
    | .unequal, .no => .symbol sym₁
    | .unequal, .mod => .symbol .yes
    | .unequal, .yes => .not (.symbol sym₁)
    | _, .other _ => .comp type sym₁ sym₂

/-- `expr_transform`. -/
def exprTransform : ℕ → Expr σ → Option (Expr σ)
  | 0, _ => none
  | _ + 1, .symbol sym => pure (.symbol sym)
  | _ + 1, .comp type sym₁ sym₂ => pure (transformComp S type sym₁ sym₂)
  | fuel + 1, .two type e₁ e₂ => do
    let left ← exprTransform fuel e₁
    let right ← exprTransform fuel e₂
    pure (.two type left right)
  | fuel + 1, .not e => do
    match ← exprTransform fuel e with
    | .not e₁ => exprTransform fuel e₁
    | .comp type sym₁ sym₂ => pure (.comp type.other sym₁ sym₂)
    -- a junction of complements is gone through once more
    | .two type e₁ e₂ => exprTransform fuel (.two type.dual (.not e₁) (.not e₂))
    | .symbol .yes => pure (.symbol .no)
    | .symbol .mod => pure (.symbol .mod)
    | .symbol .no => pure (.symbol .yes)
    | .symbol (.other s) => pure (.not (.symbol (.other s)))

/-- What `expr_transform` leaves : `!` stands before symbols of the table only, and no boolean
symbol is compared with `y`, `m` or `n`. -/
def Expr.Normal : Expr σ → Prop
  | .symbol _ => True
  | .not e => ∃ s, e = .symbol (.other s)
  | .comp _ sym₁ sym₂ => sym₁.type S = .boolean → ∃ s, sym₂ = .other s
  | .two _ e₁ e₂ => e₁.Normal ∧ e₂.Normal

variable {S}

/-- `!` stands before symbols only. -/
def Expr.Nnf : Expr σ → Prop
  | .not e => ∃ sym, e = .symbol sym
  | .two _ e₁ e₂ => e₁.Nnf ∧ e₂.Nnf
  | _ => True

theorem Expr.Normal.nnf {e : Expr σ} (h : e.Normal S) : e.Nnf := by
  induction e with
  | symbol | comp => trivial
  | not e =>
    obtain ⟨s, rfl⟩ := h
    exact ⟨_, rfl⟩
  | two t e₁ e₂ ih₁ ih₂ => exact ⟨ih₁ h.1, ih₂ h.2⟩

/-- No symbol of the expression is `m`. -/
def Expr.Definite (v : Valuation S) : Expr σ → Prop
  | .symbol sym => v.symTri sym ≠ .mod
  | .not e => e.Definite v
  | .comp .. => True
  | .two _ e₁ e₂ => e₁.Definite v ∧ e₂.Definite v

theorem Expr.Definite.calcValue {v : Valuation S} {e : Expr σ} (h : e.Definite v) :
    exprCalcValue v e ≠ .mod := by
  induction e with
  | symbol sym => exact h
  | not e ih => exact Tristate.eNot_ne_mod (ih h)
  | comp type sym₁ sym₂ => exact exprCalcValue_comp_ne_mod type sym₁ sym₂
  | two t e₁ e₂ ih₁ ih₂ =>
    rw [exprCalcValue_two]
    exact Tristate.op_ne_mod t (ih₁ h.1) (ih₂ h.2)

/-- How deep an expression is, if `!` before a symbol is no deeper than a comparison. -/
def Expr.height : Expr σ → ℕ
  | .symbol _ => 0
  | .comp .. => 1
  | .not e => e.height + 1
  | .two _ e₁ e₂ => max e₁.height e₂.height + 1

/-- `e'` is the expression `e`, transformed. -/
structure Transformed (S : Symbols σ) (e e' : Expr σ) : Prop where
  height : e'.height ≤ e.height
  leaves : e'.leaves = e.leaves
  normal : e'.Normal S
  calcValue : ∀ v : Valuation S, exprCalcValue v e' = exprCalcValue v e
  definite : ∀ v : Valuation S, e.Definite v → e'.Definite v

variable {t : Junction} {e e₁ e₂ e' : Expr σ} {fuel : ℕ}

/-- What a comparison of a boolean symbol with `y`, `m` or `n` becomes : that symbol, its
complement, or a constant. -/
inductive Decided (S : Symbols σ) (s : σ) : Expr σ → Prop
  | symbol : Decided S s (.symbol (.other s))
  | not : Decided S s (.not (.symbol (.other s)))
  | const (t : Junction) : Decided S s (.symbol (unitSymbol t))

/-- A decided comparison has the form that is wanted. -/
theorem Decided.transformed {s : σ} {type : Comparison} {sym : Symbol σ} (hd : Decided S s e)
    (hb : S.type s = .boolean)
    (hv : ∀ v : Valuation S, exprCalcValue v e = exprCalcValue v (.comp type (.other s) sym)) :
    Transformed S (.comp type (.other s) sym) e := by
  have hdef : ∀ v : Valuation S, v.tri s ≠ .mod := fun v => v.boolean s hb
  cases hd with
  | symbol => exact ⟨Nat.zero_le _, rfl, trivial, hv, fun v _ => hdef v⟩
  | not => exact ⟨le_rfl, rfl, ⟨s, rfl⟩, hv, fun v _ => hdef v⟩
  | const t =>
    refine ⟨Nat.zero_le _, rfl, trivial, hv, fun v _ => ?_⟩
    cases t <;> simp [unitSymbol, Expr.Definite, Valuation.symTri]

theorem decided_transformComp {s : σ} (hb : S.type s = .boolean) (type : Comparison)
    (a : Tristate) : Decided S s (transformComp S type (.other s) a.symbol) := by
  cases type <;> cases a <;> simp only [transformComp, Symbol.type, hb, Tristate.symbol]
  · exact .not
  · exact .const .or
  · exact .symbol
  · exact .symbol
  · exact .const .and
  · exact .not

/-- A boolean symbol is `y` or `n`, so that a comparison with one of them tells which. -/
theorem exprCalcValue_transformComp {s : σ} (hb : S.type s = .boolean) (type : Comparison)
    (a : Tristate) (v : Valuation S) :
    exprCalcValue v (transformComp S type (.other s) a.symbol) =
      exprCalcValue v (.comp type (.other s) a.symbol) := by
  have hne : v.tri s ≠ .mod := v.boolean s hb
  have hl : (Symbol.other s).Logical S := .inl hb
  rw [exprCalcValue_comp hl]
  cases type <;> cases a <;> cases htri : v.tri s <;>
    simp_all [transformComp, Symbol.type, Tristate.symbol, Valuation.symTri, Tristate.eNot,
      Comparison.holds]

theorem transformed_comp (type : Comparison) (sym₁ sym₂ : Symbol σ) :
    Transformed S (.comp type sym₁ sym₂) (transformComp S type sym₁ sym₂) := by
  have hsame : transformComp S type sym₁ sym₂ = .comp type sym₁ sym₂ →
      (sym₁.type S = .boolean → ∃ s, sym₂ = .other s) →
      Transformed S (.comp type sym₁ sym₂) (transformComp S type sym₁ sym₂) := fun heq h => by
    rw [heq]
    exact ⟨le_rfl, rfl, h, fun _ => rfl, fun _ hd => hd⟩
  by_cases hb : sym₁.type S = .boolean
  · cases sym₁ with
    | other s =>
      have hletter : ∀ a : Tristate, Transformed S (.comp type (.other s) a.symbol)
          (transformComp S type (.other s) a.symbol) := fun a =>
        (decided_transformComp hb type a).transformed hb (exprCalcValue_transformComp hb type a)
      cases sym₂ with
      | other s' => exact hsame (by cases type <;> simp [transformComp]) fun _ => ⟨s', rfl⟩
      | yes => exact hletter .yes
      | mod => exact hletter .mod
      | no => exact hletter .no
    | _ => simp [Symbol.type] at hb
  · exact hsame (by cases type <;> simp [transformComp, hb]) fun h => absurd h hb

/-- A junction is transformed with its operands. -/
theorem transform_two (h₁ : Returns (exprTransform S fuel e₁) (Transformed S e₁))
    (h₂ : Returns (exprTransform S fuel e₂) (Transformed S e₂)) :
    Returns (exprTransform S (fuel + 1) (.two t e₁ e₂)) (Transformed S (.two t e₁ e₂)) := by
  refine h₁.bind fun left hl => h₂.bind fun right hr => returns_pure.mpr ?_
  refine ⟨?_, ?_, ⟨hl.normal, hr.normal⟩, fun v => ?_, fun v hd => ?_⟩
  · exact Nat.add_le_add_right (max_le_max hl.height hr.height) 1
  · rw [Expr.leaves, Expr.leaves, hl.leaves, hr.leaves]
  · rw [exprCalcValue_two, exprCalcValue_two, hl.calcValue, hr.calcValue]
  · exact ⟨hl.definite v hd.1, hr.definite v hd.2⟩

/-- The complement of a symbol or a comparison that has been transformed. -/
theorem Transformed.not (h : Transformed S e e') {e'' : Expr σ} (hh : e''.height ≤ e'.height + 1)
    (hl : e''.leaves = e'.leaves) (hn : e''.Normal S)
    (hv : ∀ v : Valuation S, exprCalcValue v e'' = (exprCalcValue v e').eNot)
    (hd : ∀ v : Valuation S, e'.Definite v → e''.Definite v) : Transformed S (.not e) e'' :=
  ⟨hh.trans (Nat.add_le_add_right h.height 1), hl.trans h.leaves, hn,
    fun v => by rw [hv, h.calcValue, exprCalcValue_not], fun v hdv => hd v (h.definite v hdv)⟩

/-- Fuel for the depth of an expression is enough. -/
theorem exprTransform_of_height (n : ℕ) : ∀ e : Expr σ, e.height ≤ n → ∀ fuel, 2 * n + 1 ≤ fuel →
    Returns (exprTransform S fuel e) (Transformed S e) := by
  induction n using Nat.strong_induction_on with
  | _ n ih =>
    intro e hn fuel hfuel
    obtain ⟨fuel, rfl⟩ : ∃ k, fuel = k + 1 := ⟨fuel - 1, by omega⟩
    cases e with
    | symbol sym => exact returns_pure.mpr ⟨le_rfl, rfl, trivial, fun _ => rfl, fun _ h => h⟩
    | comp type sym₁ sym₂ => exact returns_pure.mpr (transformed_comp ..)
    | two t e₁ e₂ =>
      have hmax : max e₁.height e₂.height + 1 ≤ n := hn
      exact transform_two (ih (n - 1) (by omega) e₁ (by omega) fuel (by omega))
        (ih (n - 1) (by omega) e₂ (by omega) fuel (by omega))
    | not e =>
      have hn : e.height + 1 ≤ n := hn
      refine (ih (n - 1) (by omega) e (by omega) fuel (by omega)).bind fun e' he => ?_
      have hheight := he.height
      cases e' with
      | symbol sym =>
        cases sym with
        | other s => exact returns_pure.mpr (he.not le_rfl rfl ⟨s, rfl⟩ (fun _ => rfl) fun _ h => h)
        | mod =>
          exact returns_pure.mpr (he.not (Nat.zero_le _) rfl trivial (fun _ => rfl) fun _ h => h)
        | yes =>
          exact returns_pure.mpr (he.not (Nat.zero_le _) rfl trivial (fun _ => rfl) fun _ _ => by
            simp [Expr.Definite, Valuation.symTri])
        | no =>
          exact returns_pure.mpr (he.not (Nat.zero_le _) rfl trivial (fun _ => rfl) fun _ _ => by
            simp [Expr.Definite, Valuation.symTri])
      | comp type sym₁ sym₂ =>
        exact returns_pure.mpr (he.not (Nat.le_succ _) rfl he.normal
          (fun v => exprCalcValue_comp_other ..) fun _ _ => trivial)
      | not e₁ =>
        -- a complement that has been transformed is that of a symbol
        obtain ⟨s, rfl⟩ := he.normal
        obtain ⟨fuel, rfl⟩ : ∃ k, fuel = k + 1 := ⟨fuel - 1, by omega⟩
        exact returns_pure.mpr (he.not (Nat.zero_le _) rfl trivial
          (fun v => (Tristate.eNot_eNot _).symm) fun _ h => h)
      | two t e₁ e₂ =>
        have hmax : max e₁.height e₂.height + 1 ≤ e.height := hheight
        obtain ⟨fuel, rfl⟩ : ∃ k, fuel = k + 1 := ⟨fuel - 1, by omega⟩
        have hnot : ∀ e, e.height + 2 ≤ n →
            Returns (exprTransform S fuel (.not e)) (Transformed S (.not e)) := fun e hle =>
          ih (n - 1) (by omega) (.not e) (by rw [Expr.height]; omega) fuel (by omega)
        refine (transform_two (hnot e₁ (by omega)) (hnot e₂ (by omega))).mono fun e' h => ?_
        refine he.not ?_ h.leaves h.normal (fun v => ?_) h.definite
        · refine h.height.trans ?_
          simp only [Expr.height]
          omega
        · rw [h.calcValue, exprCalcValue_two, exprCalcValue_two, Tristate.eNot_op]
          rfl

/-- What is normal already stays as it is. -/
theorem Expr.Normal.transform (h : e.Normal S) :
    ∀ fuel, 2 * e.height + 1 ≤ fuel → exprTransform S fuel e = some e := by
  induction e with
  | symbol sym =>
    intro fuel hfuel
    obtain ⟨fuel, rfl⟩ : ∃ k, fuel = k + 1 := ⟨fuel - 1, by omega⟩
    rfl
  | comp type sym₁ sym₂ =>
    intro fuel hfuel
    obtain ⟨fuel, rfl⟩ : ∃ k, fuel = k + 1 := ⟨fuel - 1, by omega⟩
    have hsame : transformComp S type sym₁ sym₂ = .comp type sym₁ sym₂ := by
      by_cases hb : sym₁.type S = .boolean
      · obtain ⟨s, rfl⟩ := h hb
        cases type <;> simp [transformComp]
      · cases type <;> simp [transformComp, hb]
    rw [exprTransform, hsame]
    rfl
  | not e =>
    obtain ⟨s, rfl⟩ := h
    intro fuel hfuel
    obtain ⟨fuel, rfl⟩ : ∃ k, fuel = k + 1 + 1 := ⟨fuel - 2, by simp [Expr.height] at hfuel; omega⟩
    rfl
  | two t e₁ e₂ ih₁ ih₂ =>
    intro fuel hfuel
    rw [Expr.height] at hfuel
    obtain ⟨fuel, rfl⟩ : ∃ k, fuel = k + 1 := ⟨fuel - 1, by omega⟩
    rw [exprTransform, ih₁ h.1 fuel (by omega), ih₂ h.2 fuel (by omega)]
    rfl

/-- `expr_transform` has a result for every expression, which is normal, has the value of the
expression whatever the symbols are, and stays as it is when it is transformed again. -/
theorem exprTransform_spec (S : Symbols σ) (e : Expr σ) (k : ℕ) :
    ∃ e', exprTransform S (2 * e.height + 1 + k) e = some e' ∧ e'.Normal S ∧
      (∀ v : Valuation S, exprCalcValue v e' = exprCalcValue v e) ∧
      exprTransform S (2 * e.height + 1 + k) e' = some e' := by
  have hfuel : 2 * e.height + 1 ≤ 2 * e.height + 1 + k := Nat.le_add_right ..
  obtain ⟨e', he', h⟩ := exprTransform_of_height (S := S) e.height e le_rfl _ hfuel
  have hheight := h.height
  exact ⟨e', he', h.normal, h.calcValue, h.normal.transform _ (by omega)⟩

end Transform

/-! ## expr_trans_bool -/

section TransBool

variable (S : Symbols σ)

/-- `expr_trans_bool`. -/
def exprTransBool : Expr σ → Expr σ
  | .two type e₁ e₂ => .two type (exprTransBool e₁) (exprTransBool e₂)
  | .not e => .not (exprTransBool e)
  | .comp .unequal sym₁ .no =>
    if sym₁.type S = .tristate then .symbol sym₁ else .comp .unequal sym₁ .no
  | e => e

variable {S}

theorem Tristate.op_eq_no_iff (t : Junction) : ∀ {a b a' b' : Tristate}, (a = no ↔ a' = no) →
    (b = no ↔ b' = no) → (t.op a b = no ↔ t.op a' b' = no) := by
  cases t <;> decide

theorem Expr.Nnf.transBool {e : Expr σ} (h : e.Nnf) : (exprTransBool S e).Nnf := by
  induction e with
  | symbol => trivial
  | comp type sym₁ sym₂ =>
    unfold exprTransBool
    split
    · rename_i heq
      simp at heq
    · rename_i heq
      simp at heq
    · split_ifs <;> trivial
    · trivial
  | not e ih =>
    obtain ⟨sym, rfl⟩ := h
    exact ⟨sym, rfl⟩
  | two t e₁ e₂ ih₁ ih₂ => exact ⟨ih₁ h.1, ih₂ h.2⟩

/-- A comparison that is made a symbol is `n` if and only if it was, and otherwise it may be `m`
where it was `y`. Below a `!` nothing may be made of one. -/
theorem exprCalcValue_transBool {e : Expr σ} (h : e.Nnf) (v : Valuation S) :
    exprCalcValue v (exprTransBool S e) ≤ exprCalcValue v e ∧
      (exprCalcValue v (exprTransBool S e) = .no ↔ exprCalcValue v e = .no) := by
  induction e with
  | symbol sym => exact ⟨le_rfl, .rfl⟩
  | not e ih =>
    obtain ⟨sym, rfl⟩ := h
    exact ⟨le_rfl, .rfl⟩
  | two t e₁ e₂ ih₁ ih₂ =>
    obtain ⟨hle₁, hno₁⟩ := ih₁ h.1
    obtain ⟨hle₂, hno₂⟩ := ih₂ h.2
    rw [exprTransBool, exprCalcValue_two, exprCalcValue_two]
    exact ⟨t.op_mono hle₁ hle₂, Tristate.op_eq_no_iff t hno₁ hno₂⟩
  | comp type sym₁ sym₂ =>
    unfold exprTransBool
    split
    · rename_i heq
      simp at heq
    · rename_i heq
      simp at heq
    · rename_i heq
      obtain ⟨rfl, rfl, rfl⟩ := Expr.comp.inj heq
      split_ifs with ht
      · have hval : exprCalcValue v (.comp .unequal sym₁ .no) =
            Comparison.unequal.holds (v.symTri sym₁) .no :=
          exprCalcValue_comp (Symbol.logical_of_type (.inr ht)) .unequal .no
        rw [hval, exprCalcValue_symbol]
        constructor <;> cases v.symTri sym₁ <;> decide
      · exact ⟨le_rfl, .rfl⟩
    · exact ⟨le_rfl, .rfl⟩

end TransBool

/-! ## expr_trans_compare -/

section TransCompare

/-- `expr_trans_compare`, with one of `y`, `m` and `n`. -/
def exprTransCompare (a : Tristate) : Expr σ → Comparison → Expr σ
  | .two t e₁ e₂, type =>
    let left := exprTransCompare a e₁ .equal
    let right := exprTransCompare a e₂ .equal
    let e := match a with
      | .yes => .two t left right
      | .no => .two t.dual left right
      | .mod => .two t e₁ e₂
    if type = .unequal then .not e else e
  | .not e, type => exprTransCompare a e type.other
  | .comp c sym₁ sym₂, .equal =>
    match a with
    | .yes => .comp c sym₁ sym₂
    | .mod => .symbol .no
    | .no => .not (.comp c sym₁ sym₂)
  | .comp c sym₁ sym₂, .unequal =>
    match a with
    | .yes => .not (.comp c sym₁ sym₂)
    | .mod => .symbol .yes
    | .no => .comp c sym₁ sym₂
  | .symbol sym, type => .comp type sym a.symbol

/-- `expr_trans_compare` of an expression that may be `NULL`. -/
def depTransCompare (a : Tristate) (type : Comparison) : Option (Expr σ) → Expr σ
  | some e => exprTransCompare a e type
  | none =>
    match type with
    | .equal => .symbol a.symbol
    | .unequal => .not (.symbol a.symbol)

/-- The symbols that are operands have values : none is a string or a number. -/
def Expr.Logical (S : Symbols σ) : Expr σ → Prop
  | .symbol sym => sym.Logical S
  | .not e => e.Logical S
  | .two _ e₁ e₂ => e₁.Logical S ∧ e₂.Logical S
  | .comp .. => True

/-- What stands below a `!` is not `m`. -/
def Expr.DefiniteNot {S : Symbols σ} (v : Valuation S) : Expr σ → Prop
  | .not e => exprCalcValue v e ≠ .mod ∧ e.DefiniteNot v
  | .two _ e₁ e₂ => e₁.DefiniteNot v ∧ e₂.DefiniteNot v
  | _ => True

variable {S : Symbols σ} {v : Valuation S} {a b c : Tristate}

theorem Comparison.holds_unequal (a b : Tristate) :
    Comparison.unequal.holds a b = (Comparison.equal.holds a b).eNot := by
  revert a b
  decide

/-- A junction is worth `y` or `n` if its operands are, one or both. -/
theorem Comparison.holds_op (t : Junction) : ∀ {a b c : Tristate}, a ≠ .mod →
    Comparison.equal.holds (t.op b c) a =
      (if a = .yes then t else t.dual).op (Comparison.equal.holds b a)
        (Comparison.equal.holds c a) := by
  cases t <;> decide

theorem Comparison.holds_eNot (type : Comparison) : ∀ {a b : Tristate}, a ≠ .mod → b ≠ .mod →
    type.holds (b.eNot) a = type.other.holds b a := by
  cases type <;> decide

/-- A value is compared with `y` or `n` by way of the symbols. A `!` is taken for the other
comparison, which it is but for `m`. -/
theorem exprCalcValue_transCompare {e : Expr σ} (hd : e.DefiniteNot v) (hl : e.Logical S)
    (ha : a ≠ .mod) (type : Comparison) :
    exprCalcValue v (exprTransCompare a e type) = type.holds (exprCalcValue v e) a := by
  induction e generalizing type with
  | symbol sym => exact exprCalcValue_comp hl type a
  | not e ih =>
    rw [exprTransCompare, ih hd.2 hl, exprCalcValue_not, Comparison.holds_eNot type ha hd.1]
  | comp c sym₁ sym₂ =>
    have hne : exprCalcValue v (.comp c sym₁ sym₂) ≠ .mod := exprCalcValue_comp_ne_mod c sym₁ sym₂
    cases type <;> cases a <;> first
      | exact absurd rfl ha
      | (simp only [exprTransCompare, exprCalcValue_not]
         revert hne
         generalize exprCalcValue v (.comp c sym₁ sym₂) = b
         revert b
         decide)
  | two t e₁ e₂ ih₁ ih₂ =>
    have hequal : exprCalcValue v (exprTransCompare a (.two t e₁ e₂) .equal) =
        Comparison.equal.holds (exprCalcValue v (.two t e₁ e₂)) a := by
      rw [exprCalcValue_two, Comparison.holds_op t ha, ← ih₁ hd.1 hl.1, ← ih₂ hd.2 hl.2]
      cases a
      · exact exprCalcValue_two v ..
      · exact absurd rfl ha
      · exact exprCalcValue_two v ..
    cases type with
    | equal => exact hequal
    | unequal =>
      rw [Comparison.holds_unequal, ← hequal]
      rfl

end TransCompare

end Makeroot
