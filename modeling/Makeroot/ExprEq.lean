import Makeroot.Transform

/-!
# Equal expressions

`expr_eq` compares expressions by taking out of two junctions what they have in common
(`__expr_eliminate_eq`), and looking whether nothing but one symbol is left. The two call each
other, one operand down. Equal expressions have one value (`exprEq_spec`), and in general what
`expr_eliminate_eq` leaves of two expressions tells how their values are ordered
(`exprEliminateEq_spec`). `expr_extract_eq` takes the common operands out in the same way, and
keeps them.
-/

namespace Makeroot

open GnuMake DeMorgan Fuel

variable {σ : Type}

/-! ## Operands -/

/-- The operands of a junction of the type. -/
def Expr.operands (type : Junction) : Expr σ → Option (Expr σ × Expr σ)
  | .two t e₁ e₂ => if t = type then some (e₁, e₂) else none
  | _ => none

theorem Expr.operands_eq_some {type : Junction} {e e₁ e₂ : Expr σ} :
    e.operands type = some (e₁, e₂) ↔ e = .two type e₁ e₂ := by
  cases e with
  | two t l r =>
    by_cases h : t = type <;> simp [operands, h]
  | _ => simp [operands]

@[simp] theorem Expr.operands_two (type : Junction) (e₁ e₂ : Expr σ) :
    (Expr.two type e₁ e₂).operands type = some (e₁, e₂) := operands_eq_some.mpr rfl

/-- The nodes of an expression. -/
def Expr.size : Expr σ → ℕ
  | .symbol _ | .comp .. => 1
  | .not e => e.size + 1
  | .two _ e₁ e₂ => e₁.size + e₂.size + 1

theorem Expr.size_pos (e : Expr σ) : 0 < e.size := by
  cases e <;> simp [size]

/-- A property that a junction has if and only if both operands have it, and that `y`, `n` and
all comparisons have. -/
structure Hereditary (P : Expr σ → Prop) : Prop where
  two : ∀ t e₁ e₂, P (.two t e₁ e₂) ↔ P e₁ ∧ P e₂
  yn : ∀ t, P (.symbol (unitSymbol t))
  comp : ∀ type sym₁ sym₂, P (.comp type sym₁ sym₂)

section Hereditary

variable {S : Symbols σ}

theorem hereditary_nnf : Hereditary (Expr.Nnf : Expr σ → Prop) :=
  ⟨fun _ _ _ => .rfl, fun _ => trivial, fun _ _ _ => trivial⟩

theorem hereditary_definite (v : Valuation S) : Hereditary (Expr.Definite v) := by
  refine ⟨fun _ _ _ => .rfl, fun t => ?_, fun _ _ _ => trivial⟩
  rw [Expr.Definite, symTri_unitSymbol]
  cases t <;> simp

variable [DecidableEq σ]

theorem Hereditary.eliminateYn {P : Expr σ → Prop} (hP : Hereditary P) {e : Expr σ} (h : P e) :
    P (exprEliminateYn e) := by
  induction e with
  | two t e₁ e₂ ih₁ ih₂ =>
    obtain ⟨h₁, h₂⟩ := (hP.two ..).mp h
    rw [exprEliminateYn]
    rcases eliminateYnTwo_cases t (exprEliminateYn e₁) (exprEliminateYn e₂) with
      ⟨h, -⟩ | ⟨h, -⟩ | ⟨h, -⟩ | ⟨h, -⟩ <;> rw [h]
    · exact hP.yn _
    · exact ih₂ h₂
    · exact ih₁ h₁
    · exact (hP.two ..).mpr ⟨ih₁ h₁, ih₂ h₂⟩
  | _ => exact h

end Hereditary

/-! ## expr_eq -/

section Eq

variable [DecidableEq σ] (S : Symbols σ)

/-- `sym->flags & (SYMBOL_YES|SYMBOL_NO)`. -/
def Symbol.isYesNo : Symbol σ → Bool
  | .yes | .no => true
  | .mod => false
  | .other s => S.isConst s

/-- Both expressions are one constant symbol. -/
def sameConst : Expr σ → Expr σ → Bool
  | .symbol sym₁, .symbol sym₂ => sym₁ = sym₂ && sym₁.isYesNo S
  | _, _ => false

mutual

/-- `__expr_eliminate_eq`. -/
def eliminateEq : ℕ → Junction → Expr σ → Expr σ → Option (Expr σ × Expr σ)
  | 0, _, _, _ => none
  | fuel + 1, type, e₁, e₂ =>
    match e₁.operands type with
    | some (left, right) => do
      let (left, e₂) ← eliminateEq fuel type left e₂
      let (right, e₂) ← eliminateEq fuel type right e₂
      pure (.two type left right, e₂)
    | none =>
      match e₂.operands type with
      | some (left, right) => do
        let (e₁, left) ← eliminateEq fuel type e₁ left
        let (e₁, right) ← eliminateEq fuel type e₁ right
        pure (e₁, .two type left right)
      | none => do
        if sameConst S e₁ e₂ then pure (e₁, e₂)
        else if ← exprEq fuel e₁ e₂ then
          pure (.symbol (unitSymbol type), .symbol (unitSymbol type))
        else pure (e₁, e₂)

/-- `expr_eliminate_eq`. -/
def exprEliminateEq : ℕ → Expr σ → Expr σ → Option (Expr σ × Expr σ)
  | 0, _, _ => none
  | fuel + 1, e₁, e₂ => do
    let (e₁, e₂) ← (match e₁ with
      | .two type .. => eliminateEq fuel type e₁ e₂
      | _ => some (e₁, e₂))
    let (e₁, e₂) ← (match e₂ with
      | .two type .. =>
        if (e₁.operands type).isSome then some (e₁, e₂) else eliminateEq fuel type e₁ e₂
      | _ => some (e₁, e₂))
    pure (exprEliminateYn e₁, exprEliminateYn e₂)

/-- `expr_eq`. -/
def exprEq : ℕ → Expr σ → Expr σ → Option Bool
  | 0, _, _ => none
  | fuel + 1, e₁, e₂ =>
    match e₁, e₂ with
    | .comp c₁ sym₁ sym₂, .comp c₂ sym₃ sym₄ => pure (c₁ = c₂ ∧ sym₁ = sym₃ ∧ sym₂ = sym₄)
    | .symbol sym₁, .symbol sym₂ => pure (sym₁ = sym₂)
    | .not e₁, .not e₂ => exprEq fuel e₁ e₂
    | .two t₁ .., .two t₂ .. => do
      if t₁ ≠ t₂ then pure false
      else
        match ← exprEliminateEq fuel e₁ e₂ with
        | (.symbol sym₁, .symbol sym₂) => pure (sym₁ = sym₂)
        | _ => pure false
    | _, _ => pure false

end

variable {S} {type : Junction} {e₁ e₂ left right : Expr σ} {r r' : Expr σ × Expr σ} {fuel n : ℕ}

/-- What `__expr_eliminate_eq` leaves of two expressions. -/
structure Eliminated (S : Symbols σ) (type : Junction) (e₁ e₂ : Expr σ) (r : Expr σ × Expr σ) :
    Prop where
  size₁ : r.1.size ≤ e₁.size
  size₂ : r.2.size ≤ e₂.size
  operands₁ : (e₁.operands type).isSome → (r.1.operands type).isSome
  operands₂ : (e₂.operands type).isSome → (r.2.operands type).isSome
  parted : ∀ v : Valuation S, Parted type (exprCalcValue v e₁) (exprCalcValue v e₂)
    (exprCalcValue v r.1) (exprCalcValue v r.2)
  keep₁ : ∀ P, Hereditary P → P e₁ → P r.1
  keep₂ : ∀ P, Hereditary P → P e₂ → P r.2

omit [DecidableEq σ] in
theorem Eliminated.refl (S : Symbols σ) (type : Junction) (e₁ e₂ : Expr σ) :
    Eliminated S type e₁ e₂ (e₁, e₂) :=
  ⟨le_rfl, le_rfl, id, id, fun _ => .refl .., fun _ _ => id, fun _ _ => id⟩

omit [DecidableEq σ] in
theorem Eliminated.swap (h : Eliminated S type e₁ e₂ r) : Eliminated S type e₂ e₁ r.swap :=
  ⟨h.size₂, h.size₁, h.operands₂, h.operands₁, fun v => (h.parted v).symm, h.keep₂, h.keep₁⟩

omit [DecidableEq σ] in
/-- First the one operand of `e₁` is gone through, and then the other. -/
theorem Eliminated.two (hl : Eliminated S type left e₂ r) (hr : Eliminated S type right r.2 r') :
    Eliminated S type (.two type left right) e₂ (.two type r.1 r'.1, r'.2) := by
  refine ⟨?_, hr.size₂.trans hl.size₂, fun _ => by simp, fun h => hr.operands₂ (hl.operands₂ h),
    fun v => ?_, fun P hP h => ?_, fun P hP h => hr.keep₂ P hP (hl.keep₂ P hP h)⟩
  · exact Nat.add_le_add_right (Nat.add_le_add hl.size₁ hr.size₁) 1
  · simp only [exprCalcValue_two]
    exact ((hl.parted v).op_left _).trans ((hr.parted v).op_right _)
  · obtain ⟨h₁, h₂⟩ := (hP.two ..).mp h
    exact (hP.two ..).mpr ⟨hl.keep₁ P hP h₁, hr.keep₁ P hP h₂⟩

omit [DecidableEq σ] in
/-- Of two equal operands `y` or `n` is left. -/
theorem eliminated_of_eq (h : ∀ v : Valuation S, exprCalcValue v e₁ = exprCalcValue v e₂)
    (h₁ : e₁.operands type = none) (h₂ : e₂.operands type = none) :
    Eliminated S type e₁ e₂ (.symbol (unitSymbol type), .symbol (unitSymbol type)) := by
  refine ⟨e₁.size_pos, e₂.size_pos, by simp [h₁], by simp [h₂], fun v => ?_,
    fun P hP _ => hP.yn _, fun P hP _ => hP.yn _⟩
  rw [exprCalcValue_symbol, symTri_unitSymbol]
  exact parted_of_eq (h v)

theorem eliminateEq_left (h : ∀ e₁ e₂ : Expr σ, e₁.size + e₂.size ≤ n →
      Returns (eliminateEq S fuel type e₁ e₂) (Eliminated S type e₁ e₂))
    (hn : left.size + right.size + e₂.size ≤ n) :
    Returns (eliminateEq S (fuel + 1) type (.two type left right) e₂)
      (Eliminated S type (.two type left right) e₂) := by
  rw [eliminateEq]
  simp only [Expr.operands_two]
  refine (h left e₂ (by omega)).bind fun r hr => (h right r.2 ?_).bind fun r' hr' =>
    returns_pure.mpr (hr.two hr')
  have := hr.size₂
  omega

theorem eliminateEq_right (h : ∀ e₁ e₂ : Expr σ, e₁.size + e₂.size ≤ n →
      Returns (eliminateEq S fuel type e₁ e₂) (Eliminated S type e₁ e₂))
    (h₁ : e₁.operands type = none) (hn : e₁.size + left.size + right.size ≤ n) :
    Returns (eliminateEq S (fuel + 1) type e₁ (.two type left right))
      (Eliminated S type e₁ (.two type left right)) := by
  rw [eliminateEq]
  simp only [h₁, Expr.operands_two]
  refine (h e₁ left (by omega)).bind fun r hr => (h r.1 right ?_).bind fun r' hr' =>
    returns_pure.mpr (hr.swap.two hr'.swap).swap
  have := hr.size₁
  omega

/-- Two operands are compared. -/
theorem eliminateEq_none (h : Returns (exprEq S fuel e₁ e₂) fun b => b = true →
      ∀ v : Valuation S, exprCalcValue v e₁ = exprCalcValue v e₂)
    (h₁ : e₁.operands type = none) (h₂ : e₂.operands type = none) :
    Returns (eliminateEq S (fuel + 1) type e₁ e₂) (Eliminated S type e₁ e₂) := by
  rw [eliminateEq]
  simp only [h₁, h₂]
  split_ifs
  · exact returns_pure.mpr (.refl ..)
  · refine h.bind fun b hb => ?_
    split_ifs with hbt
    · exact returns_pure.mpr (eliminated_of_eq (hb hbt) h₁ h₂)
    · exact returns_pure.mpr (.refl ..)

/-- Of junctions of one type the operands of that type are all that is gone through. -/
theorem exprEliminateEq_two (t : Junction) {l₁ r₁ l₂ r₂ : Expr σ}
    (h : Returns (eliminateEq S fuel t (.two t l₁ r₁) (.two t l₂ r₂))
      (Eliminated S t (.two t l₁ r₁) (.two t l₂ r₂))) :
    Returns (exprEliminateEq S (fuel + 1) (.two t l₁ r₁) (.two t l₂ r₂)) fun r =>
      ∀ v : Valuation S, exprCalcValue v r.1 = exprCalcValue v r.2 →
        exprCalcValue v (.two t l₁ r₁) = exprCalcValue v (.two t l₂ r₂) := by
  rw [exprEliminateEq]
  refine h.bind fun r hr => ?_
  obtain ⟨e₁, e₂⟩ := r
  obtain ⟨⟨l, r⟩, hop₂⟩ := Option.isSome_iff_exists.mp (hr.operands₂ (by simp))
  obtain rfl : e₂ = .two t l r := Expr.operands_eq_some.mp hop₂
  have hop₁ : (e₁.operands t).isSome := hr.operands₁ (by simp)
  simp only [hop₁, if_true]
  refine returns_pure.mpr fun v heq => (hr.parted v).reflects.eq ?_
  rwa [exprCalcValue_eliminateYn, exprCalcValue_eliminateYn] at heq

/-- What `expr_eq` says is so whatever the symbols are. -/
def Equates (S : Symbols σ) (e₁ e₂ : Expr σ) (b : Bool) : Prop :=
  b = true → ∀ v : Valuation S, exprCalcValue v e₁ = exprCalcValue v e₂

/-- Fuel for smaller expressions is enough for `expr_eq`, which goes down at once. -/
theorem exprEq_of_lt (h : ∀ m < n, ∀ (type : Junction) (e₁ e₂ : Expr σ), e₁.size + e₂.size ≤ m →
      ∀ fuel, 4 * m ≤ fuel → Returns (eliminateEq S fuel type e₁ e₂) (Eliminated S type e₁ e₂))
    (hn : e₁.size + e₂.size ≤ n) (hfuel : 4 * n ≤ fuel + 1) :
    Returns (exprEq S fuel e₁ e₂) (Equates S e₁ e₂) := by
  induction e₁ generalizing e₂ n fuel with
  | symbol sym₁ =>
    have hpos := e₂.size_pos
    obtain ⟨fuel, rfl⟩ : ∃ k, fuel = k + 1 := ⟨fuel - 1, by simp [Expr.size] at hn; omega⟩
    cases e₂ with
    | symbol sym₂ =>
      refine returns_pure.mpr fun heq v => ?_
      rw [of_decide_eq_true heq]
    | _ => exact returns_pure.mpr (by simp [Equates])
  | comp c₁ sym₁ sym₂ =>
    have hpos := e₂.size_pos
    obtain ⟨fuel, rfl⟩ : ∃ k, fuel = k + 1 := ⟨fuel - 1, by simp [Expr.size] at hn; omega⟩
    cases e₂ with
    | comp c₂ sym₃ sym₄ =>
      refine returns_pure.mpr fun heq v => ?_
      obtain ⟨rfl, rfl, rfl⟩ := of_decide_eq_true heq
      rfl
    | _ => exact returns_pure.mpr (by simp [Equates])
  | not e₁ ih =>
    have hpos := e₂.size_pos
    obtain ⟨fuel, rfl⟩ : ∃ k, fuel = k + 1 := ⟨fuel - 1, by simp [Expr.size] at hn; omega⟩
    cases e₂ with
    | not e₂ =>
      simp only [Expr.size] at hn
      refine (ih (n := n - 2) (fun m hm => h m (by omega)) (by omega) (by omega)).mono
        fun b hb heq v => ?_
      rw [exprCalcValue_not, exprCalcValue_not, hb heq v]
    | _ => exact returns_pure.mpr (by simp [Equates])
  | two t₁ l₁ r₁ =>
    have hpos := e₂.size_pos
    obtain ⟨fuel, rfl⟩ : ∃ k, fuel = k + 1 + 1 + 1 :=
      ⟨fuel - 3, by simp [Expr.size] at hn; omega⟩
    cases e₂ with
    | two t₂ l₂ r₂ =>
      rw [exprEq]
      by_cases ht : t₁ = t₂
      swap
      · rw [if_pos ht]
        exact returns_pure.mpr (by simp [Equates])
      subst ht
      rw [if_neg (by simp)]
      have hstep : Returns (eliminateEq S (fuel + 1) t₁ (.two t₁ l₁ r₁) (.two t₁ l₂ r₂))
          (Eliminated S t₁ (.two t₁ l₁ r₁) (.two t₁ l₂ r₂)) := by
        simp only [Expr.size] at hn
        exact eliminateEq_left (n := n - 1)
          (fun e₁ e₂ he => h (n - 1) (by omega) t₁ e₁ e₂ he fuel (by omega))
          (by simp only [Expr.size]; omega)
      refine (exprEliminateEq_two t₁ hstep).bind fun r hr => ?_
      obtain ⟨e₁, e₂⟩ := r
      split
      · rename_i sym₁ sym₂ heq
        obtain ⟨rfl, rfl⟩ := Prod.mk.inj heq
        refine returns_pure.mpr fun hsym v => hr v ?_
        rw [of_decide_eq_true hsym]
      · exact returns_pure.mpr (by simp [Equates])
    | _ => exact returns_pure.mpr (by simp [Equates])

/-- Fuel for the sizes of two expressions is enough to take out what they have in common. -/
theorem eliminateEq_of_size (n : ℕ) : ∀ (type : Junction) (e₁ e₂ : Expr σ), e₁.size + e₂.size ≤ n →
    ∀ fuel, 4 * n ≤ fuel → Returns (eliminateEq S fuel type e₁ e₂) (Eliminated S type e₁ e₂) := by
  induction n using Nat.strong_induction_on with
  | _ n ih =>
    intro type e₁ e₂ hn fuel hfuel
    obtain ⟨fuel, rfl⟩ : ∃ k, fuel = k + 1 := ⟨fuel - 1, by have := e₁.size_pos; omega⟩
    cases h₁ : e₁.operands type with
    | some p =>
      obtain rfl : e₁ = .two type p.1 p.2 := Expr.operands_eq_some.mp h₁
      simp only [Expr.size] at hn
      exact eliminateEq_left (n := n - 1)
        (fun e₁ e₂ he => ih (n - 1) (by omega) type e₁ e₂ he fuel (by omega)) (by omega)
    | none =>
      cases h₂ : e₂.operands type with
      | some p =>
        obtain rfl : e₂ = .two type p.1 p.2 := Expr.operands_eq_some.mp h₂
        simp only [Expr.size] at hn
        exact eliminateEq_right (n := n - 1)
          (fun e₁ e₂ he => ih (n - 1) (by omega) type e₁ e₂ he fuel (by omega)) h₁ (by omega)
      | none => exact eliminateEq_none (exprEq_of_lt ih hn (by omega)) h₁ h₂

theorem exprEq_of_size (hn : e₁.size + e₂.size ≤ n) (hfuel : 4 * n ≤ fuel + 1) :
    Returns (exprEq S fuel e₁ e₂) (Equates S e₁ e₂) :=
  exprEq_of_lt (fun m _ => eliminateEq_of_size m) hn hfuel

/-- What `expr_eliminate_eq` leaves of two expressions. -/
structure LeftOver (S : Symbols σ) (e₁ e₂ : Expr σ) (r : Expr σ × Expr σ) : Prop where
  size₁ : r.1.size ≤ e₁.size
  size₂ : r.2.size ≤ e₂.size
  reflects : ∀ v : Valuation S, Reflects (exprCalcValue v e₁) (exprCalcValue v e₂)
    (exprCalcValue v r.1) (exprCalcValue v r.2)

omit [DecidableEq σ] in
theorem LeftOver.refl (S : Symbols σ) (e₁ e₂ : Expr σ) : LeftOver S e₁ e₂ (e₁, e₂) :=
  ⟨le_rfl, le_rfl, fun _ => .refl ..⟩

omit [DecidableEq σ] in
theorem Eliminated.leftOver (h : Eliminated S type e₁ e₂ r) : LeftOver S e₁ e₂ r :=
  ⟨h.size₁, h.size₂, fun v => (h.parted v).reflects⟩

omit [DecidableEq σ] in
theorem LeftOver.trans (h : LeftOver S e₁ e₂ r) (h' : LeftOver S r.1 r.2 r') :
    LeftOver S e₁ e₂ r' :=
  ⟨h'.size₁.trans h.size₁, h'.size₂.trans h.size₂, fun v => (h.reflects v).trans (h'.reflects v)⟩

/-- `expr_eliminate_eq` goes through the operands of both types, if the expressions have them. -/
theorem exprEliminateEq_of_size (hn : e₁.size + e₂.size ≤ n) (hfuel : 4 * n + 1 ≤ fuel) :
    Returns (exprEliminateEq S fuel e₁ e₂) fun r => ∀ v : Valuation S,
      Reflects (exprCalcValue v e₁) (exprCalcValue v e₂) (exprCalcValue v r.1)
        (exprCalcValue v r.2) := by
  obtain ⟨fuel, rfl⟩ : ∃ k, fuel = k + 1 := ⟨fuel - 1, by omega⟩
  have hstep : ∀ (type : Junction) (x₁ x₂ : Expr σ), LeftOver S e₁ e₂ (x₁, x₂) →
      Returns (eliminateEq S fuel type x₁ x₂) (LeftOver S e₁ e₂) := fun type x₁ x₂ hx => by
    have h₁ := hx.size₁
    have h₂ := hx.size₂
    exact (eliminateEq_of_size n type x₁ x₂ (by simp only at h₁ h₂; omega) fuel
      (by omega)).mono fun r hr => hx.trans hr.leftOver
  unfold exprEliminateEq
  refine Returns.bind (P := LeftOver S e₁ e₂) ?_ fun r hr => ?_
  · cases e₁ with
    | two t l r => exact hstep t _ _ (.refl ..)
    | _ => exact returns_pure.mpr (.refl ..)
  obtain ⟨x₁, x₂⟩ := r
  refine Returns.bind (P := LeftOver S e₁ e₂) ?_ fun r hr => ?_
  · cases x₂ with
    | two t l r =>
      dsimp only
      split_ifs
      · exact returns_pure.mpr hr
      · exact hstep t _ _ hr
    | _ => exact returns_pure.mpr hr
  · refine returns_pure.mpr fun v => ?_
    rw [exprCalcValue_eliminateYn, exprCalcValue_eliminateYn]
    exact hr.reflects v

/-- Expressions that `expr_eq` finds equal have one value, whatever the symbols are. -/
theorem exprEq_spec (S : Symbols σ) (e₁ e₂ : Expr σ) (k : ℕ) :
    ∃ b, exprEq S (4 * (e₁.size + e₂.size) + k) e₁ e₂ = some b ∧
      (b = true → ∀ v : Valuation S, exprCalcValue v e₁ = exprCalcValue v e₂) := by
  obtain ⟨b, hb, h⟩ := exprEq_of_size (S := S) (le_refl (e₁.size + e₂.size))
    (by omega : 4 * (e₁.size + e₂.size) ≤ 4 * (e₁.size + e₂.size) + k + 1)
  exact ⟨b, hb, h⟩

/-- What `expr_eliminate_eq` leaves of two expressions is ordered as they are : where one
remainder is below the other, so is the expression. -/
theorem exprEliminateEq_spec (S : Symbols σ) (e₁ e₂ : Expr σ) (k : ℕ) :
    ∃ r₁ r₂, exprEliminateEq S (4 * (e₁.size + e₂.size) + 1 + k) e₁ e₂ = some (r₁, r₂) ∧
      ∀ v : Valuation S,
        (exprCalcValue v r₁ ≤ exprCalcValue v r₂ → exprCalcValue v e₁ ≤ exprCalcValue v e₂) ∧
        (exprCalcValue v r₂ ≤ exprCalcValue v r₁ → exprCalcValue v e₂ ≤ exprCalcValue v e₁) := by
  obtain ⟨⟨r₁, r₂⟩, hr, h⟩ := exprEliminateEq_of_size (S := S) (le_refl (e₁.size + e₂.size))
    (Nat.le_add_right _ k)
  exact ⟨r₁, r₂, hr, h⟩

end Eq

/-! ## expr_extract_eq -/

section Extract

variable [DecidableEq σ] (S : Symbols σ)

/-- `expr_extract_eq`. The operands in common are gathered in `ep`. -/
def exprExtractEq : ℕ → Junction → Option (Expr σ) → Expr σ → Expr σ →
    Option (Option (Expr σ) × Expr σ × Expr σ)
  | 0, _, _, _, _ => none
  | fuel + 1, type, ep, e₁, e₂ =>
    match e₁.operands type with
    | some (left, right) => do
      let (ep, left, e₂) ← exprExtractEq fuel type ep left e₂
      let (ep, right, e₂) ← exprExtractEq fuel type ep right e₂
      pure (ep, .two type left right, e₂)
    | none =>
      match e₂.operands type with
      | some (left, right) => do
        let (ep, e₁, left) ← exprExtractEq fuel type ep e₁ left
        let (ep, e₁, right) ← exprExtractEq fuel type ep e₁ right
        pure (ep, e₁, .two type left right)
      | none => do
        if ← exprEq S fuel e₁ e₂ then
          pure (exprAlloc type ep (some e₁), .symbol (unitSymbol type), .symbol (unitSymbol type))
        else pure (ep, e₁, e₂)

/-- `expr_extract_eq_and` and `expr_extract_eq_or`. -/
def exprExtractEqOf (fuel : ℕ) (type : Junction) (e₁ e₂ : Expr σ) :
    Option (Option (Expr σ) × Expr σ × Expr σ) := do
  let (tmp, e₁, e₂) ← exprExtractEq S fuel type none e₁ e₂
  if tmp.isSome then pure (tmp, exprEliminateYn e₁, exprEliminateYn e₂) else pure (tmp, e₁, e₂)

variable {S} {type : Junction} {ep : Option (Expr σ)} {e₁ e₂ left right : Expr σ}
  {r r' : Option (Expr σ) × Expr σ × Expr σ} {fuel n : ℕ}

/-- The value of what has been gathered. -/
def gathered (v : Valuation S) (type : Junction) : Option (Expr σ) → Tristate
  | none => type.unit
  | some e => exprCalcValue v e

/-- What `expr_extract_eq` has taken out of two expressions, it has gathered. -/
structure Extracted (S : Symbols σ) (type : Junction) (ep : Option (Expr σ)) (e₁ e₂ : Expr σ)
    (r : Option (Expr σ) × Expr σ × Expr σ) : Prop where
  size₁ : r.2.1.size ≤ e₁.size
  size₂ : r.2.2.size ≤ e₂.size
  taken : ∀ v : Valuation S, ∃ c, gathered v type r.1 = type.op (gathered v type ep) c ∧
    exprCalcValue v e₁ = type.op c (exprCalcValue v r.2.1) ∧
    exprCalcValue v e₂ = type.op c (exprCalcValue v r.2.2)

omit [DecidableEq σ] in
theorem Extracted.refl (S : Symbols σ) (type : Junction) (ep : Option (Expr σ)) (e₁ e₂ : Expr σ) :
    Extracted S type ep e₁ e₂ (ep, e₁, e₂) :=
  ⟨le_rfl, le_rfl, fun _ =>
    ⟨type.unit, (type.op_unit _).symm, (type.unit_op _).symm, (type.unit_op _).symm⟩⟩

omit [DecidableEq σ] in
theorem Extracted.swap (h : Extracted S type ep e₁ e₂ r) :
    Extracted S type ep e₂ e₁ (r.1, r.2.2, r.2.1) :=
  ⟨h.size₂, h.size₁, fun v => by
    obtain ⟨c, hc, h₁, h₂⟩ := h.taken v
    exact ⟨c, hc, h₂, h₁⟩⟩

omit [DecidableEq σ] in
theorem Extracted.two (hl : Extracted S type ep left e₂ r)
    (hr : Extracted S type r.1 right r.2.2 r') :
    Extracted S type ep (.two type left right) e₂ (r'.1, .two type r.2.1 r'.2.1, r'.2.2) := by
  refine ⟨?_, hr.size₂.trans hl.size₂, fun v => ?_⟩
  · exact Nat.add_le_add_right (Nat.add_le_add hl.size₁ hr.size₁) 1
  · obtain ⟨c, hc, hl₁, hl₂⟩ := hl.taken v
    obtain ⟨d, hd, hr₁, hr₂⟩ := hr.taken v
    refine ⟨type.op c d, ?_, ?_, ?_⟩
    · rw [hd, hc, type.op_assoc]
    · rw [exprCalcValue_two, exprCalcValue_two, hl₁, hr₁]
      ac_rfl
    · rw [hl₂, hr₂, type.op_assoc]

omit [DecidableEq σ] in
theorem gathered_alloc (v : Valuation S) (type : Junction) (ep : Option (Expr σ)) (e : Expr σ) :
    gathered v type (exprAlloc type ep (some e)) =
      type.op (gathered v type ep) (exprCalcValue v e) := by
  cases ep with
  | none => exact (type.unit_op _).symm
  | some e' => exact exprCalcValue_two v ..

omit [DecidableEq σ] in
theorem extracted_of_eq (h : ∀ v : Valuation S, exprCalcValue v e₁ = exprCalcValue v e₂) :
    Extracted S type ep e₁ e₂
      (exprAlloc type ep (some e₁), .symbol (unitSymbol type), .symbol (unitSymbol type)) := by
  refine ⟨e₁.size_pos, e₂.size_pos, fun v => ⟨exprCalcValue v e₁, gathered_alloc .., ?_, ?_⟩⟩
  · rw [exprCalcValue_symbol, symTri_unitSymbol, type.op_unit]
  · rw [exprCalcValue_symbol, symTri_unitSymbol, type.op_unit, h]

theorem exprExtractEq_of_size (n : ℕ) : ∀ (ep : Option (Expr σ)) (e₁ e₂ : Expr σ),
    e₁.size + e₂.size ≤ n → ∀ fuel, 4 * n ≤ fuel →
    Returns (exprExtractEq S fuel type ep e₁ e₂) (Extracted S type ep e₁ e₂) := by
  induction n using Nat.strong_induction_on with
  | _ n ih =>
    intro ep e₁ e₂ hn fuel hfuel
    obtain ⟨fuel, rfl⟩ : ∃ k, fuel = k + 1 := ⟨fuel - 1, by have := e₁.size_pos; omega⟩
    have hlt : ∀ ep (e₁ e₂ : Expr σ), e₁.size + e₂.size ≤ n - 1 →
        Returns (exprExtractEq S fuel type ep e₁ e₂) (Extracted S type ep e₁ e₂) :=
      fun ep e₁ e₂ he => by
        have := e₁.size_pos
        exact ih (n - 1) (by omega) ep e₁ e₂ he fuel (by omega)
    cases h₁ : e₁.operands type with
    | some p =>
      obtain rfl : e₁ = .two type p.1 p.2 := Expr.operands_eq_some.mp h₁
      simp only [Expr.size] at hn
      rw [exprExtractEq]
      simp only [Expr.operands_two]
      refine (hlt ep p.1 e₂ (by omega)).bind fun r hr => ?_
      refine (hlt r.1 p.2 r.2.2 ?_).bind fun r' hr' => returns_pure.mpr (hr.two hr')
      have := hr.size₂
      omega
    | none =>
      cases h₂ : e₂.operands type with
      | some p =>
        obtain rfl : e₂ = .two type p.1 p.2 := Expr.operands_eq_some.mp h₂
        simp only [Expr.size] at hn
        rw [exprExtractEq]
        simp only [h₁, Expr.operands_two]
        refine (hlt ep e₁ p.1 (by omega)).bind fun r hr => ?_
        refine (hlt r.1 r.2.1 p.2 ?_).bind fun r' hr' =>
          returns_pure.mpr (hr.swap.two hr'.swap).swap
        have := hr.size₁
        omega
      | none =>
        rw [exprExtractEq]
        simp only [h₁, h₂]
        refine (exprEq_of_size hn (by omega)).bind fun b hb => ?_
        split_ifs with hbt
        · exact returns_pure.mpr (extracted_of_eq (hb hbt))
        · exact returns_pure.mpr (.refl ..)

theorem exprExtractEqOf_of_size (hn : e₁.size + e₂.size ≤ n) (hfuel : 4 * n ≤ fuel) :
    Returns (exprExtractEqOf S fuel type e₁ e₂) fun r => ∀ v : Valuation S,
      exprCalcValue v e₁ = type.op (gathered v type r.1) (exprCalcValue v r.2.1) ∧
      exprCalcValue v e₂ = type.op (gathered v type r.1) (exprCalcValue v r.2.2) := by
  refine (exprExtractEq_of_size n none e₁ e₂ hn fuel hfuel).bind fun r hr => ?_
  obtain ⟨tmp, x₁, x₂⟩ := r
  have htaken : ∀ v : Valuation S,
      exprCalcValue v e₁ = type.op (gathered v type tmp) (exprCalcValue v x₁) ∧
      exprCalcValue v e₂ = type.op (gathered v type tmp) (exprCalcValue v x₂) := fun v => by
    obtain ⟨c, hc, h₁, h₂⟩ := hr.taken v
    rw [gathered, type.unit_op] at hc
    dsimp only at hc
    rw [hc]
    exact ⟨h₁, h₂⟩
  dsimp only
  split_ifs
  · refine returns_pure.mpr fun v => ?_
    rw [exprCalcValue_eliminateYn, exprCalcValue_eliminateYn]
    exact htaken v
  · exact returns_pure.mpr htaken

/-- What `expr_extract_eq_and` and `expr_extract_eq_or` have taken out of two expressions makes
them up again with what is left of each, whatever the symbols are. -/
theorem exprExtractEqOf_spec (S : Symbols σ) (type : Junction) (e₁ e₂ : Expr σ) (k : ℕ) :
    ∃ tmp r₁ r₂, exprExtractEqOf S (4 * (e₁.size + e₂.size) + k) type e₁ e₂ = some (tmp, r₁, r₂) ∧
      ∀ v : Valuation S,
        exprCalcValue v e₁ = type.op (gathered v type tmp) (exprCalcValue v r₁) ∧
        exprCalcValue v e₂ = type.op (gathered v type tmp) (exprCalcValue v r₂) := by
  obtain ⟨⟨tmp, r₁, r₂⟩, hr, h⟩ : Returns (exprExtractEqOf S _ type e₁ e₂) _ :=
    exprExtractEqOf_of_size le_rfl (Nat.le_add_right (4 * (e₁.size + e₂.size)) k)
  exact ⟨tmp, r₁, r₂, hr, h⟩

end Extract

end Makeroot
