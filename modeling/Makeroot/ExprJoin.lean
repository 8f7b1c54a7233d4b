import Makeroot.ExprEq

/-!
# Two operands joined

`expr_join_or` and `expr_join_and` make one expression of two operands of a junction : of equal
ones, or of two that are about one boolean or tristate symbol. What they make has the value of the
junction, for tristate symbols too (`exprJoin_of_size`). A comparison of a symbol with a value is
a function of the value of that symbol, and most rules are checked on these functions.
-/

namespace Makeroot

open GnuMake DeMorgan Fuel

variable {σ : Type}

/-! ## expr_join_or, expr_join_and -/

section Join

variable (S : Symbols σ)

/-- `sym1` of `expr_join_or` and `expr_join_and`. -/
def joinSym₁ : Expr σ → Option (Symbol σ)
  | .symbol sym | .comp _ sym _ | .not (.symbol sym) | .not (.comp _ sym _) => some sym
  | _ => none

/-- `sym2`. -/
def joinSym₂ : Expr σ → Option (Symbol σ)
  | .symbol sym | .comp _ sym _ | .not (.symbol sym) => some sym
  | _ => none

/-- `expr_join_or` of two expressions that are about one symbol. -/
def joinOrSym (sym : Symbol σ) (e₁ e₂ : Expr σ) : Option (Expr σ) :=
  match sym.type S, e₁, e₂ with
  -- (a='y') || (a='m') -> (a!='n')
  | .tristate, .comp .equal _ .yes, .comp .equal _ .mod
  | .tristate, .comp .equal _ .mod, .comp .equal _ .yes => some (.comp .unequal sym .no)
  -- (a='y') || (a='n') -> (a!='m')
  | .tristate, .comp .equal _ .yes, .comp .equal _ .no
  | .tristate, .comp .equal _ .no, .comp .equal _ .yes => some (.comp .unequal sym .mod)
  -- (a='m') || (a='n') -> (a!='y')
  | .tristate, .comp .equal _ .mod, .comp .equal _ .no
  | .tristate, .comp .equal _ .no, .comp .equal _ .mod => some (.comp .unequal sym .yes)
  | .boolean, .not (.symbol _), .symbol _
  | .boolean, .symbol _, .not (.symbol _) => some (.symbol .yes)
  | _, _, _ => none

/-- `(a!='c') && (a!='d')`. -/
def joinAndUnequal (sym c d : Symbol σ) : Option (Expr σ) :=
  match c, d with
  -- (a!='y') && (a!='n') -> (a='m')
  | .yes, .no | .no, .yes => some (.comp .equal sym .mod)
  -- (a!='y') && (a!='m') -> (a='n')
  | .yes, .mod | .mod, .yes => some (.comp .equal sym .no)
  -- (a!='m') && (a!='n') -> (a='y')
  | .mod, .no | .no, .mod => some (.comp .equal sym .yes)
  | _, _ => none

variable [DecidableEq σ]

/-- `(a='b') && (a!='c')`, for constants. -/
def joinAndConst (sym b c : Symbol σ) : Option (Expr σ) :=
  if c.isConst S && b.isConst S then
    some (if b ≠ c then .comp .equal sym b else .symbol .no)
  else none

/-- `expr_join_and` of two expressions that are about one symbol. -/
def joinAndSym (sym : Symbol σ) (e₁ e₂ : Expr σ) : Option (Expr σ) :=
  match e₁, e₂ with
  -- (a) && (a='y') -> (a='y')
  | .symbol _, .comp .equal _ .yes | .comp .equal _ .yes, .symbol _ => some (.comp .equal sym .yes)
  -- (a) && (a!='n') -> (a)
  | .symbol _, .comp .unequal _ .no | .comp .unequal _ .no, .symbol _ => some (.symbol sym)
  -- (a) && (a!='m') -> (a='y')
  | .symbol _, .comp .unequal _ .mod
  | .comp .unequal _ .mod, .symbol _ => some (.comp .equal sym .yes)
  | .comp .equal _ b, .comp .unequal _ c =>
    if sym.type S = .tristate then joinAndConst S sym b c else none
  | .comp .unequal _ c, .comp .equal _ b =>
    if sym.type S = .tristate then joinAndConst S sym b c else none
  | .comp .unequal _ c, .comp .unequal _ d =>
    if sym.type S = .tristate then joinAndUnequal sym c d else none
  | _, _ => none

/-- `expr_join_or` and `expr_join_and`. -/
def exprJoin (fuel : ℕ) (type : Junction) (e₁ e₂ : Expr σ) : Option (Option (Expr σ)) := do
  if ← exprEq S fuel e₁ e₂ then pure (some e₁)
  else
    match joinSym₁ e₁, joinSym₂ e₂ with
    | some sym₁, some sym₂ =>
      if sym₁ ≠ sym₂ then pure none
      else if sym₁.type S ≠ .boolean ∧ sym₁.type S ≠ .tristate then pure none
      else
        match type with
        | .or => pure (joinOrSym S sym₁ e₁ e₂)
        | .and => pure (joinAndSym S sym₁ e₁ e₂)
    | _, _ => pure none

/-- What two expressions are joined to. -/
structure Joined (S : Symbols σ) (type : Junction) (e₁ e₂ tmp : Expr σ) : Prop where
  operands : e₁.operands type = none → tmp.operands type = none
  size : tmp.size + 1 ≤ e₁.size + e₂.size
  leaves : tmp.leaves + 1 ≤ e₁.leaves + e₂.leaves
  calcValue : ∀ v : Valuation S,
    exprCalcValue v tmp = type.op (exprCalcValue v e₁) (exprCalcValue v e₂)
  keep : ∀ P, Hereditary P → P e₁ → P e₂ → P tmp

variable {S} {type : Junction} {sym b c : Symbol σ} {e₁ e₂ tmp : Expr σ}

omit [DecidableEq σ] in
/-- A symbol. -/
theorem joined_symbol (hv : ∀ v : Valuation S, v.symTri sym =
      type.op (exprCalcValue v e₁) (exprCalcValue v e₂))
    (hk : ∀ P, Hereditary P → P e₁ → P e₂ → P (.symbol sym)) :
    Joined S type e₁ e₂ (.symbol sym) :=
  ⟨fun _ => rfl, Nat.add_le_add e₁.size_pos e₂.size_pos,
    Nat.add_le_add e₁.leaves_pos e₂.leaves_pos, hv, hk⟩

omit [DecidableEq σ] in
/-- A comparison. -/
theorem joined_comp {t : Comparison} (hv : ∀ v : Valuation S, exprCalcValue v (.comp t sym b) =
      type.op (exprCalcValue v e₁) (exprCalcValue v e₂)) :
    Joined S type e₁ e₂ (.comp t sym b) :=
  ⟨fun _ => rfl, Nat.add_le_add e₁.size_pos e₂.size_pos,
    Nat.add_le_add e₁.leaves_pos e₂.leaves_pos, hv, fun _ hP _ _ => hP.comp ..⟩

/-- An expression about one symbol, and its value as a function of that of the symbol. -/
inductive About (sym : Symbol σ) : Expr σ → (Tristate → Tristate) → Prop
  | symbol : About sym (.symbol sym) id
  | comp (t : Comparison) (a : Tristate) : About sym (.comp t sym a.symbol) (t.holds · a)

omit [DecidableEq σ] in
theorem About.calcValue {f : Tristate → Tristate} (h : About sym e₁ f) (hl : sym.Logical S)
    (v : Valuation S) : exprCalcValue v e₁ = f (v.symTri sym) := by
  cases h with
  | symbol => rfl
  | comp t a => exact exprCalcValue_comp hl t a

omit [DecidableEq σ] in
/-- Two expressions about one symbol are joined to a comparison of it. -/
theorem joined_about {f₁ f₂ : Tristate → Tristate} (hl : sym.Logical S) (h₁ : About sym e₁ f₁)
    (h₂ : About sym e₂ f₂) (t : Comparison) (a : Tristate)
    (h : ∀ x : Tristate, t.holds x a = type.op (f₁ x) (f₂ x)) :
    Joined S type e₁ e₂ (.comp t sym a.symbol) :=
  joined_comp fun v => by
    rw [exprCalcValue_comp hl, h₁.calcValue hl, h₂.calcValue hl, h]

omit [DecidableEq σ] in
/-- The symbol itself is one of them. -/
theorem joined_self {f₁ f₂ : Tristate → Tristate} (hl : sym.Logical S) (h₁ : About sym e₁ f₁)
    (h₂ : About sym e₂ f₂) (h : ∀ x : Tristate, x = type.op (f₁ x) (f₂ x))
    (he : e₁ = .symbol sym ∨ e₂ = .symbol sym) : Joined S type e₁ e₂ (.symbol sym) := by
  refine joined_symbol (fun v => ?_) fun P _ p₁ p₂ => ?_
  · rw [h₁.calcValue hl, h₂.calcValue hl, ← h]
  · rcases he with rfl | rfl
    · exact p₁
    · exact p₂

omit [DecidableEq σ] in
theorem joined_or (h : joinOrSym S sym e₁ e₂ = some tmp) (h₁ : joinSym₁ e₁ = some sym)
    (h₂ : joinSym₂ e₂ = some sym) : Joined S .or e₁ e₂ tmp := by
  have hl : sym.type S = .tristate → sym.Logical S := fun ht => Symbol.logical_of_type (.inr ht)
  unfold joinOrSym at h
  split at h <;> simp only [Option.some.injEq, reduceCtorEq] at h <;> subst h <;>
    rename_i ht <;> simp only [joinSym₁, joinSym₂, Option.some.injEq] at h₁ h₂ <;> subst h₁ <;>
    subst h₂
  · exact joined_about (hl ht) (.comp .equal .yes) (.comp .equal .mod) .unequal .no (by decide)
  · exact joined_about (hl ht) (.comp .equal .mod) (.comp .equal .yes) .unequal .no (by decide)
  · exact joined_about (hl ht) (.comp .equal .yes) (.comp .equal .no) .unequal .mod (by decide)
  · exact joined_about (hl ht) (.comp .equal .no) (.comp .equal .yes) .unequal .mod (by decide)
  · exact joined_about (hl ht) (.comp .equal .mod) (.comp .equal .no) .unequal .yes (by decide)
  · exact joined_about (hl ht) (.comp .equal .no) (.comp .equal .mod) .unequal .yes (by decide)
  · refine joined_symbol (fun v => ?_) fun _ hP _ _ => hP.yn .and
    rw [Junction.op_comm]
    exact (Tristate.op_eNot .or (Valuation.symTri_ne_mod ht)).symm
  · refine joined_symbol (fun v => ?_) fun _ hP _ _ => hP.yn .and
    exact (Tristate.op_eNot .or (Valuation.symTri_ne_mod ht)).symm

/-- Two constants are told apart by their texts. -/
theorem joined_const (h : joinAndConst S sym b c = some tmp)
    (hv : ∀ v : Valuation S, Junction.and.op (exprCalcValue v e₁) (exprCalcValue v e₂) =
      Junction.and.op (exprCalcValue v (.comp .equal sym b))
        (exprCalcValue v (.comp .unequal sym c))) : Joined S .and e₁ e₂ tmp := by
  unfold joinAndConst at h
  split_ifs at h with hconst heq
  · obtain rfl := Option.some.inj h
    obtain ⟨hc, hb⟩ := Bool.and_eq_true_iff.mp hconst
    refine joined_comp fun v => ?_
    have hne : v.symGetStringValue b ≠ v.symGetStringValue c := fun h =>
      heq (Valuation.symGetStringValue_const hb hc h)
    rw [hv]
    by_cases hs : v.symGetStringValue sym = v.symGetStringValue b
    · simp [exprCalcValue, hs, hne, Junction.op]
    · simp only [exprCalcValue, hs, if_false]
      exact (bot_inf_eq _).symm
  · obtain rfl := Option.some.inj h
    obtain rfl := not_not.mp heq
    refine joined_symbol (fun v => ?_) fun _ hP _ _ => hP.yn .or
    rw [hv]
    simp only [exprCalcValue, Valuation.symTri]
    split_ifs <;> rfl

omit [DecidableEq σ] in
/-- What is neither of two values is the third. -/
theorem joined_unequal (h : joinAndUnequal sym b c = some tmp) (hl : sym.Logical S) :
    Joined S .and (.comp .unequal sym b) (.comp .unequal sym c) tmp := by
  unfold joinAndUnequal at h
  split at h <;> simp only [Option.some.injEq, reduceCtorEq] at h <;> subst h
  · exact joined_about hl (.comp .unequal .yes) (.comp .unequal .no) .equal .mod (by decide)
  · exact joined_about hl (.comp .unequal .no) (.comp .unequal .yes) .equal .mod (by decide)
  · exact joined_about hl (.comp .unequal .yes) (.comp .unequal .mod) .equal .no (by decide)
  · exact joined_about hl (.comp .unequal .mod) (.comp .unequal .yes) .equal .no (by decide)
  · exact joined_about hl (.comp .unequal .mod) (.comp .unequal .no) .equal .yes (by decide)
  · exact joined_about hl (.comp .unequal .no) (.comp .unequal .mod) .equal .yes (by decide)

theorem joined_and (h : joinAndSym S sym e₁ e₂ = some tmp) (h₁ : joinSym₁ e₁ = some sym)
    (h₂ : joinSym₂ e₂ = some sym) (hl : sym.Logical S) : Joined S .and e₁ e₂ tmp := by
  unfold joinAndSym at h
  split at h <;> try (obtain rfl := Option.some.inj h₁; obtain rfl := Option.some.inj h₂)
  · obtain rfl := Option.some.inj h
    exact joined_about hl .symbol (.comp .equal .yes) .equal .yes (by decide)
  · obtain rfl := Option.some.inj h
    exact joined_about hl (.comp .equal .yes) .symbol .equal .yes (by decide)
  · obtain rfl := Option.some.inj h
    exact joined_self hl .symbol (.comp .unequal .no) (by decide) (.inl rfl)
  · obtain rfl := Option.some.inj h
    exact joined_self hl (.comp .unequal .no) .symbol (by decide) (.inr rfl)
  · obtain rfl := Option.some.inj h
    exact joined_about hl .symbol (.comp .unequal .mod) .equal .yes (by decide)
  · obtain rfl := Option.some.inj h
    exact joined_about hl (.comp .unequal .mod) .symbol .equal .yes (by decide)
  · split_ifs at h
    exact joined_const h fun _ => rfl
  · split_ifs at h
    exact joined_const h fun _ => Junction.op_comm ..
  · split_ifs at h
    exact joined_unequal h hl
  · simp at h

/-- Joined expressions have the value of the junction, whatever the symbols are. -/
theorem exprJoin_of_size {fuel n : ℕ} (hn : e₁.size + e₂.size ≤ n) (hfuel : 4 * n ≤ fuel) :
    Returns (exprJoin S fuel type e₁ e₂) fun r => ∀ tmp, r = some tmp →
      Joined S type e₁ e₂ tmp := by
  refine (exprEq_of_size hn (by omega)).bind fun b hb => ?_
  have hnone : Returns (pure none : Option (Option (Expr σ))) fun r => ∀ tmp, r = some tmp →
      Joined S type e₁ e₂ tmp := returns_pure.mpr (by simp)
  split_ifs with hbt
  · refine returns_pure.mpr fun tmp htmp => ?_
    obtain rfl := Option.some.inj htmp
    have hs := e₂.size_pos
    have hl := e₂.leaves_pos
    refine ⟨id, by omega, by omega, fun v => ?_, fun _ _ h _ => h⟩
    rw [← hb hbt, type.op_self]
  · split
    · rename_i sym₁ sym₂ h₁ h₂
      split_ifs with hne htype
      · exact hnone
      · exact hnone
      obtain rfl := not_not.mp hne
      have hl : sym₁.Logical S := Symbol.logical_of_type (by
        by_contra h
        exact htype (not_or.mp h))
      cases type with
      | or => exact returns_pure.mpr fun tmp htmp => joined_or htmp h₁ h₂
      | and => exact returns_pure.mpr fun tmp htmp => joined_and htmp h₁ h₂ hl
    · exact hnone

/-- What `expr_join_or` and `expr_join_and` make of two operands has the value of the junction,
whatever the symbols are, and fewer symbols and comparisons. -/
theorem exprJoin_spec (S : Symbols σ) (type : Junction) (e₁ e₂ : Expr σ) (k : ℕ) :
    ∃ r, exprJoin S (4 * (e₁.size + e₂.size) + k) type e₁ e₂ = some r ∧
      ∀ tmp, r = some tmp → tmp.leaves < e₁.leaves + e₂.leaves ∧
        ∀ v : Valuation S, exprCalcValue v tmp = exprCalcValue v (.two type e₁ e₂) := by
  obtain ⟨r, hr, h⟩ : Returns (exprJoin S _ type e₁ e₂) _ :=
    exprJoin_of_size le_rfl (Nat.le_add_right (4 * (e₁.size + e₂.size)) k)
  refine ⟨r, hr, fun tmp htmp => ⟨(h tmp htmp).leaves, fun v => ?_⟩⟩
  rw [(h tmp htmp).calcValue v, exprCalcValue_two]

end Join

end Makeroot
