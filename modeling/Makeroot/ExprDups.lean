import Makeroot.ExprJoin

/-!
# Expressions without duplicates

`expr_eliminate_dups` goes through the pairs of operands of a junction in place. Its first pass
joins two of them into one, which never changes the value. Its second pass takes a junction that
stands beside its own complement for `n` or `y`. That is so of `n` and `y`, but not of `m`, so that
the value is kept if no symbol of the expression is `m` (`exprEliminateDups_spec`). It is done
again until nothing changes, and each time there are fewer operands.
-/

namespace Makeroot

open GnuMake DeMorgan Fuel

variable {σ : Type}

/-! ## Places in an expression -/

/-- An operand of a junction. -/
inductive Side
  | left
  | right
deriving DecidableEq

/-- Where a pointer to an expression is : the way to it from the root. -/
abbrev Slot := List Side

def Expr.at : Expr σ → Slot → Option (Expr σ)
  | e, [] => some e
  | .two _ e₁ _, .left :: p => e₁.at p
  | .two _ _ e₂, .right :: p => e₂.at p
  | _, _ :: _ => none

def Expr.put : Expr σ → Slot → Expr σ → Expr σ
  | _, [], x => x
  | .two t e₁ e₂, .left :: p, x => .two t (e₁.put p x) e₂
  | .two t e₁ e₂, .right :: p, x => .two t e₁ (e₂.put p x)
  | e, _ :: _, _ => e

/-- `x` is at `p`, below junctions of the type only. -/
inductive Within (type : Junction) : Expr σ → Slot → Expr σ → Prop
  | here (e : Expr σ) : Within type e [] e
  | left {e₁ e₂ x : Expr σ} {p : Slot} (h : Within type e₁ p x) :
    Within type (.two type e₁ e₂) (.left :: p) x
  | right {e₁ e₂ x : Expr σ} {p : Slot} (h : Within type e₂ p x) :
    Within type (.two type e₁ e₂) (.right :: p) x

section Slots

variable {S : Symbols σ} {type : Junction} {e e₁ e₂ x x' y z : Expr σ} {p q : Slot}

theorem Within.at (h : Within type e p x) : e.at p = some x := by
  induction h with
  | here e => cases e <;> rfl
  | left h ih => exact ih
  | right h ih => exact ih

theorem Within.put_self (h : Within type e p x) : e.put p x = e := by
  induction h with
  | here e => cases e <;> rfl
  | left h ih => rw [Expr.put, ih]
  | right h ih => rw [Expr.put, ih]

theorem Expr.put_nil (e x : Expr σ) : e.put [] x = x := by
  cases e <;> rfl

theorem Within.put (h : Within type e p x) (y : Expr σ) : Within type (e.put p y) p y := by
  induction h with
  | here e => rw [Expr.put_nil]; exact .here y
  | left h ih => exact .left ih
  | right h ih => exact .right ih

theorem Within.append_left (h : Within type e p (.two type e₁ e₂)) :
    Within type e (p ++ [.left]) e₁ := by
  generalize hx : Expr.two type e₁ e₂ = x at h
  induction h with
  | here e =>
    subst hx
    exact .left (.here e₁)
  | left h ih => exact .left (ih hx)
  | right h ih => exact .right (ih hx)

theorem Within.append_right (h : Within type e p (.two type e₁ e₂)) :
    Within type e (p ++ [.right]) e₂ := by
  generalize hx : Expr.two type e₁ e₂ = x at h
  induction h with
  | here e =>
    subst hx
    exact .right (.here e₂)
  | left h ih => exact .left (ih hx)
  | right h ih => exact .right (ih hx)

/-- Another place is not touched, if there is an operand and no junction. -/
theorem Within.put_ne (h : Within type e p x) (hq : Within type e q z) (hx : x.operands type = none)
    (hne : p ≠ q) (hz : z.operands type = none) (y : Expr σ) : Within type (e.put p y) q z := by
  induction h generalizing q with
  | here e =>
    cases hq with
    | here => exact absurd rfl hne
    | left hq => simp at hx
    | right hq => simp at hx
  | left h ih =>
    cases hq with
    | here => simp at hz
    | left hq => exact .left (ih hq hx fun heq => hne (heq ▸ rfl))
    | right hq => exact .right hq
  | right h ih =>
    cases hq with
    | here => simp at hz
    | left hq => exact .left hq
    | right hq => exact .right (ih hq hx fun heq => hne (heq ▸ rfl))

theorem Within.size (h : Within type e p x) (y : Expr σ) :
    (e.put p y).size + x.size = e.size + y.size := by
  induction h with
  | here e => rw [Expr.put_nil]; exact Nat.add_comm ..
  | left h ih | right h ih =>
    simp only [Expr.put, Expr.size]
    omega

theorem Within.leaves (h : Within type e p x) (y : Expr σ) :
    (e.put p y).leaves + x.leaves = e.leaves + y.leaves := by
  induction h with
  | here e => rw [Expr.put_nil]; exact Nat.add_comm ..
  | left h ih | right h ih =>
    simp only [Expr.put, Expr.leaves]
    omega

/-- The value is that of the operand in one place, and of the others. -/
theorem Within.calcValue (h : Within type e p x) (v : Valuation S) (y : Expr σ) :
    exprCalcValue v (e.put p y) = type.op (exprCalcValue v y)
      (exprCalcValue v (e.put p (.symbol (unitSymbol type)))) := by
  induction h with
  | here e => simp [Expr.put_nil]
  | left h ih =>
    rw [Expr.put, Expr.put, exprCalcValue_two, exprCalcValue_two, ih, type.op_assoc]
  | right h ih =>
    rw [Expr.put, Expr.put, exprCalcValue_two, exprCalcValue_two, ih]
    ac_rfl

/-- The value of an operand is part of the whole. -/
theorem Within.op_calcValue (h : Within type e p x) (v : Valuation S) :
    type.op (exprCalcValue v x) (exprCalcValue v e) = exprCalcValue v e := by
  have he := h.calcValue v x
  rw [h.put_self] at he
  rw [he, ← type.op_assoc, type.op_self]

theorem Within.hereditary {P : Expr σ → Prop} (hP : Hereditary P) (h : Within type e p x)
    (he : P e) : P x ∧ ∀ y, P y → P (e.put p y) := by
  induction h with
  | here e => exact ⟨he, fun y hy => by rwa [Expr.put_nil]⟩
  | left h ih =>
    obtain ⟨h₁, h₂⟩ := (hP.two ..).mp he
    exact ⟨(ih h₁).1, fun y hy => (hP.two ..).mpr ⟨(ih h₁).2 y hy, h₂⟩⟩
  | right h ih =>
    obtain ⟨h₁, h₂⟩ := (hP.two ..).mp he
    exact ⟨(ih h₂).1, fun y hy => (hP.two ..).mpr ⟨h₁, (ih h₂).2 y hy⟩⟩

/-- An expression that is not reduced, or an operand `y` or `n`, in a place of a junction. -/
theorem Within.not_reduced (h : Within type e p x) (hy : ¬y.Reduced ∨ y.IsYn ∧ p ≠ []) :
    ¬(e.put p y).Reduced := by
  induction h with
  | here e => simpa [Expr.put_nil] using hy
  | @left e₁ e₂ x p h ih =>
    rintro ⟨⟨hr, -⟩, hyn, -⟩
    by_cases hp : p = []
    · subst hp
      rw [Expr.put_nil] at hr hyn
      rcases hy with hy | ⟨hy, -⟩
      · exact hy hr
      · exact hyn hy
    · exact ih (hy.imp_right fun hy => ⟨hy.1, hp⟩) hr
  | @right e₁ e₂ x p h ih =>
    rintro ⟨⟨-, hr⟩, -, hyn⟩
    by_cases hp : p = []
    · subst hp
      rw [Expr.put_nil] at hr hyn
      rcases hy with hy | ⟨hy, -⟩
      · exact hy hr
      · exact hyn hy
    · exact ih (hy.imp_right fun hy => ⟨hy.1, hp⟩) hr

/-! ### The same junctions -/

/-- The junctions of the type are the same, down to the operands. -/
inductive Alike (type : Junction) : Expr σ → Expr σ → Prop
  | two {e₁ e₂ x₁ x₂ : Expr σ} (h₁ : Alike type e₁ x₁) (h₂ : Alike type e₂ x₂) :
    Alike type (.two type e₁ e₂) (.two type x₁ x₂)
  | operand {e x : Expr σ} (he : e.operands type = none) (hx : x.operands type = none) :
    Alike type e x

theorem Alike.refl (type : Junction) (e : Expr σ) : Alike type e e := by
  induction e with
  | two t e₁ e₂ ih₁ ih₂ =>
    by_cases ht : t = type
    · subst ht
      exact .two ih₁ ih₂
    · exact .operand (by simp [Expr.operands, ht]) (by simp [Expr.operands, ht])
  | _ => exact .operand rfl rfl

theorem Alike.trans (h : Alike type e x) (h' : Alike type x y) : Alike type e y := by
  induction h generalizing y with
  | two h₁ h₂ ih₁ ih₂ =>
    cases h' with
    | two h₁' h₂' => exact .two (ih₁ h₁') (ih₂ h₂')
    | operand he hx => simp at he
  | operand he hx =>
    cases h' with
    | two h₁ h₂ => simp at hx
    | operand hx' hy => exact .operand he hy

theorem Alike.operands_eq_none (h : Alike type e x) (he : e.operands type = none) :
    x.operands type = none := by
  cases h with
  | two => simp at he
  | operand _ hx => exact hx

theorem Alike.exists_two (h : Alike type (.two type e₁ e₂) x) : ∃ x₁ x₂, x = .two type x₁ x₂ ∧
    Alike type e₁ x₁ ∧ Alike type e₂ x₂ := by
  cases h with
  | two h₁ h₂ => exact ⟨_, _, rfl, h₁, h₂⟩
  | operand he => simp at he

theorem Alike.within (h : Alike type e x) (hp : Within type e p y) :
    ∃ z, Within type x p z ∧ Alike type y z := by
  induction hp generalizing x with
  | here e => exact ⟨x, .here x, h⟩
  | left hp ih =>
    obtain ⟨x₁, x₂, rfl, h₁, -⟩ := h.exists_two
    obtain ⟨z, hz, ha⟩ := ih h₁
    exact ⟨z, .left hz, ha⟩
  | right hp ih =>
    obtain ⟨x₁, x₂, rfl, -, h₂⟩ := h.exists_two
    obtain ⟨z, hz, ha⟩ := ih h₂
    exact ⟨z, .right hz, ha⟩

theorem Within.alike_put (h : Within type e p x) (hx : x.operands type = none)
    (hy : y.operands type = none) : Alike type e (e.put p y) := by
  induction h with
  | here e => rw [Expr.put_nil]; exact .operand hx hy
  | left h ih => exact .two (ih hx) (.refl ..)
  | right h ih => exact .two (.refl ..) (ih hx)

/-- The junctions of the type and their operands. -/
def Expr.region (type : Junction) : Expr σ → ℕ
  | .two t e₁ e₂ => if t = type then e₁.region type + e₂.region type + 1 else 1
  | _ => 1

theorem Alike.region (h : Alike type e x) : x.region type = e.region type := by
  have hnone : ∀ e : Expr σ, e.operands type = none → e.region type = 1 := fun e he => by
    cases e with
    | two t e₁ e₂ =>
      have ht : t ≠ type := fun ht => by simp [Expr.operands, ht] at he
      simp [Expr.region, ht]
    | _ => rfl
  induction h with
  | two h₁ h₂ ih₁ ih₂ => simp [Expr.region, ih₁, ih₂]
  | operand he hx => rw [hnone _ he, hnone _ hx]

theorem Expr.region_pos (type : Junction) (e : Expr σ) : 0 < e.region type := by
  unfold region
  split
  · split_ifs <;> omega
  · exact Nat.one_pos

theorem Expr.region_le_size (type : Junction) (e : Expr σ) : e.region type ≤ e.size := by
  induction e with
  | two t e₁ e₂ ih₁ ih₂ =>
    rw [region, size]
    split_ifs <;> omega
  | symbol | comp => exact le_rfl
  | not e ih => exact Nat.le_add_left ..

end Slots

/-! ## The passes -/

/-- An expression that is changed in place, and whether it has been (`trans_count`). -/
abbrev Work (σ : Type) := Expr σ × Bool

section Passes

variable [DecidableEq σ] (S : Symbols σ)

/-- The pairs of operands of a junction, one after another. Both passes go through them so. With
`through` the junction of the second operand is taken for an operand too, after its own. -/
def eachPair (through : Bool) (visit : Slot → Slot → Work σ → Option (Work σ)) (type : Junction) :
    ℕ → Slot → Slot → Work σ → Option (Work σ)
  | 0, _, _, _ => none
  | fuel + 1, p₁, p₂, w => do
    let e₁ ← w.1.at p₁
    let e₂ ← w.1.at p₂
    match e₁.operands type with
    | some _ => do
      let w ← eachPair through visit type fuel (p₁ ++ [.left]) p₂ w
      eachPair through visit type fuel (p₁ ++ [.right]) p₂ w
    | none =>
      match e₂.operands type with
      | some _ => do
        let w ← eachPair through visit type fuel p₁ (p₂ ++ [.left]) w
        let w ← eachPair through visit type fuel p₁ (p₂ ++ [.right]) w
        if through then visit p₁ p₂ w else pure w
      | none => if p₁ = p₂ then pure w else visit p₁ p₂ w

/-- The two operands of `expr_eliminate_dups1`. -/
def joinPair (dups1 : Junction → Work σ → Option (Work σ)) (fuel : ℕ) (type : Junction)
    (p₁ p₂ : Slot) (w : Work σ) : Option (Work σ) := do
  let e₁ ← w.1.at p₁
  let (e₁, changed) ← (match e₁ with
    | .two t .. => dups1 t (e₁, w.2)
    | _ => some (e₁, w.2))
  let e := w.1.put p₁ e₁
  let e₂ ← e.at p₂
  match ← exprJoin S fuel type e₁ e₂ with
  | some tmp => pure ((e.put p₁ (.symbol (unitSymbol type))).put p₂ tmp, true)
  | none => pure (e, changed)

/-- `expr_eliminate_dups1`. -/
def eliminateDups1 : ℕ → Junction → Work σ → Option (Work σ)
  | 0, _, _ => none
  | fuel + 1, type, w =>
    eachPair false (joinPair S (eliminateDups1 fuel) fuel type) type fuel [] [] w

/-- The two operands of `expr_eliminate_dups2`. -/
def complementPair (dups2 : Junction → Work σ → Option (Work σ)) (fuel : ℕ)
    (p₁ p₂ : Slot) (w : Work σ) : Option (Work σ) := do
  let e₁ ← w.1.at p₁
  match e₁ with
  | .two t .. => do
    let (e₁, changed) ← dups2 t (e₁, w.2)
    let e := w.1.put p₁ e₁
    -- (FOO || BAR) && (!FOO && !BAR) -> n, (FOO && BAR) || (!FOO || !BAR) -> y
    let tmp₁ ← exprTransform S fuel (.not e₁)
    let tmp₂ ← e.at p₂
    let (_, tmp₁, _) ← exprExtractEqOf S fuel t.dual tmp₁ tmp₂
    if tmp₁ = .symbol (unitSymbol t.dual) then pure (e.put p₁ (.symbol (unitSymbol t)), true)
    else pure (e, changed)
  | _ => pure w

/-- `expr_eliminate_dups2`. -/
def eliminateDups2 : ℕ → Junction → Work σ → Option (Work σ)
  | 0, _, _ => none
  | fuel + 1, type, w =>
    eachPair true (complementPair S (eliminateDups2 fuel) fuel) type fuel [] [] w

/-- `expr_eliminate_dups`. -/
def exprEliminateDups : ℕ → Expr σ → Option (Expr σ)
  | 0, _ => none
  | fuel + 1, e => do
    let (e, changed) ← (match e with
      | .two type .. => do
        let w ← eliminateDups1 S fuel type (e, false)
        eliminateDups2 S fuel type w
      | _ => some (e, false))
    if changed then exprEliminateDups fuel (exprEliminateYn e) else pure e

end Passes

/-! ## What a pass does -/

/-- A pass of operands of the type keeps the value where `Q` is so. -/
structure Pass (S : Symbols σ) (Q : Valuation S → Expr σ → Prop) (type : Junction) (w w' : Work σ) :
    Prop where
  alike : Alike type w.1 w'.1
  size : w'.1.size ≤ w.1.size
  leaves : w'.1.leaves ≤ w.1.leaves
  keep : ∀ P, Hereditary P → P w.1 → P w'.1
  calcValue : ∀ v, Q v w.1 → exprCalcValue v w'.1 = exprCalcValue v w.1
  changed : w' = w ∨ w'.2 = true ∧ ¬w'.1.Reduced

section Pass

variable {S : Symbols σ} {Q : Valuation S → Expr σ → Prop} {type : Junction} {w w' w'' : Work σ}
  {p p₁ p₂ : Slot} {e x x₁ x₂ y : Expr σ}

theorem Pass.refl (Q : Valuation S → Expr σ → Prop) (type : Junction) (w : Work σ) :
    Pass S Q type w w :=
  ⟨.refl .., le_rfl, le_rfl, fun _ _ => id, fun _ _ => rfl, .inl rfl⟩

theorem Pass.trans (hQ : ∀ v, Hereditary (Q v)) (h : Pass S Q type w w')
    (h' : Pass S Q type w' w'') : Pass S Q type w w'' := by
  refine ⟨h.alike.trans h'.alike, h'.size.trans h.size, h'.leaves.trans h.leaves,
    fun P hP hw => h'.keep P hP (h.keep P hP hw), fun v hv => ?_, ?_⟩
  · rw [h'.calcValue v (h.keep _ (hQ v) hv), h.calcValue v hv]
  · rcases h'.changed with heq | hc
    · rw [heq]
      exact h.changed
    · exact .inr hc

/-- A pass of an operand is one of the whole. -/
theorem Pass.inner (hQ : ∀ v, Hereditary (Q v)) {t : Junction} (h : Within type w.1 p x)
    (hx : x.operands type = none) (hy : y.operands type = none) {c : Bool}
    (hpass : Pass S Q t (x, w.2) (y, c)) : Pass S Q type w (w.1.put p y, c) := by
  have hsize := h.size y
  have hleaves := h.leaves y
  have hs := hpass.size
  have hl := hpass.leaves
  refine ⟨h.alike_put hx hy, by dsimp only at *; omega, by dsimp only at *; omega,
    fun P hP hw => ?_, fun v hv => ?_, ?_⟩
  · obtain ⟨hPx, hput⟩ := h.hereditary hP hw
    exact hput y (hpass.keep P hP hPx)
  · have heq : exprCalcValue v y = exprCalcValue v x :=
      hpass.calcValue v (h.hereditary (hQ v) hv).1
    rw [h.calcValue v y, heq, ← h.calcValue v x, h.put_self]
  · rcases hpass.changed with heq | ⟨hc, hr⟩
    · obtain ⟨rfl, rfl⟩ := Prod.mk.inj heq
      exact .inl (by rw [h.put_self])
    · exact .inr ⟨hc, h.not_reduced (.inl hr)⟩

/-- An operand of a junction is in one place, if the root is none. -/
theorem Within.ne_nil (h₁ : Within type e p₁ x₁) (hx₁ : x₁.operands type = none)
    (h₂ : Within type e p₂ x₂) (hne : p₁ ≠ p₂) : p₁ ≠ [] := by
  rintro rfl
  cases h₁
  cases h₂ with
  | here => exact hne rfl
  | left | right => simp at hx₁

theorem Within.size_lt (h : Within type e p x) (hp : p ≠ []) : x.size < e.size := by
  have hle : ∀ {e x : Expr σ} {p : Slot}, Within type e p x → x.size ≤ e.size :=
    fun {e x p} h => by
      have hs := h.size (.symbol .no)
      have hpos := (e.put p (.symbol .no)).size_pos
      simp only [Expr.size] at hs
      omega
  cases h with
  | here => exact absurd rfl hp
  | left h | right h =>
    have := hle h
    rw [Expr.size]
    omega

/-- Two operands have been joined. -/
theorem pass_join (h₁ : Within type e p₁ x₁) (hx₁ : x₁.operands type = none)
    (h₂ : Within type e p₂ x₂) (hx₂ : x₂.operands type = none) (hne : p₁ ≠ p₂)
    (hj : Joined S type x₁ x₂ y) (c : Bool) :
    Pass S Q type (e, c) ((e.put p₁ (.symbol (unitSymbol type))).put p₂ y, true) := by
  have h₂' := h₁.put_ne h₂ hx₁ hne hx₂ (.symbol (unitSymbol type))
  have hlast := h₂'.put_ne (h₁.put (.symbol (unitSymbol type))) hx₂ hne.symm rfl y
  refine ⟨(h₁.alike_put hx₁ rfl).trans (h₂'.alike_put hx₂ (hj.operands hx₁)), ?_, ?_,
    fun P hP hw => ?_, fun v _ => ?_, .inr ⟨rfl, ?_⟩⟩
  · have hs₁ := h₁.size (.symbol (unitSymbol type))
    have hs₂ := h₂'.size y
    have hs := hj.size
    simp only [Expr.size] at *
    omega
  · have hl₁ := h₁.leaves (.symbol (unitSymbol type))
    have hl₂ := h₂'.leaves y
    have hl := hj.leaves
    simp only [Expr.leaves] at *
    omega
  · obtain ⟨hP₁, hput₁⟩ := h₁.hereditary hP hw
    exact (h₂'.hereditary hP (hput₁ _ (hP.yn _))).2 y
      (hj.keep P hP hP₁ (h₂.hereditary hP hw).1)
  · -- the unit makes no difference, so that the others are the same in both
    have hrest := h₂'.calcValue v x₂
    rw [h₂'.put_self] at hrest
    have hwhole := h₁.calcValue v x₁
    rw [h₁.put_self] at hwhole
    rw [h₂'.calcValue v y, hj.calcValue v, hwhole, hrest, type.op_assoc]
  · have hr := hlast.not_reduced (y := .symbol (unitSymbol type))
      (.inr ⟨⟨type, rfl⟩, h₁.ne_nil hx₁ h₂ hne⟩)
    rwa [hlast.put_self] at hr

/-- An operand beside its complement is nothing, where it is not `m`. -/
theorem pass_complement (h₁ : Within type e p₁ x₁) (hx₁ : x₁.operands type = none)
    (h₂ : Within type e p₂ x₂) (hne : p₁ ≠ p₂)
    (hc : ∀ v : Valuation S, type.op (exprCalcValue v x₂) (exprCalcValue v x₁).eNot =
      exprCalcValue v x₂) (c : Bool) :
    Pass S (fun v e => e.Definite v) type (e, c)
      (e.put p₁ (.symbol (unitSymbol type.dual)), true) := by
  refine ⟨h₁.alike_put hx₁ rfl, ?_, ?_, fun P hP hw => ?_, fun v hv => ?_, .inr ⟨rfl, ?_⟩⟩
  · have hs := h₁.size (.symbol (unitSymbol type.dual))
    have := x₁.size_pos
    simp only [Expr.size] at *
    omega
  · have hl := h₁.leaves (.symbol (unitSymbol type.dual))
    have := x₁.leaves_pos
    simp only [Expr.leaves] at *
    omega
  · exact (h₁.hereditary hP hw).2 _ (hP.yn _)
  · have hx : exprCalcValue v x₁ ≠ .mod :=
      (h₁.hereditary (hereditary_definite v) hv).1.calcValue
    have he₁ := h₁.op_calcValue v
    have he₂ := h₂.op_calcValue v
    have hzero : exprCalcValue v e = type.dual.unit :=
      calc exprCalcValue v e
          = type.op (exprCalcValue v x₂) (type.op (exprCalcValue v x₁) (exprCalcValue v e)) := by
            rw [he₁, he₂]
        _ = type.op (type.op (exprCalcValue v x₂) (exprCalcValue v x₁).eNot)
              (type.op (exprCalcValue v x₁) (exprCalcValue v e)) := by rw [hc v]
        _ = type.op (type.op (exprCalcValue v x₁) (exprCalcValue v x₁).eNot)
              (type.op (exprCalcValue v x₂) (exprCalcValue v e)) := by ac_rfl
        _ = type.dual.unit := by rw [Tristate.op_eNot type hx, type.dual_unit_op]
    rw [h₁.calcValue, exprCalcValue_symbol, symTri_unitSymbol, type.dual_unit_op, hzero]
  · exact h₁.not_reduced (.inr ⟨⟨_, rfl⟩, h₁.ne_nil hx₁ h₂ hne⟩)

variable {fuel n N : ℕ}

/-- All pairs are gone through, if what is done to one is a pass. -/
theorem eachPair_pass (hQ : ∀ v, Hereditary (Q v)) {through : Bool}
    {visit : Slot → Slot → Work σ → Option (Work σ)}
    (hvisit : ∀ w p₁ p₂ x₁ x₂, w.1.size ≤ N → Within type w.1 p₁ x₁ → x₁.operands type = none →
      Within type w.1 p₂ x₂ → (through = false → x₂.operands type = none) → p₁ ≠ p₂ →
      Returns (visit p₁ p₂ w) (Pass S Q type w)) (fuel : ℕ) :
    ∀ w p₁ p₂ x₁ x₂, w.1.size ≤ N → Within type w.1 p₁ x₁ → Within type w.1 p₂ x₂ →
      x₁.region type + x₂.region type ≤ fuel →
      Returns (eachPair through visit type fuel p₁ p₂ w) (Pass S Q type w) := by
  induction fuel with
  | zero =>
    intro w p₁ p₂ x₁ x₂ _ _ _ hn
    have := x₁.region_pos type
    omega
  | succ fuel ih =>
    intro w p₁ p₂ x₁ x₂ hN h₁ h₂ hn
    -- what is in a place after a pass is as it was, and the expression is no larger
    have hnext : ∀ w' p₁ p₂ y₁ y₂, Pass S Q type w w' → Within type w.1 p₁ y₁ →
        Within type w.1 p₂ y₂ → y₁.region type + y₂.region type ≤ fuel →
        Returns (eachPair through visit type fuel p₁ p₂ w') (Pass S Q type w) :=
      fun w' p₁ p₂ y₁ y₂ hw' hy₁ hy₂ hle => by
        obtain ⟨z₁, hz₁, ha₁⟩ := hw'.alike.within hy₁
        obtain ⟨z₂, hz₂, ha₂⟩ := hw'.alike.within hy₂
        refine (ih w' p₁ p₂ z₁ z₂ (hw'.size.trans hN) hz₁ hz₂ ?_).mono fun w'' => hw'.trans hQ
        rw [ha₁.region, ha₂.region]
        exact hle
    rw [eachPair, h₁.at, h₂.at]
    simp only [Option.bind_eq_bind, Option.bind_some]
    have hpos₁ := x₁.region_pos type
    have hpos₂ := x₂.region_pos type
    cases hx₁ : x₁.operands type with
    | some l =>
      obtain rfl : x₁ = .two type l.1 l.2 := Expr.operands_eq_some.mp hx₁
      simp only [Expr.region, if_true] at hn
      refine (hnext w _ _ _ _ (.refl ..) h₁.append_left h₂ (by omega)).bind fun w' hw' => ?_
      exact hnext w' _ _ _ _ hw' h₁.append_right h₂ (by omega)
    | none =>
      cases hx₂ : x₂.operands type with
      | some l =>
        obtain rfl : x₂ = .two type l.1 l.2 := Expr.operands_eq_some.mp hx₂
        have hne : p₁ ≠ p₂ := fun heq => by
          obtain rfl := Option.some.inj (h₁.at.symm.trans (heq ▸ h₂.at))
          simp at hx₁
        simp only [Expr.region, if_true] at hn
        refine (hnext w _ _ _ _ (.refl ..) h₁ h₂.append_left (by omega)).bind fun w' hw' => ?_
        refine (hnext w' _ _ _ _ hw' h₁ h₂.append_right (by omega)).bind fun w'' hw'' => ?_
        cases through with
        | false => exact returns_pure.mpr hw''
        | true =>
          obtain ⟨z₁, hz₁, ha₁⟩ := hw''.alike.within h₁
          obtain ⟨z₂, hz₂, -⟩ := hw''.alike.within h₂
          exact (hvisit w'' p₁ p₂ z₁ z₂ (hw''.size.trans hN) hz₁ (ha₁.operands_eq_none hx₁) hz₂
            (by simp) hne).mono fun w₃ => hw''.trans hQ
      | none =>
        dsimp only
        split_ifs with hp
        · exact returns_pure.mpr (.refl ..)
        · exact hvisit w p₁ p₂ x₁ x₂ hN h₁ hx₁ h₂ (fun _ => hx₂) hp

/-- A junction that is an operand is of the other type, and stays an operand. -/
theorem Pass.operands {t : Junction} {l r : Expr σ} {c : Bool} {w' : Work σ}
    (h : Pass S Q t (.two t l r, c) w') (hx : (Expr.two t l r).operands type = none) :
    t = type.dual ∧ w'.1.operands type = none := by
  have hne : t ≠ type := fun ht => by
    subst ht
    simp at hx
  obtain ⟨x₁, x₂, heq, -, -⟩ := h.alike.exists_two
  exact ⟨Junction.eq_dual_of_ne hne, by simp [heq, Expr.operands, hne]⟩

theorem hereditary_true : Hereditary fun _ : Expr σ => True :=
  ⟨fun _ _ _ => by simp, fun _ => trivial, fun _ _ _ => trivial⟩

theorem Expr.height_le_size (e : Expr σ) : e.height ≤ e.size := by
  induction e with
  | symbol => exact Nat.zero_le _
  | comp => exact le_rfl
  | not e ih => exact Nat.add_le_add_right ih 1
  | two t e₁ e₂ ih₁ ih₂ =>
    rw [height, size]
    omega

theorem Expr.leaves_le_size (e : Expr σ) : e.leaves ≤ e.size := by
  induction e with
  | symbol | comp => exact le_rfl
  | not e ih => exact ih.trans (Nat.le_succ _)
  | two t e₁ e₂ ih₁ ih₂ =>
    rw [leaves, size]
    omega

theorem Expr.Nnf.size_lt (h : e.Nnf) : e.size < 3 * e.leaves := by
  induction e with
  | symbol | comp => simp [Expr.size, Expr.leaves]
  | not e =>
    obtain ⟨sym, rfl⟩ := h
    simp [Expr.size, Expr.leaves]
  | two t e₁ e₂ ih₁ ih₂ =>
    have h₁ := ih₁ h.1
    have h₂ := ih₂ h.2
    rw [Expr.size, Expr.leaves]
    omega

variable [DecidableEq σ]

theorem joinPair_pass {dups1 : Junction → Work σ → Option (Work σ)}
    (hdups : ∀ t l r c, (Expr.two t l r).size < N →
      Returns (dups1 t (.two t l r, c)) (Pass S (fun _ _ => True) t (.two t l r, c)))
    (hfuel : 8 * N ≤ fuel) (hN : w.1.size ≤ N) (h₁ : Within type w.1 p₁ x₁)
    (hx₁ : x₁.operands type = none) (h₂ : Within type w.1 p₂ x₂)
    (hx₂ : x₂.operands type = none) (hne : p₁ ≠ p₂) :
    Returns (joinPair S dups1 fuel type p₁ p₂ w) (Pass S (fun _ _ => True) type w) := by
  have hlt₁ := h₁.size_lt (h₁.ne_nil hx₁ h₂ hne)
  have hlt₂ := h₂.size_lt (h₂.ne_nil hx₂ h₁ hne.symm)
  rw [joinPair, h₁.at]
  simp only [Option.bind_eq_bind, Option.bind_some]
  -- the first operand has been gone through before it is joined
  refine Returns.bind (P := fun r => r.1.operands type = none ∧ r.1.size ≤ x₁.size ∧
    Pass S (fun _ _ => True) type w (w.1.put p₁ r.1, r.2)) ?_ fun r hr => ?_
  · have hsame : Pass S (fun _ _ => True) type w (w.1.put p₁ x₁, w.2) := by
      rw [h₁.put_self]
      exact .refl ..
    cases x₁ with
    | two t l r =>
      refine (hdups t l r w.2 (by omega)).mono fun r hr => ?_
      have hop := (hr.operands hx₁).2
      exact ⟨hop, hr.size, hr.inner (fun _ => hereditary_true) h₁ hx₁ hop⟩
    | _ => exact returns_some.mpr ⟨hx₁, le_rfl, hsame⟩
  obtain ⟨y₁, c⟩ := r
  obtain ⟨hy₁, hsize, hpass⟩ := hr
  have h₂' := h₁.put_ne h₂ hx₁ hne hx₂ y₁
  dsimp only
  rw [h₂'.at]
  simp only [Option.bind_some]
  refine (exprJoin_of_size (n := 2 * N) (by dsimp only at hsize; omega) (by omega)).bind
    fun r hr => ?_
  cases r with
  | none => exact returns_pure.mpr hpass
  | some tmp =>
    exact returns_pure.mpr (hpass.trans (fun _ => hereditary_true)
      (pass_join (h₁.put y₁) hy₁ h₂' hx₂ hne (hr tmp rfl) c))

/-- The first pass keeps the value, whatever the symbols are. -/
theorem eliminateDups1_of_size (N : ℕ) : ∀ (type : Junction) (w : Work σ), w.1.size ≤ N →
    ∀ fuel, 8 * N + 1 ≤ fuel →
    Returns (eliminateDups1 S fuel type w) (Pass S (fun _ _ => True) type w) := by
  induction N using Nat.strong_induction_on with
  | _ N ih =>
    intro type w hN fuel hfuel
    have hpos := w.1.size_pos
    obtain ⟨fuel, rfl⟩ : ∃ k, fuel = k + 1 := ⟨fuel - 1, by omega⟩
    have hdups : ∀ t l r c, (Expr.two t l r).size < N →
        Returns (eliminateDups1 S fuel t (.two t l r, c))
          (Pass S (fun _ _ => True) t (.two t l r, c)) := fun t l r c hlt =>
      ih (N - 1) (by omega) t (.two t l r, c) (by dsimp only; omega) fuel (by omega)
    have hregion := w.1.region_le_size type
    exact eachPair_pass (N := N) (fun _ => hereditary_true)
      (fun w p₁ p₂ x₁ x₂ hN h₁ hx₁ h₂ hx₂ hne =>
        joinPair_pass hdups (by omega) hN h₁ hx₁ h₂ (hx₂ rfl) hne) fuel w [] [] w.1 w.1 hN
      (.here _) (.here _) (by omega)

theorem complementPair_pass {dups2 : Junction → Work σ → Option (Work σ)}
    (hdups : ∀ t l r c, (Expr.two t l r).size < N →
      Returns (dups2 t (.two t l r, c)) (Pass S (fun v e => e.Definite v) t (.two t l r, c)))
    (hfuel : 20 * N ≤ fuel) (hN : w.1.size ≤ N) (h₁ : Within type w.1 p₁ x₁)
    (hx₁ : x₁.operands type = none) (h₂ : Within type w.1 p₂ x₂) (hne : p₁ ≠ p₂) :
    Returns (complementPair S dups2 fuel p₁ p₂ w) (Pass S (fun v e => e.Definite v) type w) := by
  have hlt₁ := h₁.size_lt (h₁.ne_nil hx₁ h₂ hne)
  rw [complementPair, h₁.at]
  simp only [Option.bind_eq_bind, Option.bind_some]
  cases x₁ with
  | two t l r =>
    refine (hdups t l r w.2 (by omega)).bind fun r hr => ?_
    obtain ⟨y₁, c⟩ := r
    obtain ⟨rfl, hy₁⟩ := hr.operands hx₁
    have hpass := hr.inner (fun v => hereditary_definite v) h₁ hx₁ hy₁
    obtain ⟨z₂, hz₂, -⟩ := hpass.alike.within h₂
    have hsize : y₁.size ≤ (Expr.two type.dual l r).size := hr.size
    have hheight := y₁.height_le_size
    dsimp only
    rw [hz₂.at]
    simp only [Option.bind_some]
    refine (exprTransform_of_height (S := S) N (.not y₁) (by rw [Expr.height]; omega) fuel
      (by omega)).bind fun tmp₁ htmp => ?_
    have hlt := htmp.normal.nnf.size_lt
    have hleaves := htmp.leaves.trans_le y₁.leaves_le_size
    have hz : z₂.size ≤ N := by
      have hle := hpass.size
      have hlt₂ := hz₂.size (.symbol .no)
      have hp := (Expr.put (w.1.put p₁ y₁) p₂ (.symbol .no)).size_pos
      simp only [Expr.size] at hle hlt₂
      omega
    refine (exprExtractEqOf_of_size (n := 4 * N) (by omega) (by omega)).bind fun r hext => ?_
    obtain ⟨tmp, r₁, r₂⟩ := r
    dsimp only at hext ⊢
    split_ifs with hyn
    · refine returns_pure.mpr (hpass.trans (fun v => hereditary_definite v)
        (pass_complement (h₁.put y₁) hy₁ hz₂ hne (fun v => ?_) c))
      -- all of the complement is in the other operand
      obtain ⟨hx₁, hx₂⟩ := hext v
      rw [htmp.calcValue, hyn, exprCalcValue_symbol, symTri_unitSymbol, Junction.op_unit,
        exprCalcValue_not] at hx₁
      rw [Junction.dual_dual] at hx₁ hx₂
      rw [hx₁, hx₂]
      rw [type.op_comm, ← type.op_assoc, type.op_self]
    · exact returns_pure.mpr hpass
  | _ => exact returns_pure.mpr (.refl ..)

/-- The second pass keeps the value, where no symbol is `m`. -/
theorem eliminateDups2_of_size (N : ℕ) : ∀ (type : Junction) (w : Work σ), w.1.size ≤ N →
    ∀ fuel, 20 * N + 1 ≤ fuel →
    Returns (eliminateDups2 S fuel type w) (Pass S (fun v e => e.Definite v) type w) := by
  induction N using Nat.strong_induction_on with
  | _ N ih =>
    intro type w hN fuel hfuel
    have hpos := w.1.size_pos
    obtain ⟨fuel, rfl⟩ : ∃ k, fuel = k + 1 := ⟨fuel - 1, by omega⟩
    have hdups : ∀ t l r c, (Expr.two t l r).size < N →
        Returns (eliminateDups2 S fuel t (.two t l r, c))
          (Pass S (fun v e => e.Definite v) t (.two t l r, c)) := fun t l r c hlt =>
      ih (N - 1) (by omega) t (.two t l r, c) (by dsimp only; omega) fuel (by omega)
    have hregion := w.1.region_le_size type
    exact eachPair_pass (N := N) (fun v => hereditary_definite v)
      (fun w p₁ p₂ x₁ x₂ hN h₁ hx₁ h₂ _ hne =>
        complementPair_pass hdups (by omega) hN h₁ hx₁ h₂ hne) fuel w [] [] w.1 w.1 hN
      (.here _) (.here _) (by omega)

/-! ## expr_eliminate_dups -/

theorem size_eliminateYn_le (e : Expr σ) : (exprEliminateYn e).size ≤ e.size := by
  induction e with
  | two t e₁ e₂ ih₁ ih₂ =>
    have hpos₁ := e₁.size_pos
    rw [exprEliminateYn, Expr.size]
    rcases eliminateYnTwo_cases t (exprEliminateYn e₁) (exprEliminateYn e₂) with
      ⟨h, -⟩ | ⟨h, -⟩ | ⟨h, -⟩ | ⟨h, -⟩ <;> rw [h]
    · rw [Expr.size]
      omega
    · omega
    · omega
    · rw [Expr.size]
      omega
  | _ => exact le_rfl

/-- An expression without its duplicates. -/
structure Undoubled (S : Symbols σ) (e e' : Expr σ) : Prop where
  size : e'.size ≤ e.size
  keep : ∀ P, Hereditary P → P e → P e'
  calcValue : ∀ v : Valuation S, e.Definite v → exprCalcValue v e' = exprCalcValue v e

omit [DecidableEq σ] in
theorem Undoubled.refl (S : Symbols σ) (e : Expr σ) : Undoubled S e e :=
  ⟨le_rfl, fun _ _ => id, fun _ _ => rfl⟩

omit [DecidableEq σ] in
theorem Undoubled.trans {e₁ e₂ : Expr σ} (h : Undoubled S e e₁) (h' : Undoubled S e₁ e₂) :
    Undoubled S e e₂ := by
  refine ⟨h'.size.trans h.size, fun P hP he => h'.keep P hP (h.keep P hP he), fun v hv => ?_⟩
  rw [h'.calcValue v (h.keep _ (hereditary_definite v) hv), h.calcValue v hv]

theorem undoubled_eliminateYn (S : Symbols σ) (e : Expr σ) : Undoubled S e (exprEliminateYn e) :=
  ⟨size_eliminateYn_le e, fun _ hP => hP.eliminateYn, fun v _ => exprCalcValue_eliminateYn v e⟩

/-- Both passes, one after the other. Something has changed only if an operand is `y` or `n`. -/
theorem passes_undoubled (hN : e.size ≤ N) (hfuel : 20 * N + 1 ≤ fuel) (t : Junction) :
    Returns (do
      let w ← eliminateDups1 S fuel t (e, false)
      eliminateDups2 S fuel t w) fun w =>
        Undoubled S e w.1 ∧ w.1.leaves ≤ e.leaves ∧ (w.2 = true → ¬w.1.Reduced) := by
  refine (eliminateDups1_of_size N t (e, false) hN fuel (by omega)).bind fun w₁ h₁ => ?_
  refine (eliminateDups2_of_size N t w₁ (h₁.size.trans hN) fuel hfuel).mono fun w₂ h₂ => ?_
  refine ⟨⟨h₂.size.trans h₁.size, fun P hP he => h₂.keep P hP (h₁.keep P hP he), fun v hv => ?_⟩,
    h₂.leaves.trans h₁.leaves, fun hc => ?_⟩
  · rw [h₂.calcValue v (h₁.keep _ (hereditary_definite v) hv), h₁.calcValue v trivial]
  · rcases h₂.changed with rfl | ⟨-, hr⟩
    · rcases h₁.changed with rfl | ⟨-, hr⟩
      · simp at hc
      · exact hr
    · exact hr

/-- It ends, since there are fewer operands each time. -/
theorem exprEliminateDups_of_leaves (hfuel : 20 * N + 1 + n ≤ fuel) (hN : e.size ≤ N)
    (hn : e.leaves ≤ n) : Returns (exprEliminateDups S fuel e) (Undoubled S e) := by
  induction n generalizing e fuel with
  | zero =>
    have := e.leaves_pos
    omega
  | succ n ih =>
    obtain ⟨fuel, rfl⟩ : ∃ k, fuel = k + 1 := ⟨fuel - 1, by omega⟩
    have hstep : ∀ w : Work σ, Undoubled S e w.1 ∧ w.1.leaves ≤ e.leaves ∧
        (w.2 = true → ¬w.1.Reduced) →
        Returns (if w.2 = true then exprEliminateDups S fuel (exprEliminateYn w.1) else pure w.1)
          (Undoubled S e) := by
      rintro ⟨e', changed⟩ ⟨hu, hl, hr⟩
      dsimp only
      split_ifs with hc
      · have hyn := hu.trans (undoubled_eliminateYn S e')
        have hlt := leaves_eliminateYn_lt (hr hc)
        dsimp only at hl hlt
        exact (ih (by omega) (hyn.size.trans hN) (by omega)).mono fun e'' h => hyn.trans h
      · exact returns_pure.mpr hu
    cases e with
    | two t e₁ e₂ => exact (passes_undoubled hN (by omega) t).bind hstep
    | _ => exact hstep (_, false) ⟨.refl .., le_rfl, by simp⟩

/-- `expr_eliminate_dups` has a result for every expression, which is no larger, and has the value
of the expression for all symbols none of which is `m`. -/
theorem exprEliminateDups_spec (S : Symbols σ) (e : Expr σ) (k : ℕ) :
    ∃ e', exprEliminateDups S (20 * e.size + 1 + e.leaves + k) e = some e' ∧ e'.size ≤ e.size ∧
      ∀ v : Valuation S, e.Definite v → exprCalcValue v e' = exprCalcValue v e := by
  obtain ⟨e', he', h⟩ := exprEliminateDups_of_leaves (S := S) (Nat.le_add_right _ k) le_rfl le_rfl
  exact ⟨e', he', h.size, h.calcValue⟩

end Pass

end Makeroot
