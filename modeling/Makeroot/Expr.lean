import Makeroot.Junction
import Makeroot.MakeText
import Mathlib.Order.Lattice
import Mathlib.Data.Fintype.Basic

/-!
# Kconfig expressions

A dependency of a configuration option is an expression over symbols with the values `n`, `m` and
`y` (expr.h). Symbols are told apart by their address : `y`, `m` and `n` are three symbols of
symbol.c, a constant has one symbol for its text, and the others are of the types that the Kconfig
files give them. `expr_calc_value` is the meaning, and what the functions of expr.c make of an
expression is compared with it.
-/

namespace Makeroot

open GnuMake DeMorgan

/-! ## Tristate -/

inductive Tristate
  | no
  | mod
  | yes
deriving DecidableEq

namespace Tristate

instance : Fintype Tristate := ⟨{no, mod, yes}, fun a => by cases a <;> decide⟩

def toNat : Tristate → ℕ
  | no => 0
  | mod => 1
  | yes => 2

theorem toNat_injective : Function.Injective toNat := by
  intro a b h
  cases a <;> cases b <;> simp_all [toNat]

instance : LinearOrder Tristate := LinearOrder.lift' toNat toNat_injective

instance : BoundedOrder Tristate where
  bot := no
  bot_le a := Nat.zero_le a.toNat
  top := yes
  le_top a := by cases a <;> decide

/-- The macro `E_OR`. -/
def eOr (dep₁ dep₂ : Tristate) : Tristate := if dep₁ > dep₂ then dep₁ else dep₂

/-- The macro `E_AND`. -/
def eAnd (dep₁ dep₂ : Tristate) : Tristate := if dep₁ < dep₂ then dep₁ else dep₂

/-- The macro `E_NOT`. -/
def eNot : Tristate → Tristate
  | no => yes
  | mod => mod
  | yes => no

theorem eOr_eq : ∀ a b, eOr a b = Junction.or.op a b := by decide

theorem eAnd_eq : ∀ a b, eAnd a b = Junction.and.op a b := by decide

@[simp] theorem unit_or : Junction.or.unit = no := rfl

@[simp] theorem unit_and : Junction.and.unit = yes := rfl

@[simp] theorem eNot_eNot : ∀ a, eNot (eNot a) = a := by decide

/-- De Morgan. -/
theorem eNot_op : ∀ (t : Junction) (a b : Tristate),
    eNot (t.op a b) = t.dual.op (eNot a) (eNot b)
  | .or => by decide
  | .and => by decide

/-- A value and its complement decide a junction, if neither is `m`. -/
theorem op_eNot (t : Junction) : ∀ {a : Tristate}, a ≠ mod → t.op a (eNot a) = t.dual.unit := by
  cases t <;> decide

theorem eNot_ne_mod : ∀ {a : Tristate}, a ≠ mod → eNot a ≠ mod := by decide

theorem op_ne_mod (t : Junction) :
    ∀ {a b : Tristate}, a ≠ mod → b ≠ mod → t.op a b ≠ mod := by
  cases t <;> decide

/-- What a symbol of that value is written as. -/
def letter : Tristate → Text
  | no => ['n']
  | mod => ['m']
  | yes => ['y']

theorem letter_injective : Function.Injective letter := by
  intro a b h
  cases a <;> cases b <;> simp_all [letter]

end Tristate

/-! ## Symbols -/

inductive SymbolType
  | unknown
  | boolean
  | tristate
  | int
  | hex
  | string
  | other
deriving DecidableEq

/-- A symbol : `symbol_yes`, `symbol_mod`, `symbol_no`, or one of the table. -/
inductive Symbol (σ : Type*)
  | yes
  | mod
  | no
  | other (s : σ)
deriving DecidableEq

/-- The table of the symbols. A constant has all the flags of `SYMBOL_CONST` and no type, and
there is one for each text that is not the name of `symbol_yes`, `symbol_mod` or `symbol_no`. -/
structure Symbols (σ : Type*) where
  name : σ → Text
  type : σ → SymbolType
  isConst : σ → Bool
  type_const : ∀ s, isConst s = true → type s = .unknown
  name_const : ∀ s s', isConst s = true → isConst s' = true → name s = name s' → s = s'
  name_letter : ∀ s, isConst s = true → ∀ a : Tristate, name s ≠ a.letter

variable {σ : Type*}

def Symbol.type (S : Symbols σ) : Symbol σ → SymbolType
  | .other s => S.type s
  | _ => .unknown

/-- `sym->flags & SYMBOL_CONST`. -/
def Symbol.isConst (S : Symbols σ) : Symbol σ → Bool
  | .other s => S.isConst s
  | _ => true

/-- The values of the symbols of a table, as `sym_calc_value` leaves them : what is boolean is not
`m`, what is neither boolean nor tristate is `n`, and what has no type has its name for a text. -/
structure Valuation (S : Symbols σ) where
  tri : σ → Tristate
  val : σ → Text
  boolean : ∀ s, S.type s = .boolean → tri s ≠ .mod
  logical : ∀ s, S.type s ≠ .boolean → S.type s ≠ .tristate → tri s = .no
  unknown : ∀ s, S.type s = .unknown → val s = S.name s

section Values

variable {S : Symbols σ} (v : Valuation S)

/-- `sym->curr.tri`. -/
def Valuation.symTri : Symbol σ → Tristate
  | .yes => .yes
  | .mod => .mod
  | .no => .no
  | .other s => v.tri s

/-- `sym_get_string_value`. -/
def Valuation.symGetStringValue : Symbol σ → Text
  | .yes => ['y']
  | .mod => ['m']
  | .no => ['n']
  | .other s =>
    match S.type s with
    | .boolean | .tristate => (v.tri s).letter
    | _ => v.val s

variable {v}

theorem Valuation.symTri_ne_mod {s : Symbol σ} (h : s.type S = .boolean) :
    v.symTri s ≠ .mod := by
  cases s with
  | other s => exact v.boolean s h
  | _ => simp [Symbol.type] at h

/-- Neither a string nor a number : the symbol is boolean or tristate, or a value. -/
def Symbol.Logical (S : Symbols σ) : Symbol σ → Prop
  | .other s => S.type s = .boolean ∨ S.type s = .tristate
  | _ => True

/-- Such a symbol has the text of its value. -/
theorem Valuation.symGetStringValue_eq {s : Symbol σ} (h : s.Logical S) :
    v.symGetStringValue s = (v.symTri s).letter := by
  cases s with
  | other s => rcases h with h | h <;> simp [symGetStringValue, symTri, h]
  | _ => rfl

theorem Symbol.logical_of_type {s : Symbol σ} (h : s.type S = .boolean ∨ s.type S = .tristate) :
    s.Logical S := by
  cases s with
  | other s => exact h
  | _ => trivial

/-- The symbol of a value. -/
def Tristate.symbol : Tristate → Symbol σ
  | .no => .no
  | .mod => .mod
  | .yes => .yes

@[simp] theorem Valuation.symTri_symbol (a : Tristate) : v.symTri a.symbol = a := by
  cases a <;> rfl

@[simp] theorem Valuation.symGetStringValue_symbol (a : Tristate) :
    v.symGetStringValue a.symbol = a.letter := by
  cases a <;> rfl

/-- Two constants are one if they have one text. -/
theorem Valuation.symGetStringValue_const {s s' : Symbol σ} (h : s.isConst S = true)
    (h' : s'.isConst S = true) (heq : v.symGetStringValue s = v.symGetStringValue s') : s = s' := by
  have hother : ∀ s, S.isConst s = true → v.symGetStringValue (.other s) = S.name s :=
    fun s hs => by simp [symGetStringValue, S.type_const s hs, v.unknown s (S.type_const s hs)]
  have hne : ∀ s, S.isConst s = true → ∀ a : Tristate,
      v.symGetStringValue (.other s) ≠ v.symGetStringValue a.symbol := fun s hs a => by
    rw [hother s hs, symGetStringValue_symbol]
    exact S.name_letter s hs a
  cases s <;> cases s'
  case other.other s s' =>
    rw [hother s h, hother s' h'] at heq
    rw [S.name_const s s' h h' heq]
  case other.yes s => exact absurd heq (hne s h .yes)
  case other.mod s => exact absurd heq (hne s h .mod)
  case other.no s => exact absurd heq (hne s h .no)
  case yes.other s => exact absurd heq.symm (hne s h' .yes)
  case mod.other s => exact absurd heq.symm (hne s h' .mod)
  case no.other s => exact absurd heq.symm (hne s h' .no)
  all_goals first
    | rfl
    | simp [symGetStringValue] at heq

end Values

/-! ## Expressions -/

/-- `E_EQUAL` and `E_UNEQUAL`. -/
inductive Comparison
  | equal
  | unequal
deriving DecidableEq

def Comparison.other : Comparison → Comparison
  | equal => unequal
  | unequal => equal

/-- What a comparison of two values is worth. -/
def Comparison.holds (type : Comparison) (a b : Tristate) : Tristate :=
  match type with
  | equal => if a = b then .yes else .no
  | unequal => if a = b then .no else .yes

/-- An expression : `E_SYMBOL`, `E_NOT`, a comparison of symbols, `E_OR` or `E_AND`. -/
inductive Expr (σ : Type*)
  | symbol (sym : Symbol σ)
  | not (e : Expr σ)
  | comp (type : Comparison) (sym₁ sym₂ : Symbol σ)
  | two (type : Junction) (e₁ e₂ : Expr σ)
deriving DecidableEq

/-- `expr_alloc_and` and `expr_alloc_or`, for expressions that may be `NULL`. -/
def exprAlloc (type : Junction) : Option (Expr σ) → Option (Expr σ) → Option (Expr σ)
  | none, e₂ => e₂
  | some e₁, none => some e₁
  | some e₁, some e₂ => some (.two type e₁ e₂)

section Calc

variable {S : Symbols σ} (v : Valuation S)

/-- `expr_calc_value`. -/
def exprCalcValue : Expr σ → Tristate
  | .symbol sym => v.symTri sym
  | .not e => (exprCalcValue e).eNot
  | .comp .equal sym₁ sym₂ =>
    if v.symGetStringValue sym₁ = v.symGetStringValue sym₂ then .yes else .no
  | .comp .unequal sym₁ sym₂ =>
    if v.symGetStringValue sym₁ = v.symGetStringValue sym₂ then .no else .yes
  | .two .or e₁ e₂ => (exprCalcValue e₁).eOr (exprCalcValue e₂)
  | .two .and e₁ e₂ => (exprCalcValue e₁).eAnd (exprCalcValue e₂)

/-- The value of an expression that may be `NULL`, which is `y`. -/
def depCalcValue : Option (Expr σ) → Tristate
  | none => .yes
  | some e => exprCalcValue v e

@[simp] theorem exprCalcValue_symbol (s : Symbol σ) :
    exprCalcValue v (.symbol s) = v.symTri s := rfl

@[simp] theorem exprCalcValue_not (e : Expr σ) :
    exprCalcValue v (.not e) = (exprCalcValue v e).eNot := rfl

@[simp] theorem exprCalcValue_two (t : Junction) (e₁ e₂ : Expr σ) :
    exprCalcValue v (.two t e₁ e₂) = t.op (exprCalcValue v e₁) (exprCalcValue v e₂) := by
  cases t
  · exact Tristate.eOr_eq ..
  · exact Tristate.eAnd_eq ..

variable {v}

theorem exprCalcValue_comp_other (c : Comparison) (s s' : Symbol σ) :
    exprCalcValue v (.comp c.other s s') = (exprCalcValue v (.comp c s s')).eNot := by
  cases c <;> simp only [exprCalcValue, Comparison.other] <;> split_ifs <;> rfl

theorem exprCalcValue_comp_ne_mod (c : Comparison) (s s' : Symbol σ) :
    exprCalcValue v (.comp c s s') ≠ .mod := by
  cases c <;> simp only [exprCalcValue] <;> split_ifs <;> simp

/-- A comparison with a value. -/
theorem exprCalcValue_comp {s : Symbol σ} (h : s.Logical S) (type : Comparison) (a : Tristate) :
    exprCalcValue v (.comp type s a.symbol) = type.holds (v.symTri s) a := by
  cases type <;>
    simp only [exprCalcValue, Valuation.symGetStringValue_eq h, Valuation.symGetStringValue_symbol,
      Tristate.letter_injective.eq_iff, Comparison.holds]

theorem depCalcValue_and (e₁ e₂ : Option (Expr σ)) :
    depCalcValue v (exprAlloc .and e₁ e₂) =
      Junction.and.op (depCalcValue v e₁) (depCalcValue v e₂) := by
  cases e₁ <;> cases e₂
  · rfl
  · exact (Junction.and.unit_op _).symm
  · exact (Junction.and.op_unit _).symm
  · exact exprCalcValue_two v ..

end Calc

end Makeroot
