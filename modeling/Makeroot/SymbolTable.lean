import Makeroot.Expr
import Makeroot.Fuel
import Mathlib.Logic.Function.Basic

/-!
# Symbols and their values

The symbols that a configuration is made of (symbol.c), with the properties that the Kconfig files
have given them by the time `conf_parse` is done. The value of a symbol is calculated when it is
asked for, from the values of the symbols in its properties, and kept until
`sym_clear_all_valid`.

The recursion through the symbols is given fuel : each function is written over `ask`, which
stands for `sym_calc_value` of another symbol.
-/

namespace Makeroot

open Fuel GnuMake DeMorgan

/-! ## Numbers -/

section Numbers

/-- The value of a digit, or `none`. -/
def digitValue (base : ℕ) (c : Char) : Option ℕ :=
  let d :=
    if '0' ≤ c ∧ c ≤ '9' then some (c.toNat - '0'.toNat)
    else if 'a' ≤ c ∧ c ≤ 'f' then some (c.toNat - 'a'.toNat + 10)
    else if 'A' ≤ c ∧ c ≤ 'F' then some (c.toNat - 'A'.toNat + 10)
    else none
  d.filter (· < base)

/-- The digits at the start of a text. -/
def readDigits (base : ℕ) : Text → ℕ → ℕ
  | [], n => n
  | c :: t, n =>
    match digitValue base c with
    | some d => readDigits base t (n * base + d)
    | none => n

/-- The text after `0x`, where a digit follows. -/
def dropHexPrefix (base : ℕ) : Text → Text
  | '0' :: x :: c :: t =>
    if base = 16 ∧ (x = 'x' ∨ x = 'X') ∧ (digitValue base c).isSome then c :: t
    else '0' :: x :: c :: t
  | t => t

/-- `strtol` for a `long` of 64 bits, assigned to an `int`. -/
def strtol (t : Text) (base : ℕ) : ℤ :=
  let value : Text → ℕ := fun t => readDigits base (dropHexPrefix base t) 0
  let long : ℤ :=
    match t.dropWhile isSpace with
    | '-' :: t => max (-2 ^ 63) (-(value t : ℤ))
    | '+' :: t => min (2 ^ 63 - 1) (value t : ℤ)
    | t => min (2 ^ 63 - 1) (value t : ℤ)
  long.bmod (2 ^ 32)

/-- `sprintf` with `%d`. -/
def decimal (n : ℤ) : Text :=
  if n < 0 then '-' :: Nat.toDigits 10 n.natAbs else Nat.toDigits 10 n.natAbs

/-- `sprintf` with `0x%x`. -/
def hexadecimal (n : ℤ) : Text := '0' :: 'x' :: Nat.toDigits 16 (n % 2 ^ 32).toNat

end Numbers

/-! ## Properties -/

/-- A property `P_DEFAULT`. -/
structure Default (σ : Type) where
  visible : Option (Expr σ)
  expr : Expr σ

/-- A property `P_RANGE`, whose expression is of two symbols. -/
structure Range (σ : Type) where
  visible : Option (Expr σ)
  left : Symbol σ
  right : Symbol σ

/-- A symbol is a conjunct of an expression, which then is at most the value of the symbol. -/
def Expr.Conjunct {σ : Type*} (s : σ) : Expr σ → Prop
  | .symbol sym => sym = .other s ∨ sym = .no
  | .two .and e₁ e₂ => e₁.Conjunct s ∨ e₂.Conjunct s
  | _ => False

/-- A property of a symbol. One with a text is a prompt. What a `P_SELECT` adds is in the `rev_dep`
of the other symbol. -/
inductive Property (σ : Type)
  | prompt (visible : Option (Expr σ))
  | default (prop : Default σ)
  | range (prop : Range σ)
  | choice
  | select

/-- The properties of the symbols, in the order of the Kconfig files. The choice that a symbol is a
value of is `SYMBOL_CHOICEVAL` and the `P_CHOICE` of the symbol, the values are the `P_CHOICE` of
the choice. -/
structure Properties (σ : Type) extends Symbols σ where
  props : σ → List (Property σ)
  revDep : σ → Option (Expr σ)
  isChoice : σ → Bool
  choiceOf : σ → Option σ
  choiceValues : σ → List σ
  modulesSym : σ

namespace Properties

variable {σ : Type} (P : Properties σ) (s : σ)

def prompts : List (Option (Expr σ)) :=
  (P.props s).filterMap fun
    | .prompt visible => some visible
    | _ => none

def defaults : List (Default σ) :=
  (P.props s).filterMap fun
    | .default prop => some prop
    | _ => none

def ranges : List (Range σ) :=
  (P.props s).filterMap fun
    | .range prop => some prop
    | _ => none

end Properties

/-- What the Kconfig files have led to. What holds of choices is what `menu_finalize` leaves where
it has nothing to warn of. -/
structure Kconfig (σ : Type) extends Properties σ where
  logical_of_choice : ∀ c, isChoice c = true → type c = .boolean ∨ type c = .tristate
  choiceOf_choice : ∀ c, isChoice c = true → choiceOf c = none
  isChoice_of_value : ∀ x c, choiceOf x = some c → isChoice c = true
  type_of_value : ∀ x c, choiceOf x = some c → type x = type c
  prompts_of_value : ∀ x c, choiceOf x = some c → ∀ p ∈ toProperties.prompts x,
    ∃ e, p = some e ∧ e.Conjunct c
  choiceOf_mem : ∀ c, isChoice c = true → ∀ x ∈ choiceValues c, choiceOf x = some c
  default_of_choice : ∀ c, isChoice c = true → ∀ d ∈ toProperties.defaults c,
    ∃ sym, d.expr = .symbol sym ∧ ∀ x, sym = .other x → choiceOf x = some c

/-! ## The state of the symbols -/

/-- `struct symbol_value`. What `val` points to is a text, or for a choice a symbol. -/
structure SymbolValue (σ : Type) where
  val : Text
  sym : Option σ
  tri : Tristate
deriving DecidableEq

/-- `symbol_no.curr`. -/
def SymbolValue.no {σ : Type} : SymbolValue σ := ⟨['n'], none, .no⟩

/-- `symbol_empty.curr`. -/
def SymbolValue.empty {σ : Type} : SymbolValue σ := ⟨[], none, .no⟩

/-- `sym->user`, whose `val` is a text that may be `NULL`, or for a choice a symbol. `isNew` is
`SYMBOL_NEW`. -/
structure User (σ : Type) where
  val : Option Text
  sym : Option σ
  tri : Tristate
  isNew : Bool
deriving DecidableEq

/-- What is calculated for a symbol : `sym->curr`, `sym->visible`, `sym->rev_dep.tri`, with
`SYMBOL_VALID` and `SYMBOL_WRITE`. -/
structure SymbolState (σ : Type) where
  curr : SymbolValue σ
  user : User σ
  visible : Tristate
  revTri : Tristate
  valid : Bool
  write : Bool
deriving DecidableEq

structure KconfigState (σ : Type) where
  sym : σ → SymbolState σ
  modulesVal : Tristate

/-- What the expressions read of the symbols. -/
structure Reading (σ : Type) where
  tri : σ → Tristate
  val : σ → Text

section Reading

variable {σ : Type} (r : Reading σ)

/-- `sym->curr.tri`. -/
def Reading.symTri : Symbol σ → Tristate
  | .yes => .yes
  | .mod => .mod
  | .no => .no
  | .other s => r.tri s

/-- `sym->curr.val`. -/
def Reading.symVal : Symbol σ → Text
  | .yes => ['y']
  | .mod => ['m']
  | .no => ['n']
  | .other s => r.val s

/-- `sym_get_string_value`. -/
def Reading.symGetStringValue (S : Symbols σ) : Symbol σ → Text
  | .other s =>
    match S.type s with
    | .boolean | .tristate => (r.tri s).letter
    | _ => r.val s
  | sym => r.symVal sym

end Reading

section State

variable {σ : Type} [DecidableEq σ]

/-- Writes to the fields of one symbol. -/
def KconfigState.update (st : KconfigState σ) (s : σ) (f : SymbolState σ → SymbolState σ) :
    KconfigState σ :=
  { st with sym := Function.update st.sym s (f (st.sym s)) }

omit [DecidableEq σ] in
/-- The values of all symbols. -/
def KconfigState.reading (st : KconfigState σ) : Reading σ :=
  ⟨fun s => (st.sym s).curr.tri, fun s => (st.sym s).curr.val⟩

end State

/-! ## sym_calc_value -/

namespace Kconfig

abbrev CalcM (σ : Type) := StateT (KconfigState σ) Option

section Code

variable {σ : Type} [DecidableEq σ] (K : Kconfig σ) (ask : σ → CalcM σ Unit)

/-- `sym_calc_value` of a symbol of an expression. `y`, `m` and `n` are valid from the start. -/
def symCalc : Symbol σ → CalcM σ Unit
  | .other s => ask s
  | _ => pure ()

/-- `expr_calc_value`. -/
def exprCalcValue : Expr σ → CalcM σ Tristate
  | .symbol sym => do
    symCalc ask sym
    let st ← get
    pure (st.reading.symTri sym)
  | .two .and e₁ e₂ => do
    let val₁ ← exprCalcValue e₁
    let val₂ ← exprCalcValue e₂
    pure (val₁.eAnd val₂)
  | .two .or e₁ e₂ => do
    let val₁ ← exprCalcValue e₁
    let val₂ ← exprCalcValue e₂
    pure (val₁.eOr val₂)
  | .not e => do
    let val₁ ← exprCalcValue e
    pure val₁.eNot
  | .comp type sym₁ sym₂ => do
    symCalc ask sym₁
    symCalc ask sym₂
    let st ← get
    let str₁ := st.reading.symGetStringValue K.toSymbols sym₁
    let str₂ := st.reading.symGetStringValue K.toSymbols sym₂
    match type with
    | .equal => pure (if str₁ = str₂ then .yes else .no)
    | .unequal => pure (if str₁ = str₂ then .no else .yes)

/-- `expr_calc_value` of an expression that may be `NULL`. -/
def depCalcValue : Option (Expr σ) → CalcM σ Tristate
  | none => pure .yes
  | some e => exprCalcValue K ask e

/-- `sym_get_type`. -/
def symGetType (st : KconfigState σ) (s : σ) : SymbolType :=
  if K.type s = .tristate then
    if (K.choiceOf s).isSome ∧ (st.sym s).visible = .yes then .boolean
    else if st.modulesVal = .no then .boolean
    else .tristate
  else K.type s

/-- The first property of a list that is visible : the loops of `sym_get_default_prop` and
`sym_get_range_prop`. -/
def firstVisibleProp {π : Type} (visible : π → Option (Expr σ)) :
    List π → CalcM σ (Option π)
  | [] => pure none
  | prop :: props => do
    let tri ← depCalcValue K ask (visible prop)
    if tri = .no then firstVisibleProp visible props else pure (some prop)

def symGetDefaultProp (s : σ) : CalcM σ (Option (Default σ)) :=
  firstVisibleProp K ask Default.visible (K.defaults s)

def symGetRangeProp (s : σ) : CalcM σ (Option (Range σ)) :=
  firstVisibleProp K ask Range.visible (K.ranges s)

/-- The base that `sym_get_range_val` and `sym_validate_range` read a number in. -/
def baseOf (base : ℕ) : SymbolType → ℕ
  | .int => 10
  | .hex => 16
  | _ => base

/-- `sym_get_range_val`. -/
def symGetRangeVal (sym : Symbol σ) (base : ℕ) : CalcM σ ℤ := do
  symCalc ask sym
  let st ← get
  pure (strtol (st.reading.symVal sym) (baseOf base (sym.type K.toSymbols)))

/-- What `sym_validate_range` writes. -/
def printRange (type : SymbolType) (val : ℤ) : Text :=
  if type = .int then decimal val else hexadecimal val

/-- `sym_validate_range`, for the types that have a range. -/
def validateRange (s : σ) (base : ℕ) : CalcM σ Unit := do
  let prop ← symGetRangeProp K ask s
  match prop with
  | none => pure ()
  | some prop => do
    let st ← get
    let val := strtol (st.sym s).curr.val base
    let low ← symGetRangeVal K ask prop.left base
    let write : ℤ → CalcM σ Unit := fun val₂ =>
      modify (·.update s fun d => { d with curr.val := printRange (K.type s) val₂ })
    if low ≤ val then do
      let high ← symGetRangeVal K ask prop.right base
      if val ≤ high then pure () else write high
    else write low

/-- `sym_validate_range`. -/
def symValidateRange (s : σ) : CalcM σ Unit :=
  match K.type s with
  | .int => validateRange K ask s 10
  | .hex => validateRange K ask s 16
  | _ => pure ()

/-- The loop of `sym_calc_visibility` over the prompts. -/
def calcPrompts : List (Option (Expr σ)) → Tristate → CalcM σ Tristate
  | [], tri => pure tri
  | visible :: props, tri => do
    let propTri ← depCalcValue K ask visible
    calcPrompts props (tri.eOr propTri)

/-- `rev_dep` of a symbol, `n` if there is none. -/
def calcRevDep : Option (Expr σ) → CalcM σ Tristate
  | none => pure .no
  | some e => exprCalcValue K ask e

/-- `sym_calc_visibility`. -/
def symCalcVisibility (s : σ) : CalcM σ Unit := do
  let tri ← calcPrompts K ask (K.prompts s) .no
  let st ← get
  let tri := if tri = .mod ∧ (K.type s ≠ .tristate ∨ st.modulesVal = .no) then .yes else tri
  modify (·.update s fun d => { d with visible := tri })
  if (K.choiceOf s).isSome then pure ()
  else do
    let tri ← calcRevDep K ask (K.revDep s)
    let st ← get
    let tri := if tri = .mod ∧ K.symGetType st s = .boolean then .yes else tri
    modify (·.update s fun d => { d with revTri := tri })

/-- The symbol, if it is visible, and otherwise what comes next. -/
def ifVisible (defSym : σ) (next : CalcM σ (Option σ)) : CalcM σ (Option σ) := do
  symCalcVisibility K ask defSym
  let st ← get
  if (st.sym defSym).visible = .no then next else pure (some defSym)

/-- The loop of `sym_calc_choice` over the defaults. `y`, `m` and `n` are never visible. -/
def choiceDefault (next : CalcM σ (Option σ)) : List (Default σ) → CalcM σ (Option σ)
  | [] => next
  | prop :: props => do
    let tri ← depCalcValue K ask prop.visible
    if tri = .no then choiceDefault next props
    else
      match prop.expr with
      | .symbol (.other defSym) => ifVisible K ask defSym (choiceDefault next props)
      | _ => choiceDefault next props

/-- The loop of `sym_calc_choice` over the values. -/
def choiceFirst (next : CalcM σ (Option σ)) : List σ → CalcM σ (Option σ)
  | [] => next
  | defSym :: values => ifVisible K ask defSym (choiceFirst next values)

/-- `sym_calc_choice`. -/
def symCalcChoice (s : σ) : CalcM σ (Option σ) := do
  let st ← get
  let reset : CalcM σ (Option σ) := do
    modify (·.update s fun d => { d with curr.tri := .no })
    pure none
  let search := choiceDefault K ask (choiceFirst K ask reset (K.choiceValues s)) (K.defaults s)
  match (st.sym s).user.sym with
  | some defSym => ifVisible K ask defSym search
  | none => search

/-- The value of a boolean or tristate symbol, before `m` is made `y`. -/
def calcTristate (s : σ) : CalcM σ Tristate := do
  let st ← get
  let fromDefault : CalcM σ (Option Tristate) := do
    let prop ← symGetDefaultProp K ask s
    match prop with
    | none => pure none
    | some prop => do
      let tri ← exprCalcValue K ask prop.expr
      pure (some tri)
  if (K.choiceOf s).isSome ∧ (st.sym s).visible = .yes then
    match K.choiceOf s with
    | some c => pure (if (st.sym c).curr.sym = some s then .yes else .no)
    | none => failure
  else if (st.sym s).visible.eOr (st.sym s).revTri ≠ .no then do
    modify (·.update s fun d => { d with write := true })
    let tri ← (if (st.sym s).user.isNew = false then pure (st.sym s).user.tri
      else if K.isChoice s then pure .no
      else do
        let tri ← fromDefault
        pure (tri.getD .no) : CalcM σ Tristate)
    let st ← get
    pure ((tri.eAnd (st.sym s).visible).eOr (st.sym s).revTri)
  else if K.isChoice s then pure .no
  else do
    let tri ← fromDefault
    match tri with
    | none => pure .no
    | some tri => do
      modify (·.update s fun d => { d with write := true })
      pure tri

/-- The value of a string or a number. -/
def calcString (s : σ) : CalcM σ Text := do
  let st ← get
  let fromDefault : CalcM σ Text := do
    let prop ← symGetDefaultProp K ask s
    match prop with
    | some ⟨_, .symbol ds⟩ => do
      modify (·.update s fun d => { d with write := true })
      symCalc ask ds
      let st ← get
      pure (st.reading.symVal ds)
    | _ => pure (SymbolValue.empty : SymbolValue σ).val
  if (st.sym s).visible ≠ .no then do
    modify (·.update s fun d => { d with write := true })
    if (st.sym s).user.isNew = false then pure ((st.sym s).user.val.getD []) else fromDefault
  else fromDefault

/-- The flags of a choice go to its values. -/
def flagValues (s : σ) : CalcM σ Unit := do
  modify fun st =>
    if (st.sym s).write then
      { st with sym := fun x =>
          if x ∈ K.choiceValues s then { st.sym x with write := true } else st.sym x }
    else st

/-- What `sym_calc_value` does for a symbol that has a type. `newval` is the value to start from. -/
def calcDeclared (s : σ) (newval : SymbolValue σ) : CalcM σ Unit := do
  (if (K.choiceOf s).isSome then pure ()
    else modify (·.update s fun d => { d with write := false }) : CalcM σ Unit)
  symCalcVisibility K ask s
  modify (·.update s fun d => { d with curr := newval })
  let st ← get
  let newval ← (match K.symGetType st s with
    | .boolean | .tristate => do
      let tri ← calcTristate K ask s
      let st ← get
      let tri := if tri = .mod ∧ K.symGetType st s = .boolean then .yes else tri
      pure { newval with tri := tri }
    | _ => do
      let val ← calcString K ask s
      pure { newval with val := val } : CalcM σ (SymbolValue σ))
  modify (·.update s fun d => { d with curr := newval })
  (if K.isChoice s ∧ newval.tri = .yes then do
      let chosen ← symCalcChoice K ask s
      modify (·.update s fun d => { d with curr.sym := chosen })
    else pure () : CalcM σ Unit)
  symValidateRange K ask s
  (if s = K.modulesSym then modify fun st => { st with modulesVal := (st.sym s).curr.tri }
    else pure () : CalcM σ Unit)
  if K.isChoice s then flagValues K s else pure ()

/-- `sym_calc_value`, once the flag is seen not to be there and set. -/
def calcInvalid (s : σ) : CalcM σ Unit :=
  match K.type s with
  | .int | .hex | .string => calcDeclared K ask s .empty
  | .boolean | .tristate => calcDeclared K ask s .no
  | .unknown | .other => modify (·.update s fun d => { d with curr := ⟨K.name s, none, .no⟩ })

/-- `sym_calc_value`. -/
def symCalcValue : ℕ → σ → CalcM σ Unit
  | 0, _ => failure
  | fuel + 1, s => do
    let st ← get
    if (st.sym s).valid then pure ()
    else do
      modify (·.update s fun d => { d with valid := true })
      calcInvalid K (symCalcValue fuel) s

end Code

end Kconfig

end Makeroot
