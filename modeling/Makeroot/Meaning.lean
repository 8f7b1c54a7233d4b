import Makeroot.Ranked
import Makeroot.SymbolTable

/-!
# What a configuration means

The values that the symbols of a configuration should have, as a system of equations : what each
symbol is, given what the others are and what the user has set. Nothing here is calculated in an
order, or kept. Where the symbols can be ranked, so that each reads symbols of lower rank, the
equations have exactly one solution (`exists_solution`, `Solution.unique`).

The value of a choice is settled in two steps. It is first what the equations of a symbol say,
and its values are visible or not with regard to that. If it is `y`, it then is the value that is
picked, and `n` if none is visible.
-/

namespace Makeroot

open DeMorgan GnuMake Ranked

variable {σ : Type}

/-! ## Readings -/

/-- A symbol is in the expression. -/
def Expr.Mentions (t : σ) : Expr σ → Prop
  | .symbol sym => sym = .other t
  | .not e => e.Mentions t
  | .comp _ sym₁ sym₂ => sym₁ = .other t ∨ sym₂ = .other t
  | .two _ e₁ e₂ => e₁.Mentions t ∨ e₂.Mentions t

/-- Two readings of one symbol. -/
def Reading.Same (r r' : Reading σ) (t : σ) : Prop := r.tri t = r'.tri t ∧ r.val t = r'.val t

theorem Reading.symTri_congr {r r' : Reading σ} {sym : Symbol σ}
    (h : ∀ t, sym = .other t → r.Same r' t) : r.symTri sym = r'.symTri sym := by
  cases sym with
  | other t => exact (h t rfl).1
  | _ => rfl

theorem Reading.symVal_congr {r r' : Reading σ} {sym : Symbol σ}
    (h : ∀ t, sym = .other t → r.Same r' t) : r.symVal sym = r'.symVal sym := by
  cases sym with
  | other t => exact (h t rfl).2
  | _ => rfl

theorem Reading.symGetStringValue_congr {r r' : Reading σ} {S : Symbols σ} {sym : Symbol σ}
    (h : ∀ t, sym = .other t → r.Same r' t) :
    r.symGetStringValue S sym = r'.symGetStringValue S sym := by
  cases sym with
  | other t => simp only [symGetStringValue, (h t rfl).1, (h t rfl).2]
  | _ => rfl

/-- What is calculated for a symbol. -/
structure Result (σ : Type) where
  curr : SymbolValue σ
  visible : Tristate
  revTri : Tristate
deriving DecidableEq

def readingOf (o : σ → Result σ) : Reading σ :=
  ⟨fun t => (o t).curr.tri, fun t => (o t).curr.val⟩

/-- The reading in which a choice has a value, while that is looked for. -/
def Reading.choosing [DecidableEq σ] (r : Reading σ) (c : σ) : Reading σ :=
  ⟨Function.update r.tri c .yes, Function.update r.val c ['n']⟩

theorem Reading.Same.choosing [DecidableEq σ] {r r' : Reading σ} {c t : σ}
    (h : t ≠ c → r.Same r' t) : (r.choosing c).Same (r'.choosing c) t := by
  by_cases ht : t = c
  · subst ht
    simp [Same, Reading.choosing]
  · simpa [Same, Reading.choosing, ht] using h ht

theorem Tristate.eOr_eq_sup (a b : Tristate) : a.eOr b = a ⊔ b := eOr_eq a b

theorem Tristate.eAnd_eq_inf (a b : Tristate) : a.eAnd b = a ⊓ b := eAnd_eq a b

/-- `m` is `y` where that is not to be had. -/
def Tristate.promote (p : Prop) [Decidable p] (a : Tristate) : Tristate :=
  if a = .mod ∧ p then .yes else a

section Promote

variable {p : Prop} [Decidable p] {a : Tristate}

theorem Tristate.promote_eq_yes : Tristate.promote p a = .yes ↔ a = .yes ∨ a = .mod ∧ p := by
  unfold promote
  cases a <;> simp

theorem Tristate.promote_eq_mod : Tristate.promote p a = .mod ↔ a = .mod ∧ ¬ p := by
  unfold promote
  cases a <;> simp

theorem Tristate.promote_mono {b : Tristate} (h : a ≤ b) :
    Tristate.promote p a ≤ Tristate.promote p b := by
  by_cases hp : p
  · revert a b
    simp only [promote, hp, and_true]
    decide
  · simpa [promote, hp] using h

end Promote

namespace Kconfig

section Equations

variable (K : Kconfig σ) (r : Reading σ)

def exprValue : Expr σ → Tristate
  | .symbol sym => r.symTri sym
  | .not e => (exprValue e).eNot
  | .two type e₁ e₂ => type.op (exprValue e₁) (exprValue e₂)
  | .comp type sym₁ sym₂ =>
    let same := r.symGetStringValue K.toSymbols sym₁ = r.symGetStringValue K.toSymbols sym₂
    match type with
    | .equal => if same then .yes else .no
    | .unequal => if same then .no else .yes

def depValue : Option (Expr σ) → Tristate
  | none => .yes
  | some e => K.exprValue r e

/-- The first property that is visible. -/
def firstVisible {π : Type} (visible : π → Option (Expr σ)) (props : List π) : Option π :=
  props.find? fun prop => K.depValue r (visible prop) ≠ .no

/-- The type of a symbol, which is boolean where there is no `m`. -/
def typeOf (m visible : Tristate) (s : σ) : SymbolType :=
  if K.type s = .tristate then
    if (K.choiceOf s).isSome ∧ visible = .yes then .boolean
    else if m = .no then .boolean
    else .tristate
  else K.type s

/-- A symbol is visible as far as one of its prompts is. -/
def visibleOf (m : Tristate) (s : σ) : Tristate :=
  .promote (K.type s ≠ .tristate ∨ m = .no) (((K.prompts s).map (K.depValue r)).foldr (· ⊔ ·) .no)

/-- What the symbols that select this one ask for. -/
def revOf (m visible : Tristate) (s : σ) : Tristate :=
  if (K.choiceOf s).isSome then .no
  else .promote (K.typeOf m visible s = .boolean) ((K.revDep s).elim .no (K.exprValue r))

def defaultOf (s : σ) : Tristate :=
  (K.firstVisible r Default.visible (K.defaults s)).elim .no fun prop => K.exprValue r prop.expr

/-- What the user or a default gives. -/
def wanted (u : User σ) (s : σ) : Tristate :=
  if u.isNew = false then u.tri
  else if K.isChoice s then .no
  else K.defaultOf r s

variable [DecidableEq σ]

/-- The value of a boolean or tristate symbol, which may be `m`. What the user wants is kept
between what the selecting symbols ask for and what is visible. -/
def settledTri (u : User σ) (chosen : Option σ) (visible revTri : Tristate) (s : σ) : Tristate :=
  if (K.choiceOf s).isSome ∧ visible = .yes then if chosen = some s then .yes else .no
  else if visible ⊔ revTri ≠ .no then (K.wanted r u s ⊓ visible) ⊔ revTri
  else if K.isChoice s then .no
  else K.defaultOf r s

/-- The value of a boolean or tristate symbol. -/
def triOf (u : User σ) (m : Tristate) (chosen : Option σ) (visible revTri : Tristate) (s : σ) :
    Tristate :=
  .promote (K.typeOf m visible s = .boolean) (K.settledTri r u chosen visible revTri s)

/-- The symbol of a default of a choice. -/
def defaultSymbol (prop : Default σ) : Option σ :=
  match prop.expr with
  | .symbol (.other x) => some x
  | _ => none

/-- The values that a choice may have, the preferred ones first : that of the user, the defaults,
and all of them. -/
def candidates (u : User σ) (c : σ) : List σ :=
  u.sym.toList ++
    ((K.defaults c).filter fun prop => K.depValue r prop.visible ≠ .no).filterMap defaultSymbol ++
    K.choiceValues c

/-- The value of a choice that is `y` : the first one that is visible. -/
def pick (u : User σ) (m : Tristate) (c : σ) : Option σ :=
  (K.candidates (r.choosing c) u c).find? fun x => K.visibleOf (r.choosing c) m x ≠ .no

def rangeVal (sym : Symbol σ) (base : ℕ) : ℤ :=
  strtol (r.symVal sym) (baseOf base (sym.type K.toSymbols))

/-- A number is put into the first range that is visible. -/
def rangedIn (s : σ) (base : ℕ) (val : Text) : Text :=
  match K.firstVisible r Range.visible (K.ranges s) with
  | none => val
  | some prop =>
    let low := K.rangeVal r prop.left base
    let high := K.rangeVal r prop.right base
    if low ≤ strtol val base then
      if strtol val base ≤ high then val else printRange (K.type s) high
    else printRange (K.type s) low

def ranged (s : σ) (val : Text) : Text :=
  match K.type s with
  | .int => K.rangedIn r s 10 val
  | .hex => K.rangedIn r s 16 val
  | _ => val

/-- The value of a string or a number : what the user has set, if that is visible, or the symbol
of a default. -/
def valOf (u : User σ) (visible : Tristate) (s : σ) : Text :=
  if visible ≠ .no ∧ u.isNew = false then u.val.getD []
  else
    match K.firstVisible r Default.visible (K.defaults s) with
    | some ⟨_, .symbol ds⟩ => r.symVal ds
    | _ => []

/-- The equation of a symbol. -/
def result (u : User σ) (m : Tristate) (o : σ → Result σ) (s : σ) : Result σ :=
  let r := readingOf o
  let visible := K.visibleOf r m s
  let revTri := K.revOf r m visible s
  let curr : SymbolValue σ :=
    match K.type s with
    | .unknown | .other => ⟨K.name s, none, .no⟩
    | .boolean | .tristate =>
      let chosen := (K.choiceOf s).bind fun c => (o c).curr.sym
      let tri := K.triOf r u m chosen visible revTri s
      if K.isChoice s ∧ tri = .yes then
        match K.pick r u m s with
        | some x => ⟨['n'], some x, .yes⟩
        | none => .no
      else ⟨['n'], none, tri⟩
    | _ => ⟨K.ranged r s (K.valOf r u visible s), none, .no⟩
  ⟨curr, visible, revTri⟩

/-- The symbol has a type. -/
def Declared (s : σ) : Prop := K.type s ≠ .unknown ∧ K.type s ≠ .other

instance (s : σ) : Decidable (K.Declared s) := inferInstanceAs (Decidable (_ ∧ _))

/-- `modules_val`, which is the value of the symbol of modules if that has a type. -/
def modulesOf (o : σ → Result σ) : Tristate :=
  if K.Declared K.modulesSym then (o K.modulesSym).curr.tri else .no

/-- The results of all symbols, for what the user has set. -/
structure Solution (u : σ → User σ) (m : Tristate) (o : σ → Result σ) : Prop where
  eq : ∀ s, o s = K.result (u s) m o s
  modules : m = K.modulesOf o

end Equations

/-! ## Ranks -/

section Ranks

/-- The calculation of a symbol reads another. -/
inductive Reads (K : Kconfig σ) : σ → σ → Prop
  | prompt {s t : σ} {e : Expr σ} (h : some e ∈ K.prompts s) (ht : e.Mentions t) : Reads K s t
  | revDep {s t : σ} {e : Expr σ} (hs : K.choiceOf s = none) (h : K.revDep s = some e)
      (ht : e.Mentions t) : Reads K s t
  | defaultVisible {s t : σ} {d : Default σ} {e : Expr σ} (h : d ∈ K.defaults s)
      (he : d.visible = some e) (ht : e.Mentions t) : Reads K s t
  | default {s t : σ} {d : Default σ} (hs : K.isChoice s = false) (h : d ∈ K.defaults s)
      (ht : d.expr.Mentions t) : Reads K s t
  | rangeVisible {s t : σ} {p : Range σ} {e : Expr σ} (h : p ∈ K.ranges s)
      (he : p.visible = some e) (ht : e.Mentions t) : Reads K s t
  | left {s t : σ} {p : Range σ} (h : p ∈ K.ranges s) (ht : p.left = .other t) : Reads K s t
  | right {s t : σ} {p : Range σ} (h : p ∈ K.ranges s) (ht : p.right = .other t) : Reads K s t
  | choice {s t : σ} (h : K.choiceOf s = some t) : Reads K s t
  | modules {s : σ} (h : K.type s = .tristate) : Reads K s K.modulesSym
  | value {s t x : σ} {e : Expr σ} (hx : K.choiceOf x = some s) (h : some e ∈ K.prompts x)
      (ht : e.Mentions t) (hne : t ≠ s) : Reads K s t

/-- What a symbol reads has a lower rank. -/
def HasRank (K : Kconfig σ) (rank : σ → ℕ) : Prop := ∀ s t, K.Reads s t → rank t < rank s

section Congr

variable {K : Kconfig σ} {r r' : Reading σ} {m m' : Tristate} {s c : σ}

theorem exprValue_congr {e : Expr σ} (h : ∀ t, e.Mentions t → r.Same r' t) :
    K.exprValue r e = K.exprValue r' e := by
  induction e with
  | symbol sym => exact Reading.symTri_congr h
  | not e ih => simp only [exprValue, ih h]
  | comp type sym₁ sym₂ =>
    simp only [exprValue, Reading.symGetStringValue_congr fun t ht => h t (.inl ht),
      Reading.symGetStringValue_congr fun t ht => h t (.inr ht)]
  | two type e₁ e₂ ih₁ ih₂ =>
    simp only [exprValue, ih₁ fun t ht => h t (.inl ht), ih₂ fun t ht => h t (.inr ht)]

theorem depValue_congr {p : Option (Expr σ)}
    (h : ∀ e, p = some e → ∀ t, e.Mentions t → r.Same r' t) :
    K.depValue r p = K.depValue r' p := by
  cases p with
  | none => rfl
  | some e => exact exprValue_congr (h e rfl)

theorem firstVisible_congr {π : Type} {visible : π → Option (Expr σ)} {props : List π}
    (h : ∀ p ∈ props, ∀ e, visible p = some e → ∀ t, e.Mentions t → r.Same r' t) :
    K.firstVisible r visible props = K.firstVisible r' visible props :=
  List.find?_congr fun p hp => by rw [depValue_congr (h p hp)]

/-- The value of the symbol of modules matters to tristate symbols. -/
theorem typeOf_congr (hm : K.type s = .tristate → m = m') (visible : Tristate) :
    K.typeOf m visible s = K.typeOf m' visible s := by
  unfold typeOf
  split_ifs with h <;> simp_all

theorem visibleOf_congr (hm : K.type s = .tristate → m = m')
    (h : ∀ e, some e ∈ K.prompts s → ∀ t, e.Mentions t → r.Same r' t) :
    K.visibleOf r m s = K.visibleOf r' m' s := by
  have hprompts : (K.prompts s).map (K.depValue r) = (K.prompts s).map (K.depValue r') :=
    List.map_congr_left fun p hp => depValue_congr fun e he => h e (he ▸ hp)
  have hbump : (K.type s ≠ .tristate ∨ m = .no) ↔ (K.type s ≠ .tristate ∨ m' = .no) := by
    by_cases ht : K.type s = .tristate
    · rw [hm ht]
    · simp [ht]
  simp only [visibleOf, hprompts, hbump]

theorem revOf_congr (hm : K.type s = .tristate → m = m') (visible : Tristate)
    (h : ∀ t, K.Reads s t → r.Same r' t) :
    K.revOf r m visible s = K.revOf r' m' visible s := by
  unfold revOf
  split_ifs with hs
  · rfl
  · rw [typeOf_congr hm]
    congr 1
    cases he : K.revDep s with
    | none => rfl
    | some e =>
      exact exprValue_congr fun t ht => h t (.revDep (Option.not_isSome_iff_eq_none.mp hs) he ht)

theorem firstVisible_default (h : ∀ t, K.Reads s t → r.Same r' t) :
    K.firstVisible r Default.visible (K.defaults s) =
      K.firstVisible r' Default.visible (K.defaults s) :=
  firstVisible_congr fun _ hp _ he _ ht => h _ (.defaultVisible hp he ht)

theorem firstVisible_range (h : ∀ t, K.Reads s t → r.Same r' t) :
    K.firstVisible r Range.visible (K.ranges s) = K.firstVisible r' Range.visible (K.ranges s) :=
  firstVisible_congr fun _ hp _ he _ ht => h _ (.rangeVisible hp he ht)

theorem defaultOf_congr (hs : K.isChoice s = false) (h : ∀ t, K.Reads s t → r.Same r' t) :
    K.defaultOf r s = K.defaultOf r' s := by
  unfold defaultOf
  rw [firstVisible_default h]
  cases hp : K.firstVisible r' Default.visible (K.defaults s) with
  | none => rfl
  | some prop =>
    have hmem : prop ∈ K.defaults s := List.mem_of_find?_eq_some hp
    exact exprValue_congr fun t ht => h t (.default hs hmem ht)

theorem wanted_congr (u : User σ) (h : ∀ t, K.Reads s t → r.Same r' t) :
    K.wanted r u s = K.wanted r' u s := by
  unfold wanted
  split_ifs with hu hs
  · rfl
  · rfl
  · exact defaultOf_congr (Bool.eq_false_of_not_eq_true hs) h

theorem rangeVal_congr {sym : Symbol σ} (base : ℕ)
    (h : ∀ t, sym = .other t → r.Same r' t) : K.rangeVal r sym base = K.rangeVal r' sym base := by
  rw [rangeVal, rangeVal, Reading.symVal_congr h]

theorem rangedIn_congr (base : ℕ) (val : Text) (h : ∀ t, K.Reads s t → r.Same r' t) :
    K.rangedIn r s base val = K.rangedIn r' s base val := by
  unfold rangedIn
  rw [firstVisible_range h]
  cases hp : K.firstVisible r' Range.visible (K.ranges s) with
  | none => rfl
  | some prop =>
    have hmem : prop ∈ K.ranges s := List.mem_of_find?_eq_some hp
    simp only [rangeVal_congr base fun t ht => h t (.left hmem ht),
      rangeVal_congr base fun t ht => h t (.right hmem ht)]

theorem ranged_congr (val : Text) (h : ∀ t, K.Reads s t → r.Same r' t) :
    K.ranged r s val = K.ranged r' s val := by
  unfold ranged
  split
  · exact rangedIn_congr 10 val h
  · exact rangedIn_congr 16 val h
  · rfl

theorem valOf_congr (u : User σ) (visible : Tristate) (hs : K.isChoice s = false)
    (h : ∀ t, K.Reads s t → r.Same r' t) : K.valOf r u visible s = K.valOf r' u visible s := by
  unfold valOf
  rw [firstVisible_default h]
  cases hp : K.firstVisible r' Default.visible (K.defaults s) with
  | none => rfl
  | some prop =>
    obtain ⟨visible, e⟩ := prop
    have hmem : ⟨visible, e⟩ ∈ K.defaults s := List.mem_of_find?_eq_some hp
    cases e with
    | symbol ds =>
      have hval : r.symVal ds = r'.symVal ds :=
        Reading.symVal_congr fun t ht => h t (.default hs hmem ht)
      simp only [hval]
    | _ => rfl

/-- The candidates of a choice are values of it. -/
theorem choiceOf_candidate {u : User σ} {x : σ} (hc : K.isChoice c = true)
    (hu : ∀ y, u.sym = some y → K.choiceOf y = some c) (hx : x ∈ K.candidates r u c) :
    K.choiceOf x = some c := by
  rcases List.mem_append.mp hx with hx | hx
  · rcases List.mem_append.mp hx with hx | hx
    · exact hu x (Option.mem_toList.mp hx)
    · obtain ⟨d, hd, hdx⟩ := List.mem_filterMap.mp hx
      obtain ⟨sym, hsym, hval⟩ := K.default_of_choice c hc d (List.mem_of_mem_filter hd)
      rw [defaultSymbol, hsym] at hdx
      cases sym with
      | other y => exact hval x (congrArg Symbol.other (Option.some.inj hdx))
      | _ => simp at hdx
  · exact K.choiceOf_mem c hc x hx

variable [DecidableEq σ]

theorem triOf_congr (u : User σ) (hm : K.type s = .tristate → m = m') (chosen : Option σ)
    (visible revTri : Tristate) (h : ∀ t, K.Reads s t → r.Same r' t) :
    K.triOf r u m chosen visible revTri s = K.triOf r' u m' chosen visible revTri s := by
  unfold triOf settledTri
  rw [typeOf_congr hm, wanted_congr u h]
  congr 1
  split_ifs with hs hc hv hch
  · rfl
  · rfl
  · rfl
  · rfl
  · exact defaultOf_congr (Bool.eq_false_of_not_eq_true hch) h

theorem visibleOf_choosing {x : σ} (hm : K.type x = .tristate → m = m')
    (hx : K.choiceOf x = some c) (h : ∀ t, K.Reads c t → r.Same r' t) :
    K.visibleOf (r.choosing c) m x = K.visibleOf (r'.choosing c) m' x :=
  visibleOf_congr hm fun _ he _ ht => .choosing fun hne => h _ (.value hx he ht hne)

theorem candidates_congr (u : User σ) (h : ∀ t, K.Reads c t → r.Same r' t) :
    K.candidates (r.choosing c) u c = K.candidates (r'.choosing c) u c := by
  have hd : (K.defaults c).filter (fun prop => K.depValue (r.choosing c) prop.visible ≠ .no) =
      (K.defaults c).filter (fun prop => K.depValue (r'.choosing c) prop.visible ≠ .no) :=
    List.filter_congr fun d hd => by
      rw [depValue_congr fun e he t ht => .choosing fun _ => h t (.defaultVisible hd he ht)]
  simp only [candidates, hd]

theorem pick_congr {u : User σ} (hc : K.isChoice c = true)
    (hu : ∀ y, u.sym = some y → K.choiceOf y = some c)
    (hm : K.type c = .tristate → m = m') (h : ∀ t, K.Reads c t → r.Same r' t) :
    K.pick r u m c = K.pick r' u m' c := by
  unfold pick
  rw [candidates_congr u h]
  refine List.find?_congr fun x hx => ?_
  have hx := choiceOf_candidate hc hu hx
  rw [visibleOf_choosing (fun ht => hm (K.type_of_value x c hx ▸ ht)) hx h]

/-- The equation of a symbol reads what the calculation of the symbol reads. -/
theorem result_congr {u : User σ} {o o' : σ → Result σ}
    (hu : K.isChoice s = true → ∀ y, u.sym = some y → K.choiceOf y = some s)
    (hm : K.type s = .tristate → m = m') (h : ∀ t, K.Reads s t → o t = o' t) :
    K.result u m o s = K.result u m' o' s := by
  have hr : ∀ t, K.Reads s t → (readingOf o).Same (readingOf o') t := fun t ht =>
    ⟨congrArg (·.curr.tri) (h t ht), congrArg (·.curr.val) (h t ht)⟩
  have hvisible : K.visibleOf (readingOf o) m s = K.visibleOf (readingOf o') m' s :=
    visibleOf_congr hm fun _ he _ ht => hr _ (.prompt he ht)
  have hchosen : ((K.choiceOf s).bind fun c => (o c).curr.sym) =
      (K.choiceOf s).bind fun c => (o' c).curr.sym := by
    cases hc : K.choiceOf s with
    | none => rfl
    | some c => exact congrArg (·.curr.sym) (h c (.choice hc))
  unfold result
  simp only [hvisible, revOf_congr hm _ hr, hchosen, triOf_congr u hm _ _ _ hr, ranged_congr _ hr]
  congr 1
  have hval : ∀ v, K.isChoice s = false →
      K.valOf (readingOf o) u v s = K.valOf (readingOf o') u v s :=
    fun v hs => valOf_congr u v hs hr
  cases ht : K.type s
  case boolean | tristate =>
    dsimp only
    split_ifs with hc
    · rw [pick_congr hc.1 (hu hc.1) hm hr]
    · rfl
  case int | hex | string =>
    have hs : K.isChoice s = false := by
      by_contra hs
      rcases K.logical_of_choice s (Bool.eq_true_of_not_eq_false hs) with h | h <;> simp [ht] at h
    simp only [hval _ hs]
  all_goals rfl

end Congr

end Ranks

/-! ## The solution -/

section Solutions

variable [DecidableEq σ] {K : Kconfig σ} {rank : σ → ℕ} {u u' : σ → User σ} {m m' : Tristate}
variable {o o' : σ → Result σ} {n : ℕ}

/-- What the user has chosen for a choice is a value of it. -/
def WellSet (K : Kconfig σ) (u : σ → User σ) : Prop :=
  ∀ c, K.isChoice c = true → ∀ y, (u c).sym = some y → K.choiceOf y = some c

theorem descends (hK : K.HasRank rank) (hu : K.WellSet u) :
    Descends rank fun o s => K.result (u s) (K.modulesOf o) o s := by
  intro s o o' h
  refine result_congr (hu s) (fun ht => ?_) fun t ht => h t (hK s t ht)
  simp only [modulesOf, h K.modulesSym (hK s _ (.modules ht))]

/-- There is a solution for whatever the user has set. -/
theorem exists_solution (hK : K.HasRank rank) (hu : K.WellSet u) : ∃ m o, K.Solution u m o := by
  have : Nonempty (Result σ) := ⟨⟨.no, .no, .no⟩⟩
  obtain ⟨o, ho⟩ := (descends hK hu).exists_solution
  exact ⟨K.modulesOf o, o, ho, rfl⟩

/-- Solutions for settings that are the same up to a rank are the same up to there. -/
theorem Solution.eq_of_lt (hK : K.HasRank rank) (hu : K.WellSet u) (h : K.Solution u m o)
    (h' : K.Solution u' m' o') (hn : ∀ s, rank s < n → u s = u' s) :
    ∀ s, rank s < n → o s = o' s := by
  have hsame : ∀ s, rank s < n → ∀ o, K.result (u s) (K.modulesOf o) o s =
      K.result (u' s) (K.modulesOf o) o s := fun s hs o => by rw [hn s hs]
  refine (descends hK hu).eq_of_lt hsame (fun s => ?_) fun s => ?_
  · rw [← h.modules]
    exact h.eq s
  · rw [← h'.modules]
    exact h'.eq s

theorem Solution.unique (hK : K.HasRank rank) (hu : K.WellSet u) (h : K.Solution u m o)
    (h' : K.Solution u m' o') : o = o' :=
  funext fun s => h.eq_of_lt hK hu h' (fun _ _ => rfl) s (Nat.lt_succ_self (rank s))

end Solutions

end Kconfig

end Makeroot
