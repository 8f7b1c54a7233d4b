import Mathlib.Order.BoundedOrder.Lattice

/-!
# Junctions of a bounded lattice

Join and meet are treated alike, as the two junctions of a bounded lattice : each has a unit,
which is an operand that makes no difference, and a zero, which decides the whole. `Parted` is
the relation between two elements and what is left of them when a common operand has been taken
out of both. It goes through the operands one at a time, and what it says of the remainders
(they are equal, one is below the other) is so of the elements.
-/

namespace DeMorgan

/-- A junction. -/
inductive Junction
  | or
  | and
deriving DecidableEq

namespace Junction

/-- The other junction. -/
def dual : Junction → Junction
  | or => and
  | and => or

@[simp] theorem dual_dual (t : Junction) : t.dual.dual = t := by
  cases t <;> rfl

/-- There are no more than two. -/
theorem eq_dual_of_ne {t t' : Junction} (h : t' ≠ t) : t' = t.dual := by
  cases t <;> cases t' <;> simp_all [dual]

variable {α : Type*} [Lattice α]

def op : Junction → α → α → α
  | or => (· ⊔ ·)
  | and => (· ⊓ ·)

section Op

variable (t : Junction) (a b c : α)

theorem op_comm : t.op a b = t.op b a := by
  cases t
  · exact sup_comm a b
  · exact inf_comm a b

theorem op_assoc : t.op (t.op a b) c = t.op a (t.op b c) := by
  cases t
  · exact sup_assoc a b c
  · exact inf_assoc a b c

instance : Std.Commutative (t.op : α → α → α) := ⟨t.op_comm⟩

instance : Std.Associative (t.op : α → α → α) := ⟨t.op_assoc⟩

@[simp] theorem op_self : t.op a a = a := by
  cases t
  · exact sup_idem a
  · exact inf_idem a

variable {a b c}

theorem op_mono {a' b' : α} (ha : a ≤ a') (hb : b ≤ b') : t.op a b ≤ t.op a' b' := by
  cases t
  · exact sup_le_sup ha hb
  · exact inf_le_inf ha hb

variable [BoundedOrder α]

/-- The operand that makes no difference. -/
def unit : Junction → α
  | or => ⊥
  | and => ⊤

variable (a)

@[simp] theorem unit_op : t.op t.unit a = a := by
  cases t
  · exact bot_sup_eq a
  · exact top_inf_eq a

@[simp] theorem op_unit : t.op a t.unit = a := by
  rw [op_comm, unit_op]

/-- The unit of the one is the zero of the other. -/
@[simp] theorem dual_unit_op : t.op t.dual.unit a = t.dual.unit := by
  cases t
  · exact top_sup_eq a
  · exact bot_inf_eq a

@[simp] theorem op_dual_unit : t.op a t.dual.unit = t.dual.unit := by
  rw [op_comm, dual_unit_op]

end Op

end Junction

/-! ## Parts in common -/

section Parted

variable {α : Type*} [Lattice α] {t : Junction} {a b a' b' a'' b'' : α}

/-- `a'` and `b'` are what is left of `a` and `b` without some operand of both. -/
def Parted (t : Junction) (a b a' b' : α) : Prop := ∃ c, a = t.op c a' ∧ b = t.op c b'

theorem Parted.trans (h : Parted t a b a' b') (h' : Parted t a' b' a'' b'') :
    Parted t a b a'' b'' := by
  obtain ⟨c, rfl, rfl⟩ := h
  obtain ⟨d, rfl, rfl⟩ := h'
  exact ⟨t.op c d, (t.op_assoc ..).symm, (t.op_assoc ..).symm⟩

theorem Parted.symm (h : Parted t a b a' b') : Parted t b a b' a' := by
  obtain ⟨c, ha, hb⟩ := h
  exact ⟨c, hb, ha⟩

/-- What is taken out of one operand is taken out of the whole. -/
theorem Parted.op_left (h : Parted t a b a' b') (x : α) :
    Parted t (t.op a x) b (t.op a' x) b' := by
  obtain ⟨c, rfl, rfl⟩ := h
  exact ⟨c, t.op_assoc .., rfl⟩

theorem Parted.op_right (h : Parted t a b a' b') (x : α) :
    Parted t (t.op x a) b (t.op x a') b' := by
  rw [t.op_comm x a, t.op_comm x a']
  exact h.op_left x

theorem Parted.le (h : Parted t a b a' b') (hle : a' ≤ b') : a ≤ b := by
  obtain ⟨c, rfl, rfl⟩ := h
  exact t.op_mono le_rfl hle

/-- What is so of the order of `a'` and `b'` is so of that of `a` and `b`. -/
def Reflects (a b a' b' : α) : Prop := (a' ≤ b' → a ≤ b) ∧ (b' ≤ a' → b ≤ a)

theorem Parted.reflects (h : Parted t a b a' b') : Reflects a b a' b' := ⟨h.le, h.symm.le⟩

theorem Reflects.refl (a b : α) : Reflects a b a b := ⟨id, id⟩

theorem Reflects.trans (h : Reflects a b a' b') (h' : Reflects a' b' a'' b'') :
    Reflects a b a'' b'' :=
  ⟨h.1 ∘ h'.1, h.2 ∘ h'.2⟩

theorem Reflects.eq (h : Reflects a b a' b') (heq : a' = b') : a = b :=
  le_antisymm (h.1 heq.le) (h.2 heq.ge)

variable [BoundedOrder α]

theorem Parted.refl (t : Junction) (a b : α) : Parted t a b a b :=
  ⟨t.unit, (t.unit_op a).symm, (t.unit_op b).symm⟩

/-- Nothing but units is left of equals. -/
theorem parted_of_eq (h : a = b) : Parted t a b t.unit t.unit :=
  ⟨a, (t.op_unit a).symm, by rw [t.op_unit, h]⟩

end Parted

end DeMorgan
