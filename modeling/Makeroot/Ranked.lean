import Mathlib.Data.Fintype.EquivFin
import Mathlib.Logic.Function.DependsOn
import Mathlib.Logic.Function.Iterate
import Mathlib.Logic.Relation

/-!
# Equations without cycles

Unknowns have ranks, and the equation of one reads only unknowns of lower rank. Such equations
have exactly one solution, and what it has up to a rank is settled by the equations up to there.
Finitely many unknowns have ranks if none of them reads itself on a detour (`exists_rank`).
-/

namespace Ranked

variable {ι β : Type*} {rank : ι → ℕ} {F F' : (ι → β) → ι → β} {o o' : ι → β} {n : ℕ}

/-- Each equation reads what is of lower rank. -/
def Descends (rank : ι → ℕ) (F : (ι → β) → ι → β) : Prop :=
  ∀ i, DependsOn (fun o => F o i) {j | rank j < rank i}

/-- Solutions of equations that are the same below a rank are the same there. -/
theorem Descends.eq_of_lt (hF : Descends rank F) (h : ∀ i, rank i < n → ∀ o, F o i = F' o i)
    (ho : ∀ i, o i = F o i) (ho' : ∀ i, o' i = F' o' i) : ∀ i, rank i < n → o i = o' i := by
  suffices hr : ∀ r i, rank i < r → rank i < n → o i = o' i from
    fun i hi => hr (rank i + 1) i (Nat.lt_succ_self _) hi
  intro r
  induction r with
  | zero => exact fun i hi => absurd hi (Nat.not_lt_zero _)
  | succ r ih =>
    intro i hi hn
    rw [ho i, ho' i, ← h i hn o']
    exact hF i fun j (hj : rank j < rank i) => ih j (by omega) (by omega)

theorem Descends.unique (hF : Descends rank F) (ho : ∀ i, o i = F o i)
    (ho' : ∀ i, o' i = F o' i) : o = o' :=
  funext fun i => hF.eq_of_lt (fun _ _ _ => rfl) ho ho' i (Nat.lt_succ_self (rank i))

/-- More rounds than the rank of an unknown leave it as it is. -/
theorem Descends.iterate (hF : Descends rank F) (d : ι → β) :
    ∀ r k i, rank i < r → (F^[r + k] d) i = (F^[r] d) i := by
  intro r
  induction r with
  | zero => exact fun k i hi => absurd hi (Nat.not_lt_zero _)
  | succ r ih =>
    intro k i hi
    rw [Nat.succ_add, Function.iterate_succ_apply', Function.iterate_succ_apply']
    exact hF i fun j (hj : rank j < rank i) => ih k j (by omega)

theorem Descends.exists_solution [Nonempty β] (hF : Descends rank F) :
    ∃ o, ∀ i, o i = F o i := by
  let d : ι → β := fun _ => Classical.arbitrary β
  refine ⟨fun i => (F^[rank i + 1] d) i, fun i => ?_⟩
  refine (congrFun (Function.iterate_succ_apply' F (rank i) d) i).trans ?_
  refine hF i fun j (hj : rank j < rank i) => ?_
  obtain ⟨k, hk⟩ := Nat.exists_eq_add_of_le hj
  rw [hk]
  exact hF.iterate d _ k j (Nat.lt_succ_self _)

/-! ## Ranks -/

section Relations

open Relation

variable {r q : ι → ι → Prop}

/-- A finite relation without cycles has ranks : the number of what can be reached. -/
theorem exists_rank [Finite ι] (h : ∀ i, ¬ TransGen r i i) :
    ∃ rank : ι → ℕ, ∀ i j, r i j → rank j < rank i := by
  classical
  have := Fintype.ofFinite ι
  refine ⟨fun i => (Finset.univ.filter fun j => TransGen r i j).card, fun i j hij => ?_⟩
  refine Finset.card_lt_card ((Finset.ssubset_iff_of_subset fun k hk => ?_).mpr ⟨j, ?_, ?_⟩)
  · simp only [Finset.mem_filter, Finset.mem_univ, true_and] at hk ⊢
    exact .head hij hk
  · simpa using TransGen.single hij
  · simpa using h j

/-- A relation has no cycles if another one has none, and it adds nothing to that but dead ends and
ways to one place `m`, from where it is not possible to get to the starts of such ways. -/
theorem acyclic_of {P : ι → Prop} {m : ι} (hq : ∀ i, ¬ TransGen q i i)
    (hr : ∀ i j k, r i j → r j k → q i j ∨ P i ∧ j = m)
    (hm : ∀ i, P i → ¬ ReflTransGen q m i) : ∀ i, ¬ TransGen r i i := by
  have hpath : ∀ i j k, TransGen r i j → r j k →
      TransGen q i j ∨ (∃ x, P x ∧ ReflTransGen q i x) ∧ ReflTransGen q m j := by
    intro i j k h
    induction h generalizing k with
    | single hij =>
      intro hjk
      rcases hr _ _ _ hij hjk with hq' | ⟨hP, rfl⟩
      · exact .inl (.single hq')
      · exact .inr ⟨⟨i, hP, .refl⟩, .refl⟩
    | tail _ hjk ih =>
      intro hk
      rcases hr _ _ _ hjk hk with hq' | ⟨hP, rfl⟩
      · exact (ih _ hjk).imp (·.tail hq') fun h => ⟨h.1, h.2.tail hq'⟩
      · refine .inr ⟨?_, .refl⟩
        rcases ih _ hjk with h | h
        · exact ⟨_, hP, h.to_reflTransGen⟩
        · exact h.1
  intro i h
  obtain ⟨k, hk, -⟩ := TransGen.head'_iff.mp h
  rcases hpath i i k h hk with h | ⟨⟨x, hP, hx⟩, hi⟩
  · exact hq i h
  · exact hm x hP (hi.trans hx)

end Relations

end Ranked
