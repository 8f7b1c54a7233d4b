import Mathlib.Data.Option.Basic

/-!
# Programs that need fuel

A recursion that no argument bounds in sight is given fuel, and is `none` when it runs out.
`Returns` is total correctness of such a program : it has a result, and that is as wanted. It
goes through a sequence of steps like a weakest precondition. `Runs` is the same for a program
that has a state besides.
-/

namespace Fuel

universe u

variable {α β : Type u} {m : Option α} {f : α → Option β} {P Q : α → Prop} {a : α}

/-- There is a result, with the property `Q`. -/
def Returns (m : Option α) (Q : α → Prop) : Prop := ∃ a, m = some a ∧ Q a

@[simp] theorem returns_some : Returns (some a) Q ↔ Q a := by
  simp [Returns]

@[simp] theorem returns_pure : Returns (pure a) Q ↔ Q a := returns_some

theorem returns_bind {R : β → Prop} :
    Returns (m >>= f) R ↔ Returns m fun a => Returns (f a) R := by
  cases m with
  | none => simp [Returns]
  | some a => simp

theorem Returns.mono (h : Returns m P) (hPQ : ∀ a, P a → Q a) : Returns m Q := by
  obtain ⟨a, ha, hP⟩ := h
  exact ⟨a, ha, hPQ a hP⟩

/-- One step, and then the rest. -/
theorem Returns.bind {R : β → Prop} (h : Returns m P) (hf : ∀ a, P a → Returns (f a) R) :
    Returns (m >>= f) R :=
  returns_bind.mpr (h.mono hf)

/-- A step for what may not be there. -/
theorem returns_mapM {γ : Type u} {g : γ → Option β} {d : Option γ} {R : Option β → Prop}
    (hnone : d = none → R none) (hsome : ∀ c, d = some c → Returns (g c) fun b => R (some b)) :
    Returns (d.mapM g) R := by
  cases d with
  | none => exact ⟨none, rfl, hnone rfl⟩
  | some c =>
    obtain ⟨b, hb, hR⟩ := hsome c rfl
    have hmap : (some <$> g c : Option (Option β)) = some (some b) := by
      rw [hb]
      rfl
    exact ⟨some b, hmap, hR⟩

/-! ## Programs with a state -/

section State

variable {σ : Type u} {s : σ} {m : StateT σ Option α} {f : α → StateT σ Option β}
variable {P Q : α → σ → Prop}

/-- The run from `s` comes to an end, with a result and a state as wanted. -/
def Runs (m : StateT σ Option α) (s : σ) (Q : α → σ → Prop) : Prop :=
  Returns (m s) fun r => Q r.1 r.2

@[simp] theorem runs_pure : Runs (pure a) s Q ↔ Q a s := returns_some

@[simp] theorem runs_get {Q : σ → σ → Prop} : Runs get s Q ↔ Q s s := returns_some

@[simp] theorem runs_modify {g : σ → σ} {Q : PUnit → σ → Prop} :
    Runs (modify g) s Q ↔ Q ⟨⟩ (g s) := returns_some

theorem runs_bind {R : β → σ → Prop} :
    Runs (m >>= f) s R ↔ Runs m s fun a s' => Runs (f a) s' R := returns_bind

theorem Runs.mono (h : Runs m s P) (hPQ : ∀ a s', P a s' → Q a s') : Runs m s Q :=
  Returns.mono h fun r hr => hPQ r.1 r.2 hr

theorem Runs.of_eq {s' : σ} (h : Runs m s Q) (hm : m s = some (a, s')) : Q a s' := by
  obtain ⟨r, hr, hQ⟩ := h
  obtain rfl := Option.some.inj (hm.symm.trans hr)
  exact hQ

theorem Runs.exists (h : Runs m s Q) : ∃ a s', m s = some (a, s') ∧ Q a s' := by
  obtain ⟨⟨a, s'⟩, hm, hQ⟩ := h
  exact ⟨a, s', hm, hQ⟩

theorem run_get {m : Option (Unit × σ)} (h : m.isSome) : m = some ((), (m.get h).2) := by
  cases m with
  | none => simp at h
  | some r => rfl

/-- A run whose result is not looked at. -/
theorem run_discard {s' : σ} (h : m s = some (a, s')) :
    (m >>= fun _ => pure PUnit.unit) s = some (PUnit.unit, s') := by
  change (m s).bind _ = _
  rw [h]
  rfl

/-- One step, and then the rest. -/
theorem Runs.bind {R : β → σ → Prop} (h : Runs m s P)
    (hf : ∀ a s', P a s' → Runs (f a) s' R) : Runs (m >>= f) s R :=
  runs_bind.mpr (h.mono hf)

end State

end Fuel
