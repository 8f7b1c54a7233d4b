import Makeroot.CopyTree

/-!
# What a copy finds at its source

A copy reads its source while it writes its destination. `FS.SameOutside` says that all that
has happened has happened in one region, and `FS.Settled` that a path does not come to
name anything else by it. `FS.Sourced` is the tree that is copied : the objects at the source
and below it, with the links followed if they are to be. If that tree keeps off the
destination (`FS.KeepsOff`), each path the copy goes on with is settled too.
-/

namespace Posix.FS

variable {fs fs' fs'' : FS} {cwd R : Loc}

/-! ## Changes in a region -/

/-- `fs'` differs from `fs` in the region `R` at most, and has every directory of it. -/
structure SameOutside (R : Loc) (fs fs' : FS) : Prop where
  dirs : ∀ p, fs.isDir p → fs'.isDir p
  out : ∀ p, ¬Above R p → fs'.node p = fs.node p

theorem SameOutside.refl (R : Loc) (fs : FS) : SameOutside R fs fs := ⟨fun _ h => h, fun _ _ => rfl⟩

theorem SameOutside.of_within {S d : Loc} {w w' : World} (h : SameOutside R fs w.fs)
    (hw : Within S d w w') (hR : Above R d) : SameOutside R fs w'.fs :=
  ⟨fun p hp => hw.dirs p (h.dirs p hp),
    fun p hp => (hw.out p fun hd => hp (hR.trans hd)).trans (h.out p hp)⟩

/-- Whatever happens in the region `R`, what the path names is in `P`. -/
def Settled (fs : FS) (cwd R : Loc) (follow : Bool) (t : Path) (P : Loc → Prop) : Prop :=
  ∀ fs', SameOutside R fs fs' → ∀ q, fs'.resolve cwd follow t = .ok (.there q) → P q

/-- A path settled on a directory is so whether links at its end are followed or not. -/
theorem Settled.of_isDir {follow : Bool} {t : Path} {q : Loc}
    (h : fs.Settled cwd R follow t (· = q)) (hd : fs.isDir q) :
    fs.Settled cwd R true t (· = q) := by
  intro fs' hs p hp
  cases follow with
  | true => exact h fs' hs p hp
  | false =>
    obtain ⟨r, hr, rfl | ⟨j, u, hj, hu⟩⟩ := exists_entry hp
    · exact h fs' hs r hr
    · obtain rfl : r = q := h fs' hs r hr
      have hrd := hs.dirs r hd
      rw [isDir_of_node hj, Node.isDir, hu] at hrd
      simp at hrd

/-! ## The tree that is copied -/

/-- What a copy takes for the entry `n` of `q` : the entry itself, or what it leads to. -/
def Entry (fs : FS) (deref : Bool) (q : Loc) (n : Name) (q' : Loc) : Prop :=
  if deref then fs.Leads q [.name n] q' else q' = n :: q ∧ (fs.node q').isSome

/-- A copy of `q` takes what is at `q'` for what is at `r` below it. -/
inductive Sourced (fs : FS) (deref : Bool) : Loc → Loc → Loc → Prop
  | here (q : Loc) : Sourced fs deref q [] q
  | entry {q q' q'' r : Loc} {n : Name} (hd : fs.isDir q) (hn : fs.Entry deref q n q')
      (h : Sourced fs deref q' r q'') : Sourced fs deref q (r ++ [n]) q''

section Sourced

variable {deref : Bool} {q q' q'' r : Loc} {n : Name}

theorem Entry.unique (h : fs.Entry deref q n q') (h' : fs.Entry deref q n q'') : q' = q'' := by
  unfold Entry at h h'
  split_ifs at h h'
  · exact h.unique h'
  · exact h.1.trans h'.1.symm

theorem isDir_of_walk_name {follow : Bool} {k : ℕ} {p q : Loc}
    (h : fs.walk follow k p [.name n] = .ok (.there q)) : fs.isDir p := by
  have hf : ∀ e, fs.scan p [.name n] ≠ .fail e := fun e he => by
    rcases walk_there h with hs | ⟨r, m, t, rest, hs, -⟩
    · simp [hs] at he
    · simp [hs] at he
  exact fs.isDir_of_scan hf

/-- What an entry leads to is led to by something. -/
theorem isSome_of_leads (h : fs.Leads q [.name n] q') : (fs.node (n :: q)).isSome := by
  obtain ⟨k, hk⟩ := h
  cases hn : fs.node (n :: q) with
  | some j => rfl
  | none =>
    rw [walk_name (isDir_of_walk_name hk) (.inr fun j t hj => by simp [hn] at hj), hn] at hk
    simp at hk

theorem Entry.isSome (h : fs.Entry deref q n q') : (fs.node (n :: q)).isSome := by
  unfold Entry at h
  split_ifs at h
  · exact isSome_of_leads h
  · exact h.1 ▸ h.2

theorem sourced_nil (h : fs.Sourced deref q [] q') : q' = q := by
  generalize hr : ([] : Loc) = r at h
  cases h with
  | here => rfl
  | entry => simp at hr

theorem sourced_append (h : fs.Sourced deref q (r ++ [n]) q'') :
    ∃ q', fs.isDir q ∧ fs.Entry deref q n q' ∧ fs.Sourced deref q' r q'' := by
  generalize hs : r ++ [n] = s at h
  cases h with
  | here => simp at hs
  | entry hd hn h =>
    obtain ⟨rfl, hns⟩ := List.append_inj' hs rfl
    obtain rfl := (List.cons.inj hns).1
    exact ⟨_, hd, hn, h⟩

end Sourced

/-! ## Away from the destination -/

/-- The tree that is copied has nothing in common with the region `R`, and whatever happens
there, its links lead where they lead. -/
structure KeepsOff (fs : FS) (deref : Bool) (R q : Loc) : Prop where
  not_below : ∀ {r q'}, fs.Sourced deref q r q' → ¬Above R q'
  not_above : ∀ {r q'}, fs.Sourced deref q r q' → ¬Above q' R
  links : deref = true → ∀ {r q'}, fs.Sourced deref q r q' → ∀ fs', SameOutside R fs fs' →
    ∀ n q'', fs'.Leads q' [.name n] q'' → fs.Leads q' [.name n] q''

/-- With links kept a copy takes what stands below its source. -/
theorem Sourced.eq_append {q r q' : Loc} (h : fs.Sourced false q r q') : q' = r ++ q := by
  induction h with
  | here => rfl
  | entry hd hn h ih =>
    simp only [Entry, Bool.false_eq_true, if_false] at hn
    rw [ih, hn.1, List.append_assoc, List.singleton_append]

/-- With links kept it is enough that neither place is above the other. -/
theorem keepsOff_of_apart {q : Loc} (hq : ¬Above q R) (hR : ¬Above R q) :
    fs.KeepsOff false R q where
  not_below hs h := by
    rw [hs.eq_append] at h
    exact (h.total (List.suffix_append _ q)).elim hR hq
  not_above hs h := by
    rw [hs.eq_append] at h
    exact hq ((List.suffix_append _ q).trans h)
  links hx := by simp at hx

section KeepsOff

variable {deref : Bool} {q q' : Loc} {n : Name}

theorem KeepsOff.entry (h : fs.KeepsOff deref R q) (hd : fs.isDir q) (hn : fs.Entry deref q n q') :
    fs.KeepsOff deref R q' :=
  ⟨fun hs => h.not_below (.entry hd hn hs), fun hs => h.not_above (.entry hd hn hs),
    fun hx _ _ hs => h.links hx (.entry hd hn hs)⟩

/-- Where a copy takes an entry from, nothing has happened. -/
theorem KeepsOff.not_below_entry (h : fs.KeepsOff deref R q) (n : Name) : ¬Above R (n :: q) :=
  fun hR => (above_cons_iff.mp hR).elim
    (fun heq => h.not_above (.here q) (heq ▸ List.suffix_cons n q)) (h.not_below (.here q))

/-- The path of an entry is settled if that of its directory is. -/
theorem KeepsOff.settled (h : fs.KeepsOff deref R q) {t u : Path} (ht : t ≠ [])
    (hs : fs.Settled cwd R true t (· = q)) (hu : IsChild t n u) :
    fs.Settled cwd R deref u (fs.Entry deref q n) := by
  intro fs' hsame p hp
  rw [resolve, if_neg hu.ne, start, hu.isAbs, ← start] at hp
  -- the directory is where it was
  obtain ⟨k, hk⟩ : ∃ k, fs'.walk deref k q [.name n] = .ok (.there p) := by
    rcases hu.comps with hc | ⟨hcur, hc⟩
    · rw [hc] at hp
      obtain ⟨r, hr, hd⟩ := walk_prefix hp
      obtain rfl := hs fs' hsame r (resolve_of_walk_pieces ht hr hd)
      obtain ⟨k, -, hk⟩ := walk_append hr
      exact ⟨k, by rw [← (hk _ (by simp)).1, hp]⟩
    · rw [hc] at hp
      have hd : fs'.isDir (start cwd t) := isDir_of_walk_name hp
      have hdot : fs'.walk true maxLinks (start cwd t) (pieces t) = .ok (.there (start cwd t)) :=
        walk_of_done (by rw [hcur]; simp [scan, hd])
      obtain rfl := hs fs' hsame _ (resolve_of_walk_pieces ht hdot hd)
      exact ⟨_, hp⟩
  unfold Entry
  cases deref with
  | true => exact h.links rfl (.here q) fs' hsame n p ⟨k, hk⟩
  | false =>
    rw [walk_name (isDir_of_walk_name hk) (.inl rfl)] at hk
    split_ifs at hk with hn
    · simp only [Except.ok.injEq, Found.there.injEq] at hk
      subst hk
      rw [hsame.out _ (h.not_below_entry n)] at hn
      exact ⟨rfl, hn⟩
    · simp at hk

end KeepsOff

end Posix.FS
