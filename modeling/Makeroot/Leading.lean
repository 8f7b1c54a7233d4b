import Makeroot.MakePath

/-!
# Where the directories are made

The path of a directory that is to be made leads through what is there, and on along names.
`makePath_trail` says how far `make_path` comes : all the names lead somewhere, or one of
them is in the way, or from the first that is missing on a chain of new directories is
made, and nothing is changed anywhere else. Which calls fail decides only whether the chain
comes to its end.
-/

namespace Makeroot

open Posix

/-! ## One component at a time -/

/-- A leading part with its last component : what `mkdir` is given is that component, or a
path that ends in it. -/
structure Single (d : Path × Path) : Prop where
  slash : '/' ∉ d.2
  ne : d.2 ≠ []
  full : ∃ done, d.1 = done ++ d.2

namespace Single

variable {d : Path × Path}

theorem getLast (h : Single d) : d.1.getLast? ≠ some '/' := by
  obtain ⟨done, hd⟩ := h.full
  rw [hd, List.getLast?_append_of_ne_nil _ h.ne]
  exact fun hl => h.slash (List.mem_of_getLast? hl)

theorem getLast' (h : Single d) : d.2.getLast? ≠ some '/' :=
  fun hl => h.slash (List.mem_of_getLast? hl)

theorem isAbs (h : Single d) : Posix.isAbs d.2 = false := by
  unfold Posix.isAbs
  cases hd : d.2 with
  | nil => rfl
  | cons c t =>
    have : c ≠ '/' := fun hc => h.slash (by simp [hd, hc])
    simp [this]

/-- It is one component. -/
theorem exists_pieces (h : Single d) : ∃ c, pieces d.2 = [c] := by
  rw [pieces_of_notMem h.slash]
  have hsome : (Comp.ofText d.2).isSome := by
    unfold Comp.ofText
    split_ifs with h₁ h₂ h₃
    · rfl
    · rfl
    · rfl
    · exact absurd ⟨h.ne, h.slash, h₂, h₃⟩ h₁
  obtain ⟨c, hc⟩ := Option.isSome_iff_exists.mp hsome
  exact ⟨c, by simp [hc]⟩

end Single

theorem single_dirPrefixes {done comp t : Path} (hc : '/' ∉ comp)
    (ht : t ≠ [] ∧ t.getLast? ≠ some '/' ∨ t = [] ∧ comp ≠ []) {d : Path × Path}
    (hd : d ∈ dirPrefixes done comp t) : Single d := by
  induction t generalizing done comp with
  | nil =>
    rw [dirPrefixes, List.mem_singleton] at hd
    subst hd
    exact ⟨hc, (ht.resolve_left (by simp)).2, done, rfl⟩
  | cons c t ih =>
    have hlast := (ht.resolve_right (by simp)).2
    have hrest : c = '/' → t ≠ [] ∧ t.getLast? ≠ some '/' := by
      rintro rfl
      have hne : t ≠ [] := fun h => by simp [h] at hlast
      exact ⟨hne, by rwa [List.getLast?_cons_of_ne_nil hne] at hlast⟩
    rw [dirPrefixes] at hd
    split_ifs at hd with hs hcomp
    · exact ih (by simp) (.inl (hrest hs)) hd
    · rcases List.mem_cons.mp hd with rfl | hd
      · exact ⟨hc, hcomp, done, rfl⟩
      · exact ih (by simp) (.inl (hrest hs)) hd
    · refine ih (fun h => ?_) ?_ hd
      · rcases List.mem_append.mp h with h | h
        · exact hc h
        · exact hs (List.mem_singleton.mp h).symm
      · by_cases hne : t = []
        · exact .inr ⟨hne, by simp⟩
        · exact .inl ⟨hne, by rwa [List.getLast?_cons_of_ne_nil hne] at hlast⟩

/-- The components of a list of leading parts are those of the last of them. -/
theorem Chain.flatMap {cs : List Comp} {dirs : List (Path × Path)} (h : Chain cs dirs)
    {last : Path × Path} (hl : dirs.getLast? = some last) :
    pieces last.1 = cs ++ dirs.flatMap (pieces ·.2) := by
  induction dirs generalizing cs with
  | nil => simp at hl
  | cons d ds ih =>
    obtain ⟨full, comp⟩ := d
    obtain ⟨-, hpieces, hchain⟩ := h
    cases ds with
    | nil =>
      obtain rfl : (full, comp) = last := by simpa using hl
      simp [hpieces]
    | cons d' ds =>
      rw [ih hchain (by simpa using hl), hpieces]
      simp

/-! ## Calls on a component -/

section Component

variable {S : Loc} {doChdir : Bool} {p₀ p : Loc} {cs : List Comp} {dirs : List (Path × Path)}
  {d : Path × Path} {w : World}

/-- A component is resolved from where the loop is, unless the full path has too many
links. -/
theorem At.resolve (h : At doChdir p₀ p cs (d :: dirs) w) (hs : Single d)
    (hpieces : pieces d.1 = cs ++ pieces d.2) : ∃ k ≤ FS.maxLinks, ∀ follow,
      w.fs.resolve w.cwd follow (if doChdir then d.2 else d.1) = w.fs.walk follow k p (pieces d.2) ∨
      doChdir = false ∧
        w.fs.resolve w.cwd follow (if doChdir then d.2 else d.1) = .error .loop := by
  cases hc : doChdir with
  | true =>
    refine ⟨FS.maxLinks, le_rfl, fun follow => .inl ?_⟩
    rw [if_pos rfl, FS.resolve, if_neg hs.ne, comps_of_pieces hs.getLast', start, hs.isAbs,
      h.cwd hc]
    rfl
  | false =>
    have hne : d.1 ≠ [] := by
      obtain ⟨done, hd⟩ := hs.full
      simp [hd, hs.ne]
    obtain ⟨c, hpc⟩ := hs.exists_pieces
    obtain ⟨k', hk'⟩ := h.leads
    have hresolve : ∀ follow, w.fs.resolve w.cwd follow d.1 =
        w.fs.walk follow FS.maxLinks p₀ (cs ++ pieces d.2) := fun follow => by
      rw [FS.resolve, if_neg hne, comps_of_pieces hs.getLast, h.origin hc d (by simp) hne, hpieces]
    simp only [Bool.false_eq_true, if_false, true_and, hresolve]
    rcases FS.walk_eq_loop (k := FS.maxLinks) hk' (show pieces d.2 ≠ [] by simp [hpc]) with hw | hw
    · obtain ⟨k, hk, hw⟩ := FS.walk_append hw
      exact ⟨k, hk, fun follow => .inl ((hw _ (by simp [hpc])).1 follow)⟩
    · exact ⟨0, Nat.zero_le _, fun follow => .inr (hw follow)⟩

/-- `mkdir` for a name : a new directory where nothing is, or nothing. -/
theorem mkdir_name (h : At doChdir p₀ p cs (d :: dirs) w) (hs : Single d)
    (hpieces : pieces d.1 = cs ++ pieces d.2) (hp : w.fs.isDir p) {n : Name}
    (hn : pieces d.2 = [.name n]) (mode : ℕ) :
    wp (mkdir (if doChdir then d.2 else d.1) mode) (fun r w' =>
      (∃ e, r = .error e ∧ w' = w.next ∧
        (w.Calm → doChdir = true → (w.fs.node (n :: p)).isSome)) ∨
      r = .ok () ∧ w.fs.node (n :: p) = none ∧ Within S (n :: p) w w' ∧
        w'.fs = w.fs.put (n :: p) ⟨.dir, mode, w.env.now, w.env.now⟩) (fun _ _ => False) w := by
  obtain ⟨k, -, hk⟩ := h.resolve hs hpieces
  have hwalk := @FS.walk_name _ false k p n hp (.inl rfl)
  have hk := hk false
  rw [hn, hwalk] at hk
  have htarget : ∀ q, w.fs.target w.cwd false (if doChdir then d.2 else d.1) = some q →
      q = n :: p := by
    intro q hq
    unfold FS.target at hq
    rcases hk with hk | ⟨-, hk⟩
    · rw [hk] at hq
      split_ifs at hq <;> simpa using hq.symm
    · simp [hk] at hq
  refine wp_mkdir (S := S) (R := n :: p) (fun q hq => htarget q hq ▸ .refl _) (fun e he => ?_) ?_
  · refine .inl ⟨e, rfl, rfl, fun hc hd => ?_⟩
    have he' := he (hc _)
    rcases hk with hk | ⟨hd', -⟩
    · by_contra hnone
      rw [if_neg hnone] at hk
      simp [World.mkdir, hk] at he'
    · simp [hd] at hd'
  · intro q m s w' hr hw hfs _
    obtain ⟨-, hnone⟩ := FS.resolve_absent hr
    have heq := htarget _ (FS.target_of_absent hr)
    rw [heq] at hnone hfs
    exact .inr ⟨rfl, hnone, hw, hfs⟩

/-- `mkdir` for a component that leads somewhere. -/
theorem mkdir_there (h : At doChdir p₀ p cs (d :: dirs) w) (hs : Single d)
    (hpieces : pieces d.1 = cs ++ pieces d.2) {q : Loc} (hq : w.fs.Leads p (pieces d.2) q)
    (mode : ℕ) : wp (mkdir (if doChdir then d.2 else d.1) mode)
      (fun r w' => (∃ e, r = .error e) ∧ w' = w.next) (fun _ _ => False) w := by
  obtain ⟨k, -, hk⟩ := h.resolve hs hpieces
  have herr : ∃ e, w.next.mkdir (if doChdir then d.2 else d.1) mode = .error e := by
    unfold World.mkdir
    rw [World.next_fs, World.next_cwd]
    obtain ⟨c, hc⟩ := hs.exists_pieces
    rcases hk false with hk | ⟨-, hk⟩
    · rw [hk, hc]
      rw [hc] at hq
      obtain ⟨k', hk'⟩ := hq
      -- without following links at the end, one component is there or no path at all
      have hone : (∃ q, w.fs.walk false k p [c] = .ok (.there q)) ∨
          ∃ e, w.fs.walk false k p [c] = .error e := by
        have hp : w.fs.isDir p := by
          rcases FS.walk_eq_there hk' with hs | ⟨_, _, _, _, _, -, -, hs, -⟩
          · exact w.fs.isDir_of_scan fun e he => by rw [he] at hs; simp at hs
          · exact w.fs.isDir_of_scan fun e he => by rw [he] at hs; simp at hs
        cases c with
        | name n =>
          rw [FS.walk_name hp (.inl rfl)]
          split_ifs with hn
          · exact .inl ⟨_, rfl⟩
          · rw [FS.walk_name hp (.inr fun j t hj => absurd (by rw [hj]; rfl) hn), if_neg hn] at hk'
            simp at hk'
        | cur => exact .inl ⟨p, FS.walk_of_done (by simp [FS.scan, hp])⟩
        | up => exact .inl ⟨p.tail, FS.walk_of_done (by simp [FS.scan, hp])⟩
        | slash => exact .inl ⟨p, FS.walk_slash hp⟩
      rcases hone with ⟨q, hq⟩ | ⟨e, he⟩
      · exact ⟨.exist, by rw [hq]⟩
      · exact ⟨e, by rw [he]⟩
    · exact ⟨.loop, by rw [hk]⟩
  obtain ⟨e, he⟩ := herr
  exact wp_call_error he fun e => ⟨⟨e, rfl⟩, rfl⟩

/-- A name that is missing leads nowhere. -/
theorem stat_of_missing (h : At doChdir p₀ p cs (d :: dirs) w) (hs : Single d)
    (hpieces : pieces d.1 = cs ++ pieces d.2) (hp : w.fs.isDir p) {n : Name}
    (hn : pieces d.2 = [.name n]) (hnone : w.fs.node (n :: p) = none) :
    ∃ e, w.stat true (if doChdir then d.2 else d.1) = .error e := by
  obtain ⟨k, -, hk⟩ := h.resolve hs hpieces
  unfold World.stat
  rcases hk true with hk | ⟨-, hk⟩
  · rw [hk, hn, FS.walk_name hp (.inr fun j t hj => by simp [hnone] at hj), hnone]
    exact ⟨_, rfl⟩
  · rw [hk]
    exact ⟨_, rfl⟩

end Component

/-! ## New directories -/

/-- A world in which only the current directory, and the number of the next call, may have
changed. -/
structure Moved (w w' : World) : Prop where
  fs : w'.fs = w.fs
  env : w'.env = w.env
  children : w'.children = w.children
  log : w'.log = w.log

theorem Moved.trans {w w' w'' : World} (h : Moved w w') (h' : Moved w' w'') : Moved w w'' :=
  ⟨h'.fs.trans h.fs, h'.env.trans h.env, h'.children.trans h.children, h'.log.trans h.log⟩

theorem moved_next (w : World) : Moved w w.next := ⟨rfl, rfl, rfl, rfl⟩

theorem moved_cwd (w : World) (p : Loc) : Moved w { w.next with cwd := p } := ⟨rfl, rfl, rfl, rfl⟩

/-- New directories have been made on the way along names from `p`, in a region, and nothing
else has happened but for a change of the current directory. -/
structure Grown (S R p : Loc) (ms : List Name) (w w' : World) (failed : Bool) : Prop where
  within : Within S R w { w' with cwd := w.cwd }
  ext : w.fs.Extends w'.fs
  new : ∀ q k, w.fs.node q = none → w'.fs.node q = some k → k.isDir ∧ Above q (ms.reverse ++ p)
  last : failed = false → w'.fs.isDir (ms.reverse ++ p)

namespace Grown

variable {S R p : Loc} {n : Name} {ms : List Name} {w w₁ w₂ w' : World} {failed : Bool}

theorem of_moved (h : Moved w w') : Grown S R p ms w w' true :=
  ⟨.of_fs_eq rfl h.env h.children h.fs h.log, fun q k hq => by rw [h.fs, hq],
    fun q k hq hq' => by simp [h.fs, hq] at hq', by simp⟩

/-- One directory has been made, and others from it on. -/
theorem cons (hR : Above R (n :: p)) (hw : Within S (n :: p) w w₁) (hext : w.fs.Extends w₁.fs)
    (hnew : ∀ q k, w.fs.node q = none → w₁.fs.node q = some k → k.isDir ∧ q = n :: p)
    (h : Moved w₁ w₂) (h' : Grown S R (n :: p) ms w₂ w' failed) :
    Grown S R p (n :: ms) w w' failed := by
  have heq : (n :: ms).reverse ++ p = ms.reverse ++ n :: p := by simp
  refine ⟨?_, fun q k hq => h'.ext q k ?_, fun q k hq hq' => ?_, fun hf => ?_⟩
  · have h₁ : Within S R w { w₂ with cwd := w.cwd } := (hw.mono hR).trans
      (.of_fs_eq hw.cwd.symm h.env h.children h.fs h.log)
    have h₂ := h'.within
    exact h₁.trans ⟨rfl, h₂.env, h₂.children, h₂.dirs, h₂.out, h₂.log⟩
  · rw [h.fs]
    exact hext q k hq
  · rw [heq]
    cases hq₁ : w₁.fs.node q with
    | none => exact h'.new q k (by rw [h.fs, hq₁]) hq'
    | some j =>
      obtain ⟨hj, rfl⟩ := hnew q j hq hq₁
      rw [h'.ext _ j (by rw [h.fs, hq₁]), Option.some.injEq] at hq'
      exact ⟨hq' ▸ hj, List.suffix_append ..⟩
  · rw [heq]
    exact h'.last hf

end Grown

section MakeDirs

variable {S R : Loc} {doChdir : Bool} {p₀ p : Loc} {cs : List Comp} {dirs : List (Path × Path)}
  {d : Path × Path} {w : World}

/-- What a new directory is. -/
theorem new_of_put {n : Name} {w' : World} {mode : ℕ} (hp : w.fs.isDir p)
    (hnone : w.fs.node (n :: p) = none)
    (hfs : w'.fs = w.fs.put (n :: p) ⟨.dir, mode, w.env.now, w.env.now⟩) :
    w.fs.Extends w'.fs ∧ Fresh w'.fs (n :: p) ∧
      ∀ q k, w.fs.node q = none → w'.fs.node q = some k → k.isDir ∧ q = n :: p := by
  have hnode : w'.fs.node (n :: p) = some ⟨.dir, mode, w.env.now, w.env.now⟩ := by
    rw [hfs]
    exact FS.node_put_self (FS.canPut_of_absent hp hnone (by simp))
  refine ⟨by rw [hfs]; exact FS.extends_put hnone, ⟨FS.isDir_of_node hnode, fun m => ?_⟩,
    fun q k hq hq' => ?_⟩
  · have hne : m :: n :: p ≠ n :: p := fun h => by simpa using congrArg List.length h
    rw [hfs, FS.node_put_of_ne hne]
    exact FS.node_eq_none_of_above (FS.isDir_of_absent hnone) (List.suffix_cons _ _) hne
  · by_cases hqn : q = n :: p
    · subst hqn
      rw [hnode, Option.some.injEq] at hq'
      exact ⟨hq' ▸ rfl, rfl⟩
    · rw [hfs, FS.node_put_of_ne hqn, hq] at hq'
      simp at hq'

theorem names_cons {c : Comp} {cs : List Comp} {ms : List Name}
    (h : c :: cs = ms.map Comp.name) : ∃ n ms', ms = n :: ms' ∧ c = .name n ∧
      cs = ms'.map Comp.name := by
  cases ms with
  | nil => simp at h
  | cons n ms =>
    rw [List.map_cons, List.cons.injEq] at h
    exact ⟨n, ms, rfl, h.1, h.2⟩

/-- The loop is at the next directory. -/
theorem At.next {q : Loc} {w' : World} (h : At doChdir p₀ p cs (d :: dirs) w)
    (hq : w'.fs.Leads p₀ (pieces d.1) q) (hcwd : doChdir = true → w'.cwd = q)
    (hcwd' : doChdir = false → w'.cwd = w.cwd) : At doChdir p₀ q (pieces d.1) dirs w' :=
  ⟨hq, hcwd, fun hc e he hne => by
    rw [hcwd' hc]
    exact h.origin hc e (List.mem_cons_of_mem _ he) hne⟩

theorem At.leads_made {n : Name} {w' : World} (h : At doChdir p₀ p cs (d :: dirs) w)
    (hpieces : pieces d.1 = cs ++ pieces d.2) (hn : pieces d.2 = [.name n])
    (hext : w.fs.Extends w'.fs) (hp : w.fs.isDir p) (hd : w'.fs.isDir (n :: p)) :
    w'.fs.Leads p₀ (pieces d.1) (n :: p) := by
  rw [hpieces, hn]
  exact (h.leads.of_extends hext).append ⟨0, FS.walk_name_of_isDir (hext.isDir hp) hd⟩

theorem At.resolve_made {n : Name} {w' : World} (h : At doChdir p₀ p cs (d :: dirs) w)
    (hs : Single d) (hn : pieces d.2 = [.name n]) (hcwd : w'.cwd = w.cwd) (hp : w'.fs.isDir p)
    (hd : w'.fs.isDir (n :: p)) (hc : doChdir = true) :
    w'.fs.resolve w'.cwd true (if doChdir then d.2 else d.1) = .ok (.there (n :: p)) := by
  rw [if_pos hc, FS.resolve, if_neg hs.ne, comps_of_pieces hs.getLast', start, hs.isAbs, hn, hcwd,
    h.cwd hc]
  exact FS.walk_name_of_isDir hp hd

/-- The loop goes into a directory. -/
theorem wp_enter {t : Path} {q : Loc} {m : Prog Bool} {Q : Bool → World → Prop}
    {E : Stop → World → Prop} (hr : doChdir = true → w.fs.resolve w.cwd true t = .ok (.there q))
    (hq : w.fs.isDir q)
    (hfail : ∀ w', Moved w w' → doChdir = true → ¬w.Calm → Q true w')
    (hgo : ∀ w', Moved w w' → (doChdir = true → w'.cwd = q) → (doChdir = false → w'.cwd = w.cwd) →
      wp m Q E w') :
    wp (if doChdir then do
        match ← chdir t with
        | .error _ => pure true
        | .ok _ => m
      else m) Q E w := by
  cases hd : doChdir with
  | true =>
    rw [if_pos rfl, wp_bind]
    refine wp_chdir (fun e he => hfail _ (moved_next w) hd fun hc => ?_) fun q' hq' _ => ?_
    · have he' := he (hc _)
      obtain ⟨k, hk, hkd⟩ := (FS.isDir_iff _).mp hq
      have hst : w.next.stat true t = .ok ⟨q, k⟩ := World.stat_of_there (hr hd) hk
      simp [World.chdir, hst, hkd] at he'
    · rw [hr hd, Except.ok.injEq, Found.there.injEq] at hq'
      exact hgo _ (moved_cwd w _) (fun _ => hq'.symm) fun h => by simp [hd] at h
  | false =>
    rw [if_neg (by simp)]
    exact hgo _ ⟨rfl, rfl, rfl, rfl⟩ (fun h => by simp [hd] at h) fun _ => rfl

/-- From an empty directory on, all directories are made. -/
theorem makeDirs_fresh (hR : Above R p) (hchain : Chain cs dirs)
    (hsingle : ∀ d ∈ dirs, Single d) (h : At doChdir p₀ p cs dirs w) {ms : List Name}
    (hcomps : dirs.flatMap (pieces ·.2) = ms.map .name) (hf : Fresh w.fs p) (mode : ℕ) :
    wp (makeDirs doChdir mode dirs) (fun failed w' => Grown S R p ms w w' failed ∧
      (doChdir = false → w'.cwd = w.cwd) ∧ (w.Calm → doChdir = true → failed = false))
      (fun _ _ => False) w := by
  induction dirs generalizing p cs ms w with
  | nil =>
    have hms : ms = [] := by simpa using hcomps.symm
    subst hms
    have hg : Grown S R p [] w w true := .of_moved ⟨rfl, rfl, rfl, rfl⟩
    exact ⟨⟨hg.within, hg.ext, hg.new, fun _ => hf.1⟩, fun _ => rfl, fun _ _ => rfl⟩
  | cons d ds ih =>
    obtain ⟨hslash, hpieces, hchain⟩ := hchain
    have hs := hsingle d (by simp)
    obtain ⟨c, hc⟩ := hs.exists_pieces
    rw [List.flatMap_cons, hc, List.singleton_append] at hcomps
    obtain ⟨n, ms, rfl, rfl, hrest⟩ := names_cons hcomps
    obtain ⟨e, he⟩ := stat_of_missing h hs hpieces hf.1 hc (hf.2 n)
    have hmkdir := mkdir_name (S := S) h hs hpieces hf.1 hc mode
    cases ds with
    | nil =>
      have hms : ms = [] := by simpa using hrest.symm
      subst hms
      rw [makeDirs, wp_bind, wp_stat, he]
      dsimp only
      rw [wp_bind]
      refine wp_mono hmkdir (fun r w₁ hw => ?_) fun _ _ h => h
      rcases hw with ⟨e, rfl, rfl, hcalm⟩ | ⟨rfl, hnone, hw, hfs⟩
      · refine ⟨.of_moved (moved_next w), fun _ => rfl, fun hc hd => ?_⟩
        simpa [hf.2 n] using hcalm hc hd
      · obtain ⟨hext, hfresh, hnew⟩ := new_of_put hf.1 hnone hfs
        have hg : Grown S R (n :: p) [] w₁ w₁ true := .of_moved ⟨rfl, rfl, rfl, rfl⟩
        exact ⟨.cons (hR.cons n) hw hext hnew ⟨rfl, rfl, rfl, rfl⟩ ⟨hg.within, hg.ext, hg.new,
          fun _ => hfresh.1⟩, fun _ => hw.cwd, fun _ _ => rfl⟩
    | cons d' ds =>
      rw [makeDirs]
      simp only [wp_bind]
      refine wp_mono hmkdir (fun r w₁ hw => ?_) fun _ _ h => h
      rcases hw with ⟨e, rfl, rfl, hcalm⟩ | ⟨rfl, hnone, hw, hfs⟩
      · have hd : World.isdir w.next (if doChdir then d.2 else d.1) = false := by
          simp [World.isdir, he]
        dsimp only
        rw [wp_bind, wp_isdir, hd]
        refine ⟨.of_moved (moved_next w), fun _ => rfl, fun hc hd => ?_⟩
        simpa [hf.2 n] using hcalm hc hd
      · obtain ⟨hext, hfresh, hnew⟩ := new_of_put hf.1 hnone hfs
        have hlead := h.leads_made hpieces hc hext hf.1 hfresh.1
        have hnext : ∀ {w₂ : World}, Moved w₁ w₂ → (doChdir = true → w₂.cwd = n :: p) →
            (doChdir = false → w₂.cwd = w.cwd) →
            wp (makeDirs doChdir mode (d' :: ds)) (fun failed w' => Grown S R p (n :: ms) w w' failed ∧
              (doChdir = false → w'.cwd = w.cwd) ∧ (w.Calm → doChdir = true → failed = false))
              (fun _ _ => False) w₂ := by
          intro w₂ hm hcwd hcwd'
          have hat := h.next (hm.fs ▸ hlead) hcwd hcwd'
          refine wp_mono (ih (hR.cons n) hchain (fun e he => hsingle e (List.mem_cons_of_mem _ he)) hat hrest
            (by rw [hm.fs]; exact hfresh)) (fun failed w' hw' => ?_) fun _ _ h => h
          obtain ⟨hg, hback, hcalm⟩ := hw'
          refine ⟨.cons (hR.cons n) hw hext hnew hm hg, fun hc => (hback hc).trans (hcwd' hc),
            fun hc hd => hcalm (fun c i => ?_) hd⟩
          rw [hm.env, hw.env]
          exact hc c i
        refine wp_enter (h.resolve_made hs hc hw.cwd (hw.dirs p hf.1) hfresh.1) hfresh.1
          (fun w₂ hm hcd hcalm => ?_) fun w₂ hm hcwd hcwd' => ?_
        · exact ⟨.cons (hR.cons n) hw hext hnew hm (.of_moved ⟨rfl, rfl, rfl, rfl⟩),
            fun h => by simp [hcd] at h, fun hc => absurd (hw.calm hc) hcalm⟩
        · exact hnext hm hcwd fun hc => (hcwd' hc).trans hw.cwd

end MakeDirs

/-! ## Directories that are there -/

/-- Something that is no directory has the place of one of the names from `r` on. -/
def Obstructed (fs : FS) (r : Loc) (ns : List Name) : Prop :=
  ∃ ns₁ n ms q, ns = ns₁ ++ n :: ms ∧ fs.Leads r (ns₁.map .name) q ∧ fs.isDir q ∧
    (fs.node (n :: q)).isSome ∧ fs.isDir (n :: q) = false

/-- How far the names from `r` on have led. `calm` is for no call to fail without need. -/
inductive Trail (S r : Loc) (ns : List Name) (calm : Prop) (w w' : World) : Bool → Prop
  | there (hm : Moved w w') {q : Loc} (hq : w.fs.Leads r (ns.map .name) q) :
      Trail S r ns calm w w' false
  | stopped (hm : Moved w w') (h : calm → Obstructed w.fs r ns) : Trail S r ns calm w w' true
  /-- From the first that is missing on they have been made. -/
  | made {ns₁ : List Name} {n : Name} {ms : List Name} {q : Loc} {failed : Bool}
      (hns : ns = ns₁ ++ n :: ms) (hq : w.fs.Leads r (ns₁.map .name) q) (hd : w.fs.isDir q)
      (hn : w.fs.node (n :: q) = none) (hg : Grown S (n :: q) q (n :: ms) w w' failed)
      (h : calm → failed = false) : Trail S r ns calm w w' failed

section Trail

variable {S r : Loc} {ns : List Name} {calm calm' : Prop} {w w₂ w' : World} {failed : Bool}

theorem Trail.of_moved (h : Moved w w₂) (ht : Trail S r ns calm' w₂ w' failed)
    (hc : calm → calm') : Trail S r ns calm w w' failed := by
  cases ht with
  | there hm hq => exact .there (h.trans hm) (h.fs ▸ hq)
  | stopped hm ho => exact .stopped (h.trans hm) fun hcalm => h.fs ▸ ho (hc hcalm)
  | made hns hq hd hn hg hf =>
    rw [h.fs] at hq hd hn
    refine .made hns hq hd hn ⟨?_, ?_, ?_, hg.last⟩ fun hcalm => hf (hc hcalm)
    · have hw : ∀ R, Within S R w { w₂ with cwd := w.cwd } := fun _ =>
        .of_fs_eq rfl h.env h.children h.fs h.log
      have h₂ := hg.within
      exact (hw _).trans ⟨rfl, h₂.env, h₂.children, h₂.dirs, h₂.out, h₂.log⟩
    · rw [← h.fs]
      exact hg.ext
    · rw [← h.fs]
      exact hg.new

theorem Grown.moved {R p : Loc} {ms : List Name} (h : Grown S R p ms w w₂ failed)
    (h' : Moved w₂ w') : Grown S R p ms w w' failed :=
  ⟨h.within.trans (.of_fs_eq rfl h'.env h'.children h'.fs h'.log), by rw [h'.fs]; exact h.ext,
    by rw [h'.fs]; exact h.new, by rw [h'.fs]; exact h.last⟩

theorem Trail.moved (ht : Trail S r ns calm w w₂ failed) (h : Moved w₂ w') :
    Trail S r ns calm w w' failed := by
  cases ht with
  | there hm hq => exact .there (hm.trans h) hq
  | stopped hm ho => exact .stopped (hm.trans h) ho
  | made hns hq hd hn hg hf => exact .made hns hq hd hn (hg.moved h) hf

theorem Trail.env (ht : Trail S r ns calm w w' failed) : w'.env = w.env := by
  cases ht with
  | there hm hq => exact hm.env
  | stopped hm ho => exact hm.env
  | made hns hq hd hn hg hf => exact hg.within.env

/-- What was to be done afterwards has failed. -/
theorem Trail.fail (ht : Trail S r ns calm w w' failed) (hc : ¬calm) :
    Trail S r ns calm w w' true := by
  cases ht with
  | there hm hq => exact .stopped hm fun h => absurd h hc
  | stopped hm ho => exact .stopped hm ho
  | made hns hq hd hn hg hf =>
    exact .made hns hq hd hn ⟨hg.within, hg.ext, hg.new, by simp⟩ fun h => absurd h hc

/-- A trail from where the first name leads. -/
theorem Trail.cons {n : Name} {q : Loc} (hq : w.fs.Leads r [.name n] q)
    (ht : Trail S q ns calm w w' failed) : Trail S r (n :: ns) calm w w' failed := by
  have hcons : ∀ {ns : List Name} {p : Loc}, w.fs.Leads q (ns.map .name) p →
      w.fs.Leads r ((n :: ns).map .name) p := fun h => hq.append h
  cases ht with
  | there hm hp => exact .there hm (hcons hp)
  | stopped hm ho =>
    refine .stopped hm fun hcalm => ?_
    obtain ⟨ns₁, m, ms, p, rfl, hp, h⟩ := ho hcalm
    exact ⟨n :: ns₁, m, ms, p, rfl, hcons hp, h⟩
  | made hns hp hd hn hg hf => exact .made (by rw [hns]; rfl) (hcons hp) hd hn hg hf

end Trail

section MakeDirs

variable {S r : Loc} {doChdir : Bool} {p₀ p : Loc} {cs : List Comp} {dirs : List (Path × Path)}
  {w : World}

theorem walk_cons {fs : FS} {k : ℕ} {c : Comp} {us : List Comp}
    (h : fs.walk true k p (c :: us) = .ok (.there r)) (hr : fs.isDir r) :
    ∃ q, fs.walk true k p [c] = .ok (.there q) ∧ fs.isDir q ∧
      ∃ k' ≤ k, fs.walk true k' q us = .ok (.there r) := by
  cases us with
  | nil => exact ⟨r, h, hr, 0, Nat.zero_le _, FS.walk_of_done rfl⟩
  | cons c' us =>
    obtain ⟨q, hq, hd⟩ := FS.walk_prefix (show fs.walk true k p ([c] ++ c' :: us) = _ from h)
    obtain ⟨k', hk', hw⟩ := FS.walk_append hq
    exact ⟨q, hq, hd, k', hk', by rw [← (hw _ (by simp)).1]; exact h⟩

/-- The loop, on a way that leads to the directory `r` and on along names. -/
theorem makeDirs_trail (hchain : Chain cs dirs) (hsingle : ∀ d ∈ dirs, Single d)
    (h : At doChdir p₀ p cs dirs w) {us : List Comp} {ns : List Name} {k : ℕ}
    (hcomps : dirs.flatMap (pieces ·.2) = us ++ ns.map .name) (hk : k ≤ FS.maxLinks)
    (hus : w.fs.walk true k p us = .ok (.there r)) (hr : w.fs.isDir r) (mode : ℕ) :
    wp (makeDirs doChdir mode dirs) (fun failed w' =>
      Trail S r ns (w.Calm ∧ doChdir = true) w w' failed ∧ (doChdir = false → w'.cwd = w.cwd))
      (fun _ _ => False) w := by
  induction dirs generalizing p cs us ns k r w with
  | nil =>
    obtain ⟨rfl, rfl⟩ : us = [] ∧ ns = [] := by simpa using hcomps.symm
    exact ⟨.there ⟨rfl, rfl, rfl, rfl⟩ (.nil r), fun _ => rfl⟩
  | cons d ds ih =>
    obtain ⟨hslash, hpieces, hchain⟩ := hchain
    have hs := hsingle d (by simp)
    obtain ⟨c, hc⟩ := hs.exists_pieces
    rw [List.flatMap_cons, hc, List.singleton_append] at hcomps
    have hresolve := h.resolve hs hpieces
    -- what the component is resolved to by a call is where it leads
    have hlead : ∀ q, w.fs.resolve w.cwd true (if doChdir then d.2 else d.1) = .ok (.there q) →
        w.fs.Leads p [c] q := fun q hq => by
      have hq := h.leads_of_resolve hslash hpieces (fun p k hp => hp) hq
      rw [hpieces, hc] at hq
      exact h.leads.of_append hq
    have hcalm : ∀ {q : Loc} {k : ℕ}, k ≤ FS.maxLinks → w.fs.walk true k p [c] = .ok (.there q) →
        doChdir = true → w.fs.resolve w.cwd true (if doChdir then d.2 else d.1) = .ok (.there q) := by
      intro q k hk hq hd
      simp only [hd, if_true]
      rw [FS.resolve, if_neg hs.ne, comps_of_pieces hs.getLast', start, hs.isAbs, hc, h.cwd hd]
      exact FS.walk_budget hq hk
    have hdead : ∀ {w' : World}, Moved w w' → (doChdir = false → w'.cwd = w.cwd) →
        (w.Calm ∧ doChdir = true → Obstructed w.fs r ns) →
        Trail S r ns (w.Calm ∧ doChdir = true) w w' true ∧ (doChdir = false → w'.cwd = w.cwd) :=
      fun hm hcwd ho => ⟨.stopped hm ho, hcwd⟩
    -- from a directory that the component leads to, the loop goes on
    have hloop : (∀ q, w.fs.Leads p [c] q → w.fs.isDir q → ∀ {w₂ : World}, Moved w w₂ →
        (doChdir = true → w₂.cwd = q) → (doChdir = false → w₂.cwd = w.cwd) →
        wp (makeDirs doChdir mode ds) (fun failed w' =>
          Trail S r ns (w.Calm ∧ doChdir = true) w w' failed ∧ (doChdir = false → w'.cwd = w.cwd))
          (fun _ _ => False) w₂) →
        (World.isdir w (if doChdir then d.2 else d.1) = false → w.Calm ∧ doChdir = true →
          Obstructed w.fs r ns) →
        wp (do
            if ← isdir (if doChdir then d.2 else d.1) then
              if doChdir then
                match ← chdir (if doChdir then d.2 else d.1) with
                | .error _ => pure true
                | .ok _ => makeDirs doChdir mode ds
              else makeDirs doChdir mode ds
            else pure true) (fun failed w' =>
          Trail S r ns (w.Calm ∧ doChdir = true) w w' failed ∧ (doChdir = false → w'.cwd = w.cwd))
          (fun _ _ => False) w.next := by
      intro hgo hstop
      rw [wp_bind, wp_isdir]
      by_cases hd : World.isdir w.next (if doChdir then d.2 else d.1)
      · rw [if_pos hd]
        obtain ⟨q, hq, hqd⟩ := isdir_iff.mp hd
        have hql := hlead q hq
        refine wp_enter (fun _ => hq) hqd (fun w₂ hm hcd hcalm => ?_) fun w₂ hm hcwd hcwd' =>
          hgo q hql hqd ((moved_next w).trans hm) hcwd hcwd'
        exact hdead ((moved_next w).trans hm) (fun h => by simp [hcd] at h)
          fun hc => absurd hc.1 hcalm
      · rw [if_neg hd]
        exact hdead (moved_next w) (fun _ => rfl) (hstop (eq_false_of_ne_true hd))
    cases us with
    | cons c' us =>
      -- a component of the way to `r`
      obtain ⟨rfl, hrest⟩ : c = c' ∧ ds.flatMap (pieces ·.2) = us ++ ns.map .name := by
        simpa using hcomps
      obtain ⟨q, hq, hqd, k', hk', hw⟩ := walk_cons hus hr
      have hql : w.fs.Leads p [c] q := ⟨k, hq⟩
      have hisdir : w.Calm ∧ doChdir = true →
          World.isdir w (if doChdir then d.2 else d.1) = true := fun hc =>
        isdir_iff.mpr ⟨q, hcalm hk hq hc.2, hqd⟩
      have hmkdir := mkdir_there h hs hpieces (hc ▸ hql) mode
      cases ds with
      | nil =>
        obtain ⟨rfl, rfl⟩ : us = [] ∧ ns = [] := by simpa using hrest.symm
        rw [makeDirs, wp_bind, wp_stat]
        cases hst : w.stat true (if doChdir then d.2 else d.1) with
        | ok s => exact ⟨.there ⟨rfl, rfl, rfl, rfl⟩ (.nil r), fun _ => rfl⟩
        | error e =>
          dsimp only
          rw [wp_bind]
          refine wp_mono hmkdir (fun a w₁ hw₁ => ?_) fun _ _ h => h
          obtain ⟨⟨e, rfl⟩, rfl⟩ := hw₁
          refine hdead (moved_next w) (fun _ => rfl) fun hc => ?_
          have := hisdir hc
          simp [World.isdir, hst] at this
      | cons d' ds =>
        rw [makeDirs]
        simp only [wp_bind]
        refine wp_mono hmkdir (fun a w₁ hw₁ => ?_) fun _ _ h => h
        obtain ⟨⟨e, rfl⟩, rfl⟩ := hw₁
        refine hloop (fun q' hq' hqd' w₂ hm hcwd hcwd' => ?_) fun hd hc => ?_
        · obtain rfl := hq'.unique hql
          have hat := h.next (by rw [hm.fs, hpieces, hc]; exact h.leads.append hql) hcwd
            hcwd'
          refine wp_mono (ih hchain (fun e he => hsingle e (List.mem_cons_of_mem _ he)) hat hrest
            (hk'.trans hk) (by rw [hm.fs]; exact hw) (by rw [hm.fs]; exact hr))
            (fun failed w' h' => ?_) fun _ _ h => h
          exact ⟨h'.1.of_moved hm fun hc => ⟨fun c i => by rw [hm.env]; exact hc.1 c i, hc.2⟩,
            fun hc => (h'.2 hc).trans (hcwd' hc)⟩
        · simp [hisdir hc] at hd
    | nil =>
      obtain rfl : p = r := by simpa [FS.walk_of_done (show w.fs.scan p [] = .done p from rfl)] using hus
      obtain ⟨n, ns, rfl, rfl, hrest⟩ := names_cons hcomps
      have hmkdir := mkdir_name (S := S) h hs hpieces hr hc mode
      have hobstructed : World.isdir w (if doChdir then d.2 else d.1) = false → w.Calm ∧
          doChdir = true → (w.fs.node (n :: p)).isSome → Obstructed w.fs p (n :: ns) := by
        refine fun hd hcl hsome => ⟨[], n, ns, p, rfl, .nil p, hr, hsome, ?_⟩
        by_contra hdir
        have hdir : w.fs.isDir (n :: p) := by simpa using hdir
        rw [isdir_iff.mpr ⟨_, hcalm le_rfl (FS.walk_name_of_isDir hr hdir) hcl.2, hdir⟩] at hd
        simp at hd
      cases ds with
      | nil =>
        have hns : ns = [] := by simpa using hrest.symm
        subst hns
        rw [makeDirs, wp_bind, wp_stat]
        cases hst : w.stat true (if doChdir then d.2 else d.1) with
        | ok s => exact ⟨.there ⟨rfl, rfl, rfl, rfl⟩ (hlead _ (World.stat_ok hst).1), fun _ => rfl⟩
        | error e =>
          dsimp only
          rw [wp_bind]
          refine wp_mono hmkdir (fun a w₁ hw₁ => ?_) fun _ _ h => h
          rcases hw₁ with ⟨e, rfl, rfl, hsome⟩ | ⟨rfl, hnone, hw, hfs⟩
          · exact hdead (moved_next w) (fun _ => rfl) fun hcl =>
              hobstructed (by simp [World.isdir, hst]) hcl (hsome hcl.1 hcl.2)
          · obtain ⟨hext, hfresh, hnew⟩ := new_of_put hr hnone hfs
            have hg : Grown S (n :: p) (n :: p) [] w₁ w₁ true := .of_moved ⟨rfl, rfl, rfl, rfl⟩
            exact ⟨.made (List.nil_append _).symm (.nil p) hr hnone (.cons (.refl _) hw hext hnew
              ⟨rfl, rfl, rfl, rfl⟩ ⟨hg.within, hg.ext, hg.new, fun _ => hfresh.1⟩) fun _ => rfl,
              fun _ => hw.cwd⟩
      | cons d' ds =>
        rw [makeDirs]
        simp only [wp_bind]
        refine wp_mono hmkdir (fun a w₁ hw₁ => ?_) fun _ _ h => h
        rcases hw₁ with ⟨e, rfl, rfl, hsome⟩ | ⟨rfl, hnone, hw, hfs⟩
        · refine hloop (fun q hql hqd w₂ hm hcwd hcwd' => ?_) fun hd hcl =>
            hobstructed hd hcl (hsome hcl.1 hcl.2)
          have hat := h.next (by rw [hm.fs, hpieces, hc]; exact h.leads.append hql) hcwd hcwd'
          refine wp_mono (ih hchain (fun e he => hsingle e (List.mem_cons_of_mem _ he)) hat
            hrest (Nat.zero_le _) (show w₂.fs.walk true 0 _ [] = _ from FS.walk_of_done rfl)
            (by rw [hm.fs]; exact hqd))
            (fun failed w' h' => ?_) fun _ _ h => h
          exact ⟨.cons hql (h'.1.of_moved hm fun hc => ⟨fun c i => by rw [hm.env]; exact hc.1 c i,
            hc.2⟩), fun hc => (h'.2 hc).trans (hcwd' hc)⟩
        · obtain ⟨hext, hfresh, hnew⟩ := new_of_put hr hnone hfs
          have hlead := h.leads_made hpieces hc hext hr hfresh.1
          refine wp_enter (h.resolve_made hs hc hw.cwd (hw.dirs p hr) hfresh.1) hfresh.1
            (fun w₂ hm hcd hcalm => ?_) fun w₂ hm hcwd hcwd' => ?_
          · exact ⟨.made (List.nil_append _).symm (.nil p) hr hnone (.cons (.refl _) hw hext hnew hm
              (.of_moved ⟨rfl, rfl, rfl, rfl⟩)) fun hcl => absurd (hw.calm hcl.1) hcalm,
              fun h => by simp [hcd] at h⟩
          · have hat := h.next (by rw [hm.fs]; exact hlead) hcwd fun hc => (hcwd' hc).trans hw.cwd
            refine wp_mono (makeDirs_fresh (S := S) (.refl _) hchain
              (fun e he => hsingle e (List.mem_cons_of_mem _ he)) hat hrest
              (by rw [hm.fs]; exact hfresh) mode) (fun failed w' h' => ?_) fun _ _ h => h
            obtain ⟨hg, hback, hf⟩ := h'
            refine ⟨.made (List.nil_append _).symm (.nil p) hr hnone (.cons (.refl _) hw hext hnew hm hg)
              fun hcl => hf (fun c i => ?_) hcl.2,
              fun hc => (hback hc).trans ((hcwd' hc).trans hw.cwd)⟩
            rw [hm.env, hw.env]
            exact hcl.1 c i

end MakeDirs

/-! ## make_path -/

section MakePath

variable {S r : Loc} {argpath : Path} {us : List Comp} {ns : List Name} {w : World}

/-- A path that ends at something that is no directory is obstructed. -/
theorem obstructed_of_leads {fs : FS} {p : Loc} (hns : ns ≠ [])
    (hp : fs.Leads r (ns.map .name) p) (hd : fs.isDir p = false) : Obstructed fs r ns := by
  obtain ⟨ns₁, n, rfl⟩ : ∃ ns₁ n, ns = ns₁ ++ [n] :=
    ⟨_, _, (List.dropLast_append_getLast hns).symm⟩
  rw [List.map_append, List.map_singleton] at hp
  obtain ⟨k, hk⟩ := hp
  obtain ⟨q, hq, hqd⟩ := FS.walk_prefix hk
  have hlead : fs.Leads r (ns₁.map .name) q := ⟨k, hq⟩
  have hname := hlead.of_append ⟨k, hk⟩
  refine ⟨ns₁, n, [], q, rfl, hlead, hqd, ?_, ?_⟩
  · by_contra hnone
    obtain ⟨k', hk'⟩ := hname
    rw [FS.walk_name hqd (.inr fun j t hj => absurd (by rw [hj]; rfl) hnone), if_neg hnone] at hk'
    simp at hk'
  · by_contra hdir
    have hdir : fs.isDir (n :: q) := by simpa using hdir
    have hsame : fs.Leads q [.name n] (n :: q) := ⟨0, FS.walk_name_of_isDir hqd hdir⟩
    rw [hname.unique hsame, hdir] at hd
    simp at hd

/-- `make_path` for what is no directory, on a way that leads to the directory `r` and on
along names. -/
theorem makePath_trail (hdir : World.isdir w argpath = false)
    (hpieces : pieces argpath = us ++ ns.map .name) (hns : ns ≠ [])
    (hus : w.fs.walk true FS.maxLinks (start w.cwd argpath) us = .ok (.there r))
    (hr : w.fs.isDir r) (mode : ℕ) : wp (makePath argpath mode) (fun failed w' =>
      Trail S r ns w.Calm w w' failed ∧ (failed = false → w'.cwd = w.cwd))
      (fun _ _ => False) w := by
  have hne : argpath ≠ [] := fun h => by
    rw [h, pieces_nil] at hpieces
    simp [hns] at hpieces
  have hstrip := stripTrailingSlashes_ne_nil hne
  have hlast : (stripTrailingSlashes argpath).getLast? ≠ some '/' := fun h => by
    rw [← pieces_stripTrailingSlashes, stripTrailingSlashes_getLast h] at hpieces
    have : pieces ['/'] = [] := by decide +kernel
    simp [this, hns] at hpieces
  have hsingle : ∀ d ∈ leading argpath, Single d := fun d hd =>
    single_dirPrefixes (by simp) (.inl ⟨hstrip, hlast⟩) hd
  have hchain : Chain [] (leading argpath) := by
    have := @chain_dirPrefixes [] [] (.inl rfl) (by simp)
      (stripTrailingSlashes argpath)
    rwa [pieces_nil] at this
  have hcomps : (leading argpath).flatMap (pieces ·.2) = us ++ ns.map .name := by
    obtain ⟨last, hl⟩ : ∃ last, (leading argpath).getLast? = some last := by
      cases h : (leading argpath).getLast? with
      | none => exact absurd (List.getLast?_eq_none_iff.mp h) (dirPrefixes_ne_nil _ _ _)
      | some last => exact ⟨last, rfl⟩
    have hflat := hchain.flatMap hl
    rw [List.nil_append, getLast_dirPrefixes hl, List.nil_append, List.nil_append,
      pieces_stripTrailingSlashes, hpieces] at hflat
    exact hflat.symm
  -- the loop and the way back
  have hloop : ∀ {doChdir : Bool} {w₁ : World}, Moved w w₁ →
      (doChdir = true → w₁.cwd = start w.cwd argpath) → (doChdir = false → w₁.cwd = w.cwd) →
      (w.Calm → doChdir = true) →
      wp (do
          let failed ← makeDirs doChdir mode (leading argpath)
          if doChdir then
            match ← fchdir w.cwd with
            | .error _ => pure true
            | .ok _ => pure failed
          else pure failed) (fun failed w' =>
        Trail S r ns w.Calm w w' failed ∧ (failed = false → w'.cwd = w.cwd))
        (fun _ _ => False) w₁ := by
    intro doChdir w₁ hm hcwd hcwd' hcd
    have hat : At doChdir (start w.cwd argpath) (start w.cwd argpath) [] (leading argpath) w₁ :=
      ⟨.nil _, hcwd, fun hc d hd hdne => by
        rw [hcwd' hc, start, isAbs_of_mem_leading hne hd hdne, ← start]⟩
    rw [wp_bind]
    refine wp_mono (makeDirs_trail (S := S) hchain hsingle hat hcomps le_rfl (by rw [hm.fs]; exact hus)
      (by rw [hm.fs]; exact hr) mode) (fun failed w₂ hw => ?_) fun _ _ h => h
    obtain ⟨ht₁, hback⟩ := hw
    have ht : Trail S r ns w.Calm w w₂ failed :=
      ht₁.of_moved hm fun hc => ⟨fun c i => by rw [hm.env]; exact hc c i, hcd hc⟩
    clear ht₁
    cases doChdir with
    | true =>
      rw [if_pos rfl, wp_bind]
      refine wp_fchdir (fun e he => ⟨(ht.moved (moved_next w₂)).fail fun hc => he fun i => ?_,
        by simp⟩) ⟨ht.moved (moved_cwd w₂ _), fun _ => rfl⟩
      rw [ht.env]
      exact hc _ i
    | false =>
      rw [if_neg (by simp)]
      exact ⟨ht, fun _ => (hback rfl).trans (hcwd' rfl)⟩
  rw [makePath, wp_bind, wp_stat]
  cases hs : w.stat true argpath with
  | ok s =>
    have hd : s.node.isDir = false := by simpa [World.isdir, hs] using hdir
    simp only [hd, Bool.false_eq_true, if_false]
    obtain ⟨hsr, hsn⟩ := World.stat_ok hs
    have hlead := FS.leads_of_resolve hsr
    rw [hpieces] at hlead
    have hto : w.fs.Leads (start w.cwd argpath) us r := ⟨_, hus⟩
    exact ⟨.stopped ⟨rfl, rfl, rfl, rfl⟩ fun _ => obstructed_of_leads hns (hto.of_append hlead)
      ((FS.isDir_of_node hsn).trans hd), by simp⟩
  | error e =>
    dsimp only
    rw [wp_bind]
    refine wp_openCwd (fun e he => ?_) ?_
    · have h := @hloop false w.next (moved_next w) (by simp) (fun _ => rfl) fun hc => absurd (hc _) he
      rw [wp_bind] at h
      exact wp_mono h (fun failed w' hw => hw) fun _ _ h => h
    · dsimp only
      by_cases habs : isAbs argpath
      · rw [if_pos habs, wp_bind]
        refine wp_chdir (fun e he => ?_) fun q hq _ => ?_
        · refine @hloop false w.next.next ((moved_next w).trans (moved_next _)) (by simp)
            (fun _ => rfl) fun hc => ?_
          have he' := he (hc _)
          obtain ⟨k, hk, hkd⟩ := (FS.isDir_iff _).mp w.fs.isDir_nil
          have hst : w.next.next.stat true ['/'] = .ok ⟨[], k⟩ :=
            World.stat_of_there (resolve_root ..) hk
          simp [World.chdir, hst, hkd] at he'
        · rw [resolve_root, Except.ok.injEq, Found.there.injEq] at hq
          refine @hloop true _ ((moved_next w).trans (moved_cwd _ _)) (fun _ => ?_) (by simp)
            fun _ => rfl
          rw [start, if_pos habs, ← hq]
      · rw [if_neg habs, wp_bind]
        refine @hloop true w.next (moved_next w) (fun _ => ?_) (by simp) fun _ => rfl
        rw [start, if_neg habs]
        rfl

end MakePath

end Makeroot
