import Makeroot.Install

/-!
# Making directories

What `make_path` leaves behind : it makes directories and nothing else, each of them one
that a leading part of its path names (`makePath_spec`). If it did make one and the path
goes up nowhere, the last directory is empty (`DirsMade.fresh`).
-/

namespace Makeroot

open Posix

/-! ## The leading parts of a path -/

/-- The paths of a list, each one component longer than the one before it. -/
def Chain : List Comp → List (Path × Path) → Prop
  | _, [] => True
  | cs, (full, comp) :: ds =>
    '/' ∉ comp ∧ pieces full = cs ++ pieces comp ∧ Chain (pieces full) ds

theorem Chain.mem_last {cs : List Comp} {dirs : List (Path × Path)} (h : Chain cs dirs)
    {last : Path × Path} (hl : dirs.getLast? = some last) {c : Comp}
    (hc : c ∈ cs ∨ ∃ d ∈ dirs, c ∈ pieces d.2) : c ∈ pieces last.1 := by
  induction dirs generalizing cs with
  | nil => simp at hl
  | cons d ds ih =>
    obtain ⟨full, comp⟩ := d
    obtain ⟨-, hpieces, hchain⟩ := h
    have hmem : c ∈ pieces full ∨ ∃ d ∈ ds, c ∈ pieces d.2 := by
      rcases hc with hc | ⟨d, hd, hc⟩
      · exact .inl (by simp [hpieces, hc])
      · rcases List.mem_cons.mp hd with rfl | hd
        · exact .inl (by simp [hpieces, show c ∈ pieces comp from hc])
        · exact .inr ⟨d, hd, hc⟩
    cases ds with
    | nil =>
      obtain rfl : (full, comp) = last := by simpa using hl
      simpa using hmem
    | cons d' ds => exact ih hchain (by simpa using hl) hmem

theorem pieces_append_of_slash {t : Path} (h : t = [] ∨ t.getLast? = some '/') (u : Path) :
    pieces (t ++ u) = pieces t ++ pieces u := by
  rcases h with rfl | h
  · simp [pieces_nil]
  · obtain ⟨d, rfl⟩ : ∃ d, t = d ++ ['/'] := ⟨_, (List.dropLast_append_getLast? _ h).symm⟩
    rw [List.append_assoc, List.singleton_append, pieces_append_slash, pieces_append_slash,
      pieces_nil, List.append_nil]

theorem chain_dirPrefixes {done comp : Path} (hd : done = [] ∨ done.getLast? = some '/')
    (hc : '/' ∉ comp) (t : Path) : Chain (pieces done) (dirPrefixes done comp t) := by
  induction t generalizing done comp with
  | nil => exact ⟨hc, pieces_append_of_slash hd comp, trivial⟩
  | cons c t ih =>
    have hslash : ∀ u : Path, pieces (u ++ ['/']) = pieces u := fun u => by
      have := pieces_append_slashes u 1
      simpa using this
    rw [dirPrefixes]
    split_ifs with hs hcomp
    · have := @ih (done ++ ['/']) [] (.inr (by simp)) (by simp)
      rwa [hslash] at this
    · have := @ih (done ++ comp ++ ['/']) [] (.inr (by simp)) (by simp)
      rw [hslash] at this
      exact ⟨hc, pieces_append_of_slash hd comp, this⟩
    · exact ih hd fun h => by
        rcases List.mem_append.mp h with h | h
        · exact hc h
        · exact hs (List.mem_singleton.mp h).symm

/-- What is behind a leading part begins with a slash. -/
theorem exists_of_mem_dirPrefixes {done comp t : Path} {d : Path × Path}
    (h : d ∈ dirPrefixes done comp t) : ∃ u, done ++ comp ++ t ++ ['/'] = d.1 ++ '/' :: u := by
  induction t generalizing done comp with
  | nil =>
    rw [dirPrefixes, List.mem_singleton] at h
    exact ⟨[], by simp [h]⟩
  | cons c t ih =>
    rw [dirPrefixes] at h
    split_ifs at h with hs hcomp
    · obtain ⟨u, hu⟩ := ih h
      exact ⟨u, by rw [← hu, hs, hcomp]; simp⟩
    · rcases List.mem_cons.mp h with rfl | h
      · exact ⟨t ++ ['/'], by simp [hs]⟩
      · obtain ⟨u, hu⟩ := ih h
        exact ⟨u, by rw [← hu, hs]; simp⟩
    · obtain ⟨u, hu⟩ := ih h
      exact ⟨u, by rw [← hu]; simp⟩

theorem dirPrefixes_ne_nil (done comp t : Path) : dirPrefixes done comp t ≠ [] := by
  induction t generalizing done comp with
  | nil => simp [dirPrefixes]
  | cons c t ih =>
    rw [dirPrefixes]
    split_ifs
    · exact ih _ _
    · simp
    · exact ih _ _

/-- The last of the leading parts is the path. -/
theorem getLast_dirPrefixes {done comp t : Path} {d : Path × Path}
    (h : (dirPrefixes done comp t).getLast? = some d) : d.1 = done ++ comp ++ t := by
  induction t generalizing done comp with
  | nil =>
    rw [dirPrefixes, List.getLast?_singleton, Option.some.injEq] at h
    simp [← h]
  | cons c t ih =>
    rw [dirPrefixes] at h
    split_ifs at h with hs hcomp
    · rw [ih h, hs, hcomp]
      simp
    · rw [List.getLast?_cons_of_ne_nil (dirPrefixes_ne_nil _ _ _)] at h
      rw [ih h, hs]
      simp
    · rw [ih h]
      simp

/-! ## Making them -/

/-- From `w` to `w'` nothing has happened but that directories were made, each named by one
of the paths from `p₀` on. -/
structure DirsMade (p₀ : Loc) (dirs : List (Path × Path)) (w w' : World) : Prop where
  env : w'.env = w.env
  children : w'.children = w.children
  ext : w.fs.Extends w'.fs
  new : ∀ q k, w.fs.node q = none → w'.fs.node q = some k →
    k.isDir ∧ ∃ d ∈ dirs, w'.fs.Leads p₀ (pieces d.1) q

namespace DirsMade

variable {p₀ : Loc} {dirs : List (Path × Path)} {w w' w'' : World}

theorem of_fs_eq (henv : w'.env = w.env) (hch : w'.children = w.children) (hfs : w'.fs = w.fs) :
    DirsMade p₀ dirs w w' :=
  ⟨henv, hch, fun p k hp => by rw [hfs, hp], fun q k hq hq' => by simp [hfs, hq] at hq'⟩

theorem trans (h : DirsMade p₀ dirs w w') (h' : DirsMade p₀ dirs w' w'') :
    DirsMade p₀ dirs w w'' := by
  refine ⟨h'.env.trans h.env, h'.children.trans h.children, fun p k hp => h'.ext p k (h.ext p k hp),
    fun q k hq hq'' => ?_⟩
  cases hq' : w'.fs.node q with
  | none => exact h'.new q k hq' hq''
  | some j =>
    obtain ⟨hj, d, hd, hl⟩ := h.new q j hq hq'
    have := h'.ext q j hq'
    rw [hq'', Option.some.injEq] at this
    exact ⟨this ▸ hj, d, hd, hl.of_extends h'.ext⟩

theorem mono {dirs' : List (Path × Path)} (h : DirsMade p₀ dirs w w')
    (hd : ∀ d ∈ dirs, d ∈ dirs') : DirsMade p₀ dirs' w w' :=
  ⟨h.env, h.children, h.ext, fun q k hq hq' =>
    let ⟨hk, d, hmem, hl⟩ := h.new q k hq hq'
    ⟨hk, d, hd d hmem, hl⟩⟩

end DirsMade

/-- A directory with nothing in it. -/
def Fresh (fs : FS) (p : Loc) : Prop := fs.isDir p ∧ ∀ n, fs.node (n :: p) = none

/-- Where the paths of a list are made from : `p` is where the components read so far lead,
and either the current directory or the start of the full paths. -/
structure At (doChdir : Bool) (p₀ p : Loc) (cs : List Comp) (dirs : List (Path × Path))
    (w : World) : Prop where
  leads : w.fs.Leads p₀ cs p
  cwd : doChdir = true → w.cwd = p
  origin : doChdir = false → ∀ d ∈ dirs, d.1 ≠ [] → start w.cwd d.1 = p₀

/-- What a path of the list names is where it leads to from `p₀`. -/
theorem At.leads_of_resolve {doChdir : Bool} {p₀ p : Loc} {cs : List Comp}
    {dirs : List (Path × Path)} {d : Path × Path} {w : World}
    (h : At doChdir p₀ p cs (d :: dirs) w) (hslash : '/' ∉ d.2)
    (hpieces : pieces d.1 = cs ++ pieces d.2) {fs : FS} (hext : w.fs.Extends fs) {q : Loc}
    (hr : fs.resolve w.cwd true (if doChdir then d.2 else d.1) = .ok (.there q)) :
    fs.Leads p₀ (pieces d.1) q := by
  cases hc : doChdir with
  | true =>
    simp only [hc, if_true] at hr
    have hl := FS.leads_of_resolve hr
    have hrel : isAbs d.2 = false := by
      unfold isAbs
      cases hd : d.2 with
      | nil => rfl
      | cons c t =>
        have : c ≠ '/' := fun h => hslash (by simp [hd, h])
        simp [this]
    rw [start, hrel] at hl
    rw [hpieces]
    have hcwd := h.cwd hc
    simp only [Bool.false_eq_true, if_false, hcwd] at hl
    exact (h.leads.of_extends hext).append hl
  | false =>
    simp only [hc, Bool.false_eq_true, if_false] at hr
    have hne : d.1 ≠ [] := fun hd => by simp [FS.resolve, hd] at hr
    rw [← h.origin hc d (by simp) hne]
    exact FS.leads_of_resolve hr

/-- Whether `isdir` finds a directory. -/
def World.isdir (w : World) (t : Path) : Bool :=
  match w.stat true t with
  | .ok s => s.node.isDir
  | .error _ => false

@[simp] theorem wp_isdir {t : Path} {Q : Bool → World → Prop} {E : Stop → World → Prop}
    {w : World} : wp (isdir t) Q E w ↔ Q (World.isdir w t) w := by
  unfold isdir World.isdir
  rw [wp_bind, wp_stat]
  cases w.stat true t <;> rfl

theorem isdir_iff {w : World} {t : Path} :
    World.isdir w t ↔ ∃ p, w.fs.resolve w.cwd true t = .ok (.there p) ∧ w.fs.isDir p := by
  unfold World.isdir
  constructor
  · intro h
    cases hs : w.stat true t with
    | error e => simp [hs] at h
    | ok s =>
      obtain ⟨hr, hn⟩ := World.stat_ok hs
      exact ⟨s.ino, hr, by rw [FS.isDir_of_node hn]; simpa [hs] using h⟩
  · rintro ⟨p, hr, hd⟩
    obtain ⟨k, hk, hkd⟩ := w.fs.isDir_iff.mp hd
    simp [World.stat_of_there hr hk, hkd]

section MakeDirs

variable {doChdir : Bool} {p₀ p : Loc} {cs : List Comp} {dirs : List (Path × Path)}
  {d : Path × Path} {w : World}

theorem wp_chdir {t : Path} {Q : Except Errno Unit → World → Prop} {E : Stop → World → Prop}
    (herr : ∀ e, (w.Free .chdir → w.next.chdir t = .error e) → Q (.error e) w.next)
    (hok : ∀ q, w.fs.resolve w.cwd true t = .ok (.there q) → w.fs.isDir q →
      Q (.ok ()) { w.next with cwd := q }) : wp (chdir t) Q E w := by
  refine wp_call_free herr fun _ w' hw => ?_
  obtain ⟨s, hs, hd, rfl⟩ := World.chdir_ok hw
  obtain ⟨hr, hn⟩ := World.stat_ok hs
  exact hok s.ino hr ((FS.isDir_of_node hn).trans hd)

/-- One `mkdir` makes the directory its path names, an empty one, or nothing. -/
theorem mkdir_spec (h : At doChdir p₀ p cs (d :: dirs) w) (hslash : '/' ∉ d.2)
    (hpieces : pieces d.1 = cs ++ pieces d.2) (mode : ℕ) :
    wp (mkdir (if doChdir then d.2 else d.1) mode) (fun r w' => w'.cwd = w.cwd ∧
      DirsMade p₀ [d] w w' ∧
      (r = .ok () ∧ (∃ q, w'.fs.Leads p₀ (pieces d.1) q ∧ Fresh w'.fs q) ∨
        (∃ e, r = .error e) ∧ w'.fs = w.fs)) (fun _ _ => False) w := by
  refine wp_mkdir (S := []) (R := []) (fun _ _ => List.nil_suffix)
    (fun e _ => ⟨rfl, .of_fs_eq rfl rfl rfl, .inr ⟨⟨e, rfl⟩, rfl⟩⟩) ?_
  intro q n s w' hr hw hfs _
  obtain ⟨hq, hn⟩ := FS.resolve_absent hr
  have hext : w.fs.Extends w'.fs := by
    rw [hfs]
    exact FS.extends_put hn
  have hnode : w'.fs.node (n :: q) = some ⟨.dir, mode, w.env.now, w.env.now⟩ := by
    rw [hfs]
    exact FS.node_put_self (FS.canPut_of_absent hq hn (by simp))
  have hdir : w'.fs.isDir (n :: q) := FS.isDir_of_node hnode
  have hlead : w'.fs.Leads p₀ (pieces d.1) (n :: q) := by
    refine h.leads_of_resolve hslash hpieces hext
      (FS.resolve_of_plain (FS.plain_of_isDir hdir) ?_)
    rw [hfs]
    exact FS.resolve_put hr (fun _ => rfl) (by simp) (by simp)
  refine ⟨hw.cwd, ⟨hw.env, hw.children, hext, fun r k hr' hk => ?_⟩,
    .inl ⟨rfl, n :: q, hlead, hdir, fun m => ?_⟩⟩
  · by_cases hrq : r = n :: q
    · subst hrq
      rw [hnode, Option.some.injEq] at hk
      exact ⟨hk ▸ rfl, d, by simp, hlead⟩
    · rw [hfs, FS.node_put_of_ne hrq, hr'] at hk
      simp at hk
  · have hne : m :: n :: q ≠ n :: q := fun h => by simpa using congrArg List.length h
    rw [hfs, FS.node_put_of_ne hne]
    exact FS.node_eq_none_of_above (FS.isDir_of_absent hn) (List.suffix_cons _ _) hne

/-- Where a list of paths has led in the end : to an empty directory. -/
def EndsFresh (p₀ : Loc) (dirs : List (Path × Path)) (w : World) : Prop :=
  ∀ last, dirs.getLast? = some last → ∃ q, w.fs.Leads p₀ (pieces last.1) q ∧ Fresh w.fs q

/-- From an empty directory a component leads nowhere else, unless it goes up. -/
theorem eq_of_fresh {fs : FS} {q : Loc} {comp : Path} (hf : Fresh fs p) (hslash : '/' ∉ comp)
    (hup : .up ∉ pieces comp) (hl : fs.Leads p (pieces comp) q) : q = p := by
  have hpieces : pieces comp = [] ∨ pieces comp = [.cur] ∨ pieces comp = [.up] ∨
      ∃ n, pieces comp = [.name n] := by
    have hsplit : comp.splitOnP (· = '/') = [comp] :=
      List.splitOnP_eq_singleton fun c hc => by
        have hne : c ≠ '/' := fun h => hslash (h ▸ hc)
        simpa using hne
    rw [pieces, hsplit]
    cases hc : Comp.ofText comp with
    | none => simp [hc]
    | some c =>
      cases c with
      | slash =>
        unfold Comp.ofText at hc
        split_ifs at hc <;> simp at hc
      | cur => simp [hc]
      | up => simp [hc]
      | name n => simp [hc]
  rcases hpieces with h | h | h | ⟨n, h⟩
  · rw [h] at hl
    exact hl.unique (.nil p)
  · rw [h] at hl
    exact hl.unique ⟨0, FS.walk_of_done (by simp [FS.scan, hf.1])⟩
  · simp [h] at hup
  · rw [h] at hl
    obtain ⟨k, hk⟩ := hl
    rw [FS.walk_name hf.1 (.inr fun j t hj => by simp [hf.2 n] at hj), hf.2 n] at hk
    simp at hk

/-- One directory of the loop is there : it was made, or it has been there. -/
structure Stage (p₀ p : Loc) (d : Path × Path) (w w' : World) (q : Loc) : Prop where
  cwd : w'.cwd = w.cwd
  made : DirsMade p₀ [d] w w'
  leads : w'.fs.Leads p₀ (pieces d.1) q
  fresh : Fresh w'.fs q ∨ w'.fs = w.fs ∧ (Fresh w.fs p → .up ∉ pieces d.2 → q = p)

theorem stage_of_resolve (h : At doChdir p₀ p cs (d :: dirs) w) (hslash : '/' ∉ d.2)
    (hpieces : pieces d.1 = cs ++ pieces d.2) {w' : World} (hcwd : w'.cwd = w.cwd)
    (hmade : DirsMade p₀ [d] w w') (hfs : w'.fs = w.fs) {q : Loc}
    (hr : w'.fs.resolve w'.cwd true (if doChdir then d.2 else d.1) = .ok (.there q)) :
    Stage p₀ p d w w' q := by
  rw [hcwd] at hr
  have hl := h.leads_of_resolve hslash hpieces hmade.ext hr
  refine ⟨hcwd, hmade, hl, .inr ⟨hfs, fun hf hup => eq_of_fresh hf hslash hup ?_⟩⟩
  rw [hpieces, hfs] at hl
  exact h.leads.of_append hl

theorem makeDirs_spec (hchain : Chain cs dirs) (h : At doChdir p₀ p cs dirs w) (mode : ℕ) :
    wp (makeDirs doChdir mode dirs) (fun failed w' => DirsMade p₀ dirs w w' ∧
      (doChdir = false → w'.cwd = w.cwd) ∧
      (failed = false → (∀ d ∈ dirs, .up ∉ pieces d.2) →
        (w'.fs = w.fs ∧ (Fresh w.fs p → EndsFresh p₀ dirs w')) ∨ EndsFresh p₀ dirs w'))
      (fun _ _ => False) w := by
  induction dirs generalizing w p cs with
  | nil =>
    exact ⟨.of_fs_eq rfl rfl rfl, fun _ => rfl, fun _ _ => .inr fun last hl => by simp at hl⟩
  | cons d ds ih =>
    obtain ⟨full, comp⟩ := d
    obtain ⟨hslash, hpieces, hchain⟩ := hchain
    cases ds with
    | nil =>
      rw [makeDirs, wp_bind, wp_stat]
      cases hs : w.stat true (if doChdir then comp else full) with
      | ok s =>
        refine ⟨.of_fs_eq rfl rfl rfl, fun _ => rfl, fun _ hup => .inl ⟨rfl, fun hf => ?_⟩⟩
        have hstage := stage_of_resolve h hslash hpieces rfl (.of_fs_eq rfl rfl rfl) rfl
          (World.stat_ok hs).1
        intro last hlast
        obtain rfl : (full, comp) = last := by simpa using hlast
        refine ⟨s.ino, hstage.leads, ?_⟩
        rcases hstage.fresh with hfresh | ⟨-, heq⟩
        · exact hfresh
        · exact heq hf (hup _ (by simp)) ▸ hf
      | error e =>
        dsimp only
        rw [wp_bind]
        refine wp_mono (mkdir_spec h hslash hpieces mode) (fun r w' hw => ?_) fun _ _ h => h
        obtain ⟨hcwd, hmade, ⟨rfl, q, hl, hf⟩ | ⟨⟨e, rfl⟩, hfs⟩⟩ := hw
        · refine ⟨hmade, fun _ => hcwd, fun _ _ => .inr fun last hlast => ?_⟩
          obtain rfl : (full, comp) = last := by simpa using hlast
          exact ⟨q, hl, hf⟩
        · exact ⟨hmade, fun _ => hcwd, by simp⟩
    | cons d' ds =>
      -- with one directory there, the loop goes on from it
      have hrest : ∀ {w₁ w₂ : World} {q : Loc}, Stage p₀ p (full, comp) w w₁ q →
          w₂.fs = w₁.fs → w₂.env = w₁.env → w₂.children = w₁.children →
          (doChdir = true → w₂.cwd = q) → (doChdir = false → w₂.cwd = w.cwd) →
          wp (makeDirs doChdir mode (d' :: ds)) (fun failed w' =>
            DirsMade p₀ ((full, comp) :: d' :: ds) w w' ∧ (doChdir = false → w'.cwd = w.cwd) ∧
            (failed = false → (∀ d ∈ (full, comp) :: d' :: ds, .up ∉ pieces d.2) →
              (w'.fs = w.fs ∧ (Fresh w.fs p → EndsFresh p₀ ((full, comp) :: d' :: ds) w')) ∨
                EndsFresh p₀ ((full, comp) :: d' :: ds) w')) (fun _ _ => False) w₂ := by
        intro w₁ w₂ q hstage hfs henv hch hcwd hcwd'
        have hat : At doChdir p₀ q (pieces full) (d' :: ds) w₂ :=
          ⟨by rw [hfs]; exact hstage.leads, hcwd, fun hc d hd hne => by
            rw [hcwd' hc]
            exact h.origin hc d (List.mem_cons_of_mem _ hd) hne⟩
        refine wp_mono (ih hchain hat) (fun failed w' hw => ?_) fun _ _ h => h
        obtain ⟨hmade, hcwd'', hends⟩ := hw
        have hsub : DirsMade p₀ ((full, comp) :: d' :: ds) w w' :=
          ((hstage.made.trans (.of_fs_eq henv hch hfs)).mono (by simp)).trans
            (hmade.mono fun d hd => List.mem_cons_of_mem _ hd)
        have hlast : EndsFresh p₀ (d' :: ds) w' → EndsFresh p₀ ((full, comp) :: d' :: ds) w' :=
          fun he last hl => he last (by simpa using hl)
        refine ⟨hsub, fun hc => (hcwd'' hc).trans (hcwd' hc), fun hfail hup => ?_⟩
        have hup' := hup (full, comp) (by simp)
        rcases hends hfail fun d hd => hup d (List.mem_cons_of_mem _ hd) with ⟨hfs', he⟩ | he
        · rw [hfs] at he hfs'
          rcases hstage.fresh with hf | ⟨hfs₁, heq⟩
          · exact .inr (hlast (he hf))
          · refine .inl ⟨hfs'.trans hfs₁, fun hf => hlast (he ?_)⟩
            rw [hfs₁, heq hf hup']
            exact hf
        · exact .inr (hlast he)
      have hnext : ∀ (k : Except Errno Unit → Prog Bool), (∀ e, k (.error e) = pure true) →
          k (.ok ()) = makeDirs doChdir mode (d' :: ds) → ∀ {w₁ : World} {q : Loc},
          Stage p₀ p (full, comp) w w₁ q →
          wp (if doChdir then chdir (if doChdir then comp else full) >>= k
            else makeDirs doChdir mode (d' :: ds))
          (fun failed w' =>
            DirsMade p₀ ((full, comp) :: d' :: ds) w w' ∧ (doChdir = false → w'.cwd = w.cwd) ∧
            (failed = false → (∀ d ∈ (full, comp) :: d' :: ds, .up ∉ pieces d.2) →
              (w'.fs = w.fs ∧ (Fresh w.fs p → EndsFresh p₀ ((full, comp) :: d' :: ds) w')) ∨
                EndsFresh p₀ ((full, comp) :: d' :: ds) w')) (fun _ _ => False) w₁ := by
        intro k hke hko w₁ q hstage
        by_cases hc : doChdir
        · rw [if_pos hc, wp_bind]
          have hsub : DirsMade p₀ ((full, comp) :: d' :: ds) w w₁ := hstage.made.mono (by simp)
          refine wp_chdir (fun e _ => ?_) fun r hr _ => ?_
          · rw [hke]
            exact ⟨hsub.trans (.of_fs_eq rfl rfl rfl), by simp [hc], by simp⟩
          · rw [hko]
            have hl := h.leads_of_resolve hslash hpieces hstage.made.ext (by rwa [← hstage.cwd])
            obtain rfl := hl.unique hstage.leads
            exact hrest hstage rfl rfl rfl (fun _ => rfl) (by simp [hc])
        · rw [if_neg hc]
          exact hrest hstage rfl rfl rfl (fun h => absurd h hc) fun _ => hstage.cwd
      rw [makeDirs]
      simp only [wp_bind]
      refine wp_mono (mkdir_spec h hslash hpieces mode) (fun r w₁ hw => ?_) fun _ _ h => h
      obtain ⟨hcwd, hmade, ⟨rfl, q, hl, hf⟩ | ⟨⟨e, rfl⟩, hfs⟩⟩ := hw
      · exact hnext _ (fun _ => rfl) rfl ⟨hcwd, hmade, hl, .inl hf⟩
      · dsimp only
        rw [wp_bind, wp_isdir]
        by_cases hd : World.isdir w₁ (if doChdir then comp else full)
        · rw [if_pos hd]
          obtain ⟨q, hr, -⟩ := isdir_iff.mp hd
          exact hnext _ (fun _ => rfl) rfl (stage_of_resolve h hslash hpieces hcwd hmade hfs hr)
        · rw [if_neg hd]
          exact ⟨hmade.mono (by simp), fun _ => hcwd, by simp⟩

end MakeDirs

/-! ## make_path -/

theorem resolve_root (fs : FS) (cwd : Loc) : fs.resolve cwd true ['/'] = .ok (.there []) := by
  have hcomps : comps ['/'] = [.slash] := by decide +kernel
  rw [FS.resolve, if_neg (by simp), hcomps]
  exact FS.walk_slash fs.isDir_nil

theorem wp_openCwd {Q : Except Errno Loc → World → Prop} {E : Stop → World → Prop} {w : World}
    (herr : ∀ e, ¬w.Free .open → Q (.error e) w.next) (hok : Q (.ok w.cwd) w.next) :
    wp openCwd Q E w :=
  wp_call_free (fun e he => herr e fun hfree => by simpa using he hfree) fun p w' hw => by
    simp only [Except.ok.injEq, Prod.mk.injEq] at hw
    obtain ⟨rfl, rfl⟩ := hw
    exact hok

theorem wp_fchdir {p : Loc} {Q : Except Errno Unit → World → Prop} {E : Stop → World → Prop}
    {w : World} (herr : ∀ e, ¬w.Free .chdir → Q (.error e) w.next)
    (hok : Q (.ok ()) { w.next with cwd := p }) : wp (fchdir p) Q E w :=
  wp_call_free (fun e he => herr e fun hfree => by simpa using he hfree) fun u w' hw => by
    simp only [Except.ok.injEq, Prod.mk.injEq, true_and] at hw
    exact hw ▸ hok

/-- The directories `make_path` makes for a path, with the components they are made by. -/
def leading (argpath : Path) : List (Path × Path) :=
  dirPrefixes [] [] (stripTrailingSlashes argpath)

theorem exists_of_mem_leading {argpath : Path} {d : Path × Path} (h : d ∈ leading argpath) :
    ∃ u, stripTrailingSlashes argpath ++ ['/'] = d.1 ++ '/' :: u := by
  simpa using exists_of_mem_dirPrefixes h

theorem ne_nil_of_mem_dirPrefixes {done comp t : Path} {d : Path × Path}
    (h : d ∈ dirPrefixes done comp t) (hne : done ++ comp ++ t ≠ []) : d.1 ≠ [] := by
  induction t generalizing done comp with
  | nil =>
    rw [dirPrefixes, List.mem_singleton] at h
    simpa [h] using hne
  | cons c t ih =>
    rw [dirPrefixes] at h
    split_ifs at h with hs hcomp
    · exact ih h (by simp)
    · rcases List.mem_cons.mp h with rfl | h
      · simp [hcomp]
      · exact ih h (by simp)
    · exact ih h (by simp)

theorem ne_nil_of_mem_leading {argpath : Path} (hne : argpath ≠ []) {d : Path × Path}
    (h : d ∈ leading argpath) : d.1 ≠ [] :=
  ne_nil_of_mem_dirPrefixes h (by simpa using stripTrailingSlashes_ne_nil hne)

theorem isAbs_of_mem_leading {argpath : Path} (hne : argpath ≠ []) {d : Path × Path}
    (h : d ∈ leading argpath) (hd : d.1 ≠ []) : isAbs d.1 = isAbs argpath := by
  obtain ⟨u, hu⟩ := exists_of_mem_leading h
  rw [← isAbs_append hd ('/' :: u), ← hu, isAbs_append (stripTrailingSlashes_ne_nil hne),
    isAbs_stripTrailingSlashes]

/-- `make_path`, where the directory is not there. -/
theorem makePath_spec {argpath : Path} {mode : ℕ} {w : World} (hne : argpath ≠ [])
    (hdir : World.isdir w argpath = false) : wp (makePath argpath mode) (fun failed w' =>
      DirsMade (start w.cwd argpath) (leading argpath) w w' ∧
      (failed = false → w'.cwd = w.cwd ∧ (.up ∉ pieces argpath →
        w'.fs = w.fs ∨ ∃ q, w'.fs.Leads (start w.cwd argpath) (pieces argpath) q ∧
          Fresh w'.fs q))) (fun _ _ => False) w := by
  have hchain : Chain [] (leading argpath) := by
    have := @chain_dirPrefixes [] [] (.inl rfl) (by simp)
      (stripTrailingSlashes argpath)
    rwa [pieces_nil] at this
  obtain ⟨last, hlast⟩ : ∃ last, (leading argpath).getLast? = some last := by
    cases h : (leading argpath).getLast? with
    | none => exact absurd (List.getLast?_eq_none_iff.mp h) (dirPrefixes_ne_nil _ _ _)
    | some last => exact ⟨last, rfl⟩
  have hpieces : pieces last.1 = pieces argpath := by
    rw [getLast_dirPrefixes hlast, List.append_nil, List.nil_append, pieces_stripTrailingSlashes]
  have hup : .up ∉ pieces argpath → ∀ d ∈ leading argpath, .up ∉ pieces d.2 := fun h d hd hc =>
    h (hpieces ▸ hchain.mem_last hlast (.inr ⟨d, hd, hc⟩))
  -- the loop and the way back
  have hloop : ∀ {doChdir : Bool} (k : Bool → Except Errno Unit → Prog Bool),
      (∀ failed e, k failed (.error e) = pure true) → (∀ failed, k failed (.ok ()) = pure failed) →
      ∀ {w₁ : World}, w₁.fs = w.fs → w₁.env = w.env →
      w₁.children = w.children → (doChdir = true → w₁.cwd = start w.cwd argpath) →
      (doChdir = false → w₁.cwd = w.cwd) →
      wp (do
          let failed ← makeDirs doChdir mode (leading argpath)
          if doChdir then fchdir w.cwd >>= k failed
          else pure failed) (fun failed w' =>
        DirsMade (start w.cwd argpath) (leading argpath) w w' ∧
        (failed = false → w'.cwd = w.cwd ∧ (.up ∉ pieces argpath →
          w'.fs = w.fs ∨ ∃ q, w'.fs.Leads (start w.cwd argpath) (pieces argpath) q ∧
            Fresh w'.fs q))) (fun _ _ => False) w₁ := by
    intro doChdir k hke hko w₁ hfs henv hch hcwd hcwd'
    have hat : At doChdir (start w.cwd argpath) (start w.cwd argpath) [] (leading argpath) w₁ :=
      ⟨.nil _, hcwd, fun hc d hd hdne => by
        rw [hcwd' hc, start, isAbs_of_mem_leading hne hd hdne, ← start]⟩
    rw [wp_bind]
    refine wp_mono (makeDirs_spec hchain hat mode) (fun failed w₂ hw => ?_) fun _ _ h => h
    obtain ⟨hmade, hback, hends⟩ := hw
    have hmade' : DirsMade (start w.cwd argpath) (leading argpath) w w₂ :=
      .trans (.of_fs_eq henv hch hfs) hmade
    have hends' : failed = false → .up ∉ pieces argpath → w₂.fs = w.fs ∨
        ∃ q, w₂.fs.Leads (start w.cwd argpath) (pieces argpath) q ∧ Fresh w₂.fs q := by
      intro hf hu
      rcases hends hf (hup hu) with ⟨h, -⟩ | h
      · exact .inl (h.trans hfs)
      · obtain ⟨q, hq, hfresh⟩ := h last hlast
        exact .inr ⟨q, hpieces ▸ hq, hfresh⟩
    cases doChdir with
    | true =>
      rw [if_pos rfl, wp_bind]
      refine wp_fchdir (fun e _ => ?_) ?_
      · rw [hke]
        exact ⟨hmade'.trans (.of_fs_eq rfl rfl rfl), by simp⟩
      · rw [hko]
        exact ⟨hmade'.trans (.of_fs_eq rfl rfl rfl), fun hf => ⟨rfl, hends' hf⟩⟩
    | false =>
      rw [if_neg (by simp)]
      exact ⟨hmade', fun hf => ⟨(hback rfl).trans (hcwd' rfl), hends' hf⟩⟩
  rw [makePath, wp_bind, wp_stat]
  cases hs : w.stat true argpath with
  | ok s =>
    have hd : s.node.isDir = false := by simpa [World.isdir, hs] using hdir
    simp only [hd, Bool.false_eq_true, if_false]
    exact ⟨.of_fs_eq rfl rfl rfl, by simp⟩
  | error e =>
    dsimp only
    rw [wp_bind]
    refine wp_openCwd (fun e _ => ?_) ?_
    · have h := @hloop false (fun failed r => if r.isOk then pure failed else pure true)
        (fun _ _ => rfl) (fun _ => rfl) w.next rfl rfl rfl (by simp) fun _ => rfl
      rw [wp_bind] at h
      exact wp_mono h (fun failed w' hw => hw) fun _ _ h => h
    · dsimp only
      by_cases habs : isAbs argpath
      · rw [if_pos habs, wp_bind]
        refine wp_chdir (fun e _ => ?_) fun q hq _ => ?_
        · exact @hloop false _ (fun _ _ => rfl) (fun _ => rfl) w.next.next rfl rfl rfl (by simp)
            fun _ => rfl
        · rw [resolve_root, Except.ok.injEq, Found.there.injEq] at hq
          refine @hloop true _ (fun _ _ => rfl) (fun _ => rfl) _ rfl rfl rfl (fun _ => ?_) (by simp)
          rw [start, if_pos habs, ← hq]
      · rw [if_neg habs, wp_bind]
        refine @hloop true _ (fun _ _ => rfl) (fun _ => rfl) w.next rfl rfl rfl (fun _ => ?_)
          (by simp)
        rw [start, if_neg habs]
        rfl

end Makeroot
