import Makeroot.Installing

/-!
# One item in both trees

An item with `install-sysroot=y` goes to `rootfs` and then, by the same lines, to `sysroot`.
GNU make has expanded all of them before the first is run, and the files they copy are read
twice. `installItem_both` is that the item ends up the same in both trees, whatever was there,
if nothing of it is moved : what is moved to the one tree is not there for the other.
-/

namespace Makeroot

open Posix GnuMake

/-! ## Two places -/

/-- Where an item goes in a tree : the components up to a directory `q`, and the names from
there on. -/
structure Place where
  cs : List Comp
  q : Loc
  ns : List Name

/-- The item's entry. -/
def Place.d (P : Place) : Loc := P.ns.reverse ++ P.q

/-- `fs'` differs from `fs` in the places at most, and on the way to them. -/
structure SameBut (P : Tree → Place) (fs fs' : FS) : Prop where
  dirs : ∀ p, fs.isDir p → fs'.isDir p
  others : ∀ p, (∀ t, ¬Above p (P t).d) → fs'.node p = fs.node p

theorem SameBut.refl (P : Tree → Place) (fs : FS) : SameBut P fs fs :=
  ⟨fun _ hp => hp, fun _ _ => rfl⟩

/-- Whatever happens in the places, the text of a link at `d` leads to no directory. -/
def Blind (fs : FS) (P : Tree → Place) (d : Loc) (text : Path) : Prop :=
  ∀ fs', SameBut P fs fs' → dataAt fs' d = some (.lnk text) → NoDir fs' d.tail text

/-- What an item that is copied, linked, touched or made a directory finds in the two trees. -/
structure Fits (T : Trees) (i : Item) (files : Text → Loc × Bytes) (L : Tree → Loc)
    (P : Tree → Place) (w : World) : Prop where
  calm : w.Calm
  dir : i.dir = [] ∨ hasY i.dir
  kept : i.move = [] ∧ i.generate = []
  slash : i.target.getLast? = some '/' → i.dir ≠ []
  rel : isAbs i.target = true → i.link = [] ∧ i.chmod = none
  apart : ∀ t t', t ≠ t' → ¬Above (L t) (L t')
  inside : ∀ t, Above (L t) (P t).q
  spot : ∀ t t', Spot w.fs w.cwd (T.dest t) i.target (P t').d (L t) (P t).cs (P t).q (P t).ns
  clear : ∀ t, Clear w.fs (P t).q (i.lead (P t).ns)
  source : i.copy ≠ [] → ∀ t, Source w.fs w.cwd (sourceOf T w i.copy) (P t).d (files i.copy).1
    (files i.copy).2 ∧ (files i.copy).1 ≠ (P t).d
  fit : ∀ t, FitAll (Blind w.fs P (P t).d) (i.deeds files) (i.found (dataAt w.fs (P t).d))
  settles : ∀ t, i.Settles (dataAt w.fs (P t).d)

/-- The item's result is in both trees, and nothing else has changed but for directories on the
way to it. -/
structure OneResult (T : Trees) (i : Item) (files : Text → Loc × Bytes) (P : Tree → Place)
    (w w' : World) : Prop where
  there : ∀ t, w'.fs.resolve w'.cwd false (i.path (T.dest t)) = .ok (.there (P t).d)
  same : ∀ t, dataAt w'.fs (P t).d = i.result files
  others : ∀ p, (∀ t, p ≠ (P t).d) → w'.fs.node p = w.fs.node p ∨
    w.fs.node p = none ∧ w'.fs.isDir p ∧ ∃ t, Above p (P t).d

section Both

variable {fuel : ℕ} {T : Trees} {i : Item} {files : Text → Loc × Bytes} {L : Tree → Loc}
  {P : Tree → Place} {t t' : Tree} {lines : List Command} {w w₁ w' : World}

/-- An item that is no copy of a directory has lines. -/
theorem exists_cmdInstall (fuel : ℕ) (hdir : i.dir = [] ∨ hasY i.dir) (w : World) (x : Path) :
    ∃ lines, cmdInstall fuel T i w x = some lines := by
  rw [cmdInstall, cmdDir]
  rcases hdir with hno | hy
  · rw [if_pos hno]
    exact ⟨_, rfl⟩
  · split_ifs
    · exact ⟨_, rfl⟩
    · exact ⟨_, rfl⟩

/-- What has happened in one place is known. -/
theorem SameBut.of_entered (hs : SameBut P w.fs w₁.fs) (he : Entered (· = (P t).d) (P t).d w₁ w') :
    SameBut P w.fs w'.fs := by
  refine ⟨fun p hp => he.dirs p (hs.dirs p hp), fun p hp => ?_⟩
  rcases he.others p fun heq => hp t (heq ▸ .refl _) with heq | ⟨-, -, ha⟩
  · exact heq.trans (hs.others p hp)
  · exact absurd ha (hp t)

namespace Fits

variable (h : Fits T i files L P w)
include h

theorem above (t : Tree) : Above (L t) (P t).d := (h.inside t).trans (List.suffix_append ..)

/-- The other tree has nothing to do with what lies in this one. -/
theorem ne_of_above {p p' : Loc} (htt : t ≠ t') (hp : Above (L t) p) (hp' : Above (L t') p') :
    ¬Above p p' := fun ha => by
  rcases (hp.trans ha).total hp' with hab | hab
  · exact h.apart t t' htt hab
  · exact h.apart t' t htt.symm hab

theorem path_way (t t' : Tree) : w.fs.Way (start w.cwd (i.path (T.dest t)))
    (pieces (T.dest t) ++ (P t).cs) (P t').d (P t).q := by
  rw [Item.path, (h.spot t t').start_path]
  exact (h.spot t t').way

/-- An item that is a directory is one already, if anything is found at its path. -/
theorem isDir_of_path (t : Tree) (hno : i.dir ≠ [])
    (hw : World.wildcard w (i.path (T.dest t)) = true) : w.fs.isDir (P t).d := by
  have hclear := h.clear t
  rw [Item.lead, if_neg hno] at hclear
  exact isDir_of_wildcard (h.path_way t t) (h.spot t t).pieces_path hclear hw

theorem isDir_of_parent (t : Tree)
    (hw : World.wildcard w (dirPart (i.path (T.dest t))) = true) :
    w.fs.isDir ((stem i.target (P t).ns).reverse ++ (P t).q) := by
  have hprefix : stem i.target (P t).ns <+: i.lead (P t).ns := Item.stem_prefix h.slash
  have hway := h.path_way t t
  rw [start, ← isAbs_dirPart (by simp [Item.path]), ← start] at hway
  exact isDir_of_wildcard hway (h.spot t t).pieces_dirPart ( Clear.of_prefix (h.clear t) hprefix) hw

variable (he : Entered (· = (P t').d) (P t').d w w₁)
include he

theorem spot_of_entered (t u : Tree) :
    Spot w₁.fs w₁.cwd (T.dest t) i.target (P u).d (L t) (P t).cs (P t).q (P t).ns := by
  rw [he.cwd]
  exact (h.spot t t').keepWays (h.spot t u) (he.keepWays fun l _ hl _ => hl ▸ .refl _)

variable (htt : t' ≠ t)
include htt

/-- The entry in the other tree has not been touched. -/
theorem dataAt_eq : dataAt w₁.fs (P t).d = dataAt w.fs (P t).d := by
  have hne := h.ne_of_above htt.symm (h.above t) (h.above t')
  rcases he.others (P t).d fun heq => hne (heq ▸ .refl _) with heq | ⟨-, -, ha⟩
  · rw [dataAt, heq, dataAt]
  · exact absurd ha hne

/-- The lines for one tree, when those for the other may have been run. -/
theorem run_tree (fuel : ℕ) : ∃ lines, cmdInstall fuel T i w (T.dest t) = some lines ∧
    wp (runCommands lines) (fun failed w' => failed = false ∧
      Entered (· = (P t).d) (P t).d w₁ w' ∧ dataAt w'.fs (P t).d = i.result files)
      (fun _ _ => False) w₁ := by
  obtain ⟨lines, hlines⟩ := exists_cmdInstall fuel h.dir w (T.dest t)
  refine ⟨lines, hlines, ?_⟩
  have hclear : Clear w₁.fs (P t).q (i.lead (P t).ns) := by
    refine (h.clear t).of_entered he fun ms _ heq => ?_
    have ha : Above (L t) (ms.reverse ++ (P t).q) := (h.inside t).trans (List.suffix_append ..)
    exact h.ne_of_above htt.symm ha (h.above t') (heq ▸ .refl _)
  have hsources : i.Sources files T w w₁ (P t).d := by
    refine ⟨fun hc => ?_, fun hm => absurd h.kept.1 hm, fun hg => absurd h.kept.2 hg⟩
    obtain ⟨hs, hne⟩ := h.source hc t
    obtain ⟨hs', hne'⟩ := h.source hc t'
    rw [he.cwd]
    exact ⟨hs'.keep hs (he.keepWays fun l _ hl _ => hl ▸ .refl _) (he.hasFile hne' hs.file), hne⟩
  have hdata := h.dataAt_eq he htt
  have hgone : ∀ e ∈ i.deeds files, ∀ s ∈ e.gone, s = (P t).d := fun e hmem s hs => by
    rcases Item.gone_cases hmem hs with ⟨hm, -⟩ | ⟨hg, -⟩
    · exact absurd h.kept.1 hm
    · exact absurd h.kept.2 hg
  have hB : ∀ w', Entered (· = (P t).d) (P t).d w₁ w' → ∀ text, Blind w.fs P (P t).d text →
      dataAt w'.fs (P t).d = some (.lnk text) → NoDir w'.fs (P t).d.tail text :=
    fun w' hw' text hblind hlnk => hblind w'.fs
      (((SameBut.refl P w.fs).of_entered he).of_entered hw') hlnk
  refine wp_mono (cmdInstall_run (D := (· = (P t).d)) hlines h.dir h.slash
    (h.spot_of_entered he t t) rfl hclear (he.calm h.calm) (fun hw hno => he.dirs _ (h.isDir_of_path t hno hw))
    (fun hw => he.dirs _ (h.isDir_of_parent t hw)) (does_content hsources h.rel)
    (hdata ▸ h.fit t) rfl hgone hB) (fun failed w' hq => ?_) fun _ _ hq => hq
  obtain ⟨rfl, hent, -, hres⟩ := hq
  exact ⟨rfl, hent, by rw [hres, hdata, ((h.settles t).afterAll_eq).1]⟩

end Fits

/-- The item's path names what is in its place. -/
theorem Spot.resolve {fs : FS} {cwd R r : Loc} {x : Path} {target : Text} {Q : Place}
    (h : Spot fs cwd x target R r Q.cs Q.q Q.ns)
    (hslash : target.getLast? = some '/' → fs.isDir Q.d)
    (hd : (fs.node Q.d).isSome) :
    fs.resolve cwd false (x ++ '/' :: target) = .ok (.there Q.d) := by
  obtain ⟨k, hk⟩ := Option.isSome_iff_exists.mp hd
  have hp : fs.isDir (Q.ns.dropLast.reverse ++ Q.q) := by
    obtain ⟨ms, n, hns⟩ : ∃ ms n, Q.ns = ms ++ [n] :=
      ⟨_, _, (List.dropLast_append_getLast h.ne).symm⟩
    rw [Place.d, hns, List.reverse_append] at hk
    rw [hns, List.dropLast_concat]
    exact FS.isDir_parent hk
  exact (h.entry hslash hp).resolve_of_node hk

/-- A deed can do nothing to a directory but touch it. -/
theorem FitAll.dir {B : Path → Prop} : ∀ {es : List Deed}, FitAll B es (some .dir) →
    afterAll es (some .dir) = some .dir
  | [], _ => rfl
  | e :: es, ⟨hfit, _, hrest⟩ => by
    cases e with
    | copy s bytes =>
      obtain ⟨b, hb⟩ := hfit .dir rfl
      simp at hb
    | move s bytes => exact absurd rfl hfit.1
    | link text => exact absurd rfl hfit.1
    | touch => exact (FitAll.dir hrest : afterAll es (some .dir) = some .dir)
    | chmod => exact (FitAll.dir hrest : afterAll es (some .dir) = some .dir)

theorem Fits.result_dir (h : Fits T i files L P w) (hno : i.dir ≠ []) :
    i.result files = some .dir := by
  have hfit := h.fit .rootfs
  rw [Item.found, if_neg hno] at hfit
  rw [Item.result, Item.found, if_neg hno]
  exact hfit.dir

/-- The lines for the one tree, and then those for the other. -/
theorem installItem_entered {kind : ItemKind} {force : Text} (h : Fits T i files L P w)
    (hruns : installsRootfs T i w kind force = true) (hsys : hasY i.installSysroot = true) :
    wp (installItem fuel T i kind force) (fun failed w' => failed = false ∧
      ∃ w₁, Entered (· = (P .rootfs).d) (P .rootfs).d w w₁ ∧
        Entered (· = (P .sysroot).d) (P .sysroot).d w₁ w' ∧
        ∀ t, dataAt w'.fs (P t).d = i.result files) (fun _ _ => False) w := by
  obtain ⟨rlines, hr, hrun⟩ := h.run_tree (t := .rootfs) (.refl _ (P .sysroot).d w)
    (by simp) fuel
  have hne : ¬Above (P .rootfs).d (P .sysroot).d :=
    h.ne_of_above (by simp) (h.above .rootfs) (h.above .sysroot)
  have hrecipe : ∃ slines, cmdInstall fuel T i w (T.dest .sysroot) = some slines ∧
      itemRecipe fuel T i w kind force = some (rlines ++ slines) := by
    obtain ⟨slines, hs⟩ := exists_cmdInstall fuel h.dir w (T.dest .sysroot)
    refine ⟨slines, hs, ?_⟩
    have hr' : cmdInstall fuel T i w T.rootfs = some rlines := hr
    have hs' : cmdInstall fuel T i w T.sysroot = some slines := hs
    simp [itemRecipe, hruns, hsys, hr', hs']
  obtain ⟨slines, hs, hrecipe⟩ := hrecipe
  have hlines : installItem fuel T i kind force w = runCommands (rlines ++ slines) w := by
    simp only [installItem, hrecipe]
  rw [wp, hlines]
  change wp (runCommands (rlines ++ slines)) _ _ w
  refine wp_runCommands_append hrun fun w₁ h₁ => ?_
  obtain ⟨hent₁, hres₁⟩ := h₁
  obtain ⟨slines', hs', hrun'⟩ := h.run_tree (t := .sysroot) hent₁ (by simp) fuel
  obtain rfl := Option.some.inj (hs.symm.trans hs')
  refine wp_mono hrun' (fun failed w' hq => ?_) fun _ _ hq => hq
  obtain ⟨rfl, hent, hres⟩ := hq
  refine ⟨rfl, w₁, hent₁, hent, ?_⟩
  -- the first tree has been left alone by the second part
  have hd₁ : w'.fs.node (P .rootfs).d = w₁.fs.node (P .rootfs).d := by
    rcases hent.others _ fun heq => hne (heq ▸ .refl _) with heq | ⟨-, -, ha⟩
    · exact heq
    · exact absurd ha hne
  rintro (_ | _)
  · exact hres
  · rw [dataAt, hd₁, ← dataAt, hres₁]

/-- The item is the same in both trees. -/
theorem Fits.oneResult (h : Fits T i files L P w)
    (he₁ : Entered (· = (P .rootfs).d) (P .rootfs).d w w₁)
    (he₂ : Entered (· = (P .sysroot).d) (P .sysroot).d w₁ w')
    (hsame : ∀ t, dataAt w'.fs (P t).d = i.result files) : OneResult T i files P w w' := by
  have hslash : ∀ t, i.target.getLast? = some '/' → w'.fs.isDir (P t).d := fun t hs =>
    dataAt_eq_dir.mp ((hsame t).trans (h.result_dir (h.slash hs)))
  have hspot : ∀ t, Spot w'.fs w'.cwd (T.dest t) i.target (P .rootfs).d (L t) (P t).cs (P t).q
      (P t).ns := fun t => by
    rw [he₂.cwd]
    exact (h.spot_of_entered he₁ t .sysroot).keepWays (h.spot_of_entered he₁ t .rootfs)
      (he₂.keepWays fun l _ hl _ => hl ▸ .refl _)
  refine ⟨fun t => (hspot t).resolve (hslash t) ?_, hsame, fun p hp => ?_⟩
  · have hsome : (i.result files).isSome := (h.settles t).afterAll_eq.2
    rw [← hsame t, dataAt, Option.isSome_map] at hsome
    exact hsome
  · rcases he₁.others p (hp .rootfs) with heq | ⟨hn, hd, ha⟩
    · rcases he₂.others p (hp .sysroot) with heq' | ⟨hn, hd, ha⟩
      · exact .inl (heq'.trans heq)
      · exact .inr ⟨heq ▸ hn, hd, _, ha⟩
    · exact .inr ⟨hn, he₂.dirs p hd, _, ha⟩

end Both

/-! ## Again -/

/-- The item is installed once more, `n` times in all. -/
def installAgain (fuel : ℕ) (T : Trees) (i : Item) (kind : ItemKind) (force : Text) : ℕ → Prog Bool
  | 0 => pure false
  | n + 1 => do
    if ← installItem fuel T i kind force then pure true
    else installAgain fuel T i kind force n

/-- What an item has put in place it can put in place again, and the file that it copies is
found under the same path. -/
structure Lasts (T : Trees) (i : Item) (files : Text → Loc × Bytes) (P : Tree → Place) (w : World) :
    Prop where
  fit : ∀ t, FitAll (Blind w.fs P (P t).d) (i.deeds files) (i.found (i.result files))
  settles : i.Settles (i.result files)
  file : i.copy ≠ [] → ∀ w', SameBut P w.fs w'.fs → w'.cwd = w.cwd →
    sourceOf T w' i.copy = sourceOf T w i.copy

section Again

variable {fuel : ℕ} {T : Trees} {i : Item} {files : Text → Loc × Bytes} {L : Tree → Loc}
  {P : Tree → Place} {kind : ItemKind} {force : Text} {w w₁ w' : World}

theorem SameBut.trans {fs fs' fs'' : FS} (h : SameBut P fs fs') (h' : SameBut P fs' fs'') :
    SameBut P fs fs'' :=
  ⟨fun p hp => h'.dirs p (h.dirs p hp), fun p hp => (h'.others p hp).trans (h.others p hp)⟩

theorem Blind.of_sameBut {fs fs' : FS} {d : Loc} {text : Path} (h : Blind fs P d text)
    (hs : SameBut P fs fs') : Blind fs' P d text :=
  fun fs'' hs'' => h fs'' (hs.trans hs'')

theorem FitAll.mono {B B' : Path → Prop} (hB : ∀ text, B text → B' text) :
    ∀ {es : List Deed} {c : Option Content}, FitAll B es c → FitAll B' es c
  | [], _, _ => trivial
  | e :: es, c, ⟨hfit, hgone, hrest⟩ => by
    refine ⟨?_, hgone, FitAll.mono hB hrest⟩
    cases e with
    | move s bytes => exact ⟨hfit.1, fun text ht => hB text (hfit.2 text ht)⟩
    | link text => exact ⟨hfit.1, fun text ht => hB text (hfit.2 text ht)⟩
    | _ => exact hfit

/-- An item that lasts finds what it needs again. -/
theorem Fits.again (h : Fits T i files L P w) (hl : Lasts T i files P w)
    (he₁ : Entered (· = (P .rootfs).d) (P .rootfs).d w w₁)
    (he₂ : Entered (· = (P .sysroot).d) (P .sysroot).d w₁ w')
    (hsame : ∀ t, dataAt w'.fs (P t).d = i.result files) :
    Fits T i files L P w' ∧ Lasts T i files P w' := by
  have hbut : SameBut P w.fs w'.fs := ((SameBut.refl P w.fs).of_entered he₁).of_entered he₂
  have hcwd : w'.cwd = w.cwd := he₂.cwd.trans he₁.cwd
  have hfit : ∀ t, FitAll (Blind w'.fs P (P t).d) (i.deeds files) (i.found (i.result files)) :=
    fun t => (hl.fit t).mono fun text hb => hb.of_sameBut hbut
  refine ⟨⟨he₂.calm (he₁.calm h.calm), h.dir, h.kept, h.slash, h.rel, h.apart, h.inside,
    fun t u => ?_, fun t => ?_, fun hc t => ?_, fun t => hsame t ▸ hfit t, fun t => hsame t ▸ hl.settles⟩,
    hfit, hl.settles, fun hc w'' hs'' hcwd'' => ?_⟩
  · rw [he₂.cwd]
    exact (h.spot_of_entered he₁ t .sysroot).keepWays (h.spot_of_entered he₁ t u)
      (he₂.keepWays fun l _ hl _ => hl ▸ .refl _)
  · -- a name on the way is that of the item itself only if that is a directory
    intro ms hms hsome
    by_cases heq : ms.reverse ++ (P t).q = (P t).d
    · have hno : i.dir ≠ [] := fun hno => by
        rw [Item.lead, if_pos hno] at hms
        have hlen := congrArg List.length heq
        have hle := hms.length_le
        have hpos := List.length_pos_iff.mpr (h.spot t t).ne
        simp only [Place.d, List.length_append, List.length_reverse, List.length_dropLast]
          at hlen hle
        omega
      rw [heq]
      exact dataAt_eq_dir.mp ((hsame t).trans (h.result_dir hno))
    · have hne : ∀ u, ms.reverse ++ (P t).q ≠ (P u).d := fun u hu => by
        by_cases htu : t = u
        · exact heq (htu ▸ hu)
        · have ha : Above (L t) (ms.reverse ++ (P t).q) :=
            (h.inside t).trans (List.suffix_append ..)
          exact h.ne_of_above htu ha (h.above u) (hu ▸ .refl _)
      rcases he₂.others _ (hne .sysroot) with h₂ | ⟨-, hd, -⟩
      · rcases he₁.others _ (hne .rootfs) with h₁ | ⟨-, hd, -⟩
        · rw [h₂, h₁] at hsome
          exact hbut.dirs _ (h.clear t ms hms hsome)
        · exact he₂.dirs _ hd
      · exact hd
  · rw [hl.file hc w' hbut hcwd, hcwd]
    obtain ⟨hr, hner⟩ := h.source hc .rootfs
    obtain ⟨hs, hnes⟩ := h.source hc .sysroot
    obtain ⟨ht, hnet⟩ := h.source hc t
    have hw₁ : w.fs.KeepsWays (P .rootfs).d w₁.fs := he₁.keepWays fun l _ hl _ => hl ▸ .refl _
    have hf₁ := he₁.hasFile hner hr.file
    refine ⟨(hr.keep hs hw₁ hf₁).keep (hr.keep ht hw₁ hf₁) ?_ (he₂.hasFile hnes hf₁), hnet⟩
    exact he₂.keepWays fun l _ hl _ => hl ▸ .refl _
  · rw [hl.file hc w'' (hbut.trans hs'') (hcwd''.trans hcwd), hl.file hc w' hbut hcwd]

theorem OneResult.trans {w₀ : World} (h : OneResult T i files P w₀ w)
    (h' : OneResult T i files P w w') : OneResult T i files P w₀ w' := by
  refine ⟨h'.there, h'.same, fun p hp => ?_⟩
  rcases h'.others p hp with heq | ⟨hn, hd, ha⟩
  · rcases h.others p hp with heq₀ | ⟨hn, hd, ha⟩
    · exact .inl (heq.trans heq₀)
    · obtain ⟨k, hk, hkd⟩ := w.fs.isDir_iff.mp hd
      exact .inr ⟨hn, (FS.isDir_of_node (heq.trans hk)).trans hkd, ha⟩
  · rcases h.others p hp with heq₀ | ⟨hn₀, -, -⟩
    · exact .inr ⟨heq₀ ▸ hn, hd, ha⟩
    · exact .inr ⟨hn₀, hd, ha⟩

/-- One more time the item is installed the same, and may be so again. -/
theorem installItem_lasts (h : Fits T i files L P w) (hl : Lasts T i files P w)
    (hruns : installsRootfs T i w kind force = true) (hsys : hasY i.installSysroot = true) :
    wp (installItem fuel T i kind force) (fun failed w' => failed = false ∧
      OneResult T i files P w w' ∧ Fits T i files L P w' ∧ Lasts T i files P w')
      (fun _ _ => False) w := by
  refine wp_mono (installItem_entered h hruns hsys) (fun failed w' hq => ?_) fun _ _ hq => hq
  obtain ⟨rfl, w₁, he₁, he₂, hsame⟩ := hq
  exact ⟨rfl, h.oneResult he₁ he₂ hsame, h.again hl he₁ he₂ hsame⟩

/-- An item that lasts may be installed any number of times. -/
theorem installAgain_run (h : Fits T i files L P w) (hl : Lasts T i files P w)
    (hruns : ∀ w, installsRootfs T i w kind force = true) (hsys : hasY i.installSysroot = true)
    (n : ℕ) : wp (installAgain fuel T i kind force n) (fun failed w' => failed = false ∧
      if n = 0 then w' = w else OneResult T i files P w w') (fun _ _ => False) w := by
  induction n generalizing w with
  | zero => exact ⟨rfl, rfl⟩
  | succ n ih =>
    rw [installAgain, wp_bind]
    refine wp_mono (installItem_lasts h hl (hruns w) hsys) (fun failed w₁ hq => ?_) fun _ _ hq => hq
    obtain ⟨rfl, hres, hfits, hlasts⟩ := hq
    rw [if_neg (by simp)]
    refine wp_mono (ih hfits hlasts) (fun failed w' hq => ?_) fun _ _ hq => hq
    obtain ⟨rfl, hrest⟩ := hq
    refine ⟨rfl, ?_⟩
    rw [if_neg (Nat.succ_ne_zero n)]
    split_ifs at hrest
    · rwa [hrest]
    · exact hres.trans hrest

@[irreducible] def twoTrees : World := .ofFS (.ofList [([letter 'r'], .dir), ([letter 's'], .dir)])

def bareTrees : Trees := ⟨['/', 'x'], ['/', 'r'], ['/', 's']⟩

/-- A link `l` to `f`. -/
def linkItem : Item := ⟨['l'], [], [], [], ['f'], [], [], none, ['y']⟩

def treeLoc : Tree → Loc
  | .sysroot => [letter 's']
  | .rootfs => [letter 'r']

def linkPlace (t : Tree) : Place := ⟨[], treeLoc t, [letter 'l']⟩

theorem fits_twoTrees : Fits bareTrees linkItem (fun _ => ([], [])) treeLoc linkPlace twoTrees where
  calm _ _ := by
    unfold twoTrees
    rfl
  dir := .inl rfl
  kept := ⟨rfl, rfl⟩
  slash := by decide
  rel := by decide
  apart := by rintro (_ | _) (_ | _) <;> decide +kernel
  inside _ := .refl _
  spot t u := by
    have hdir : twoTrees.fs.isDir [letter 'r'] ∧ twoTrees.fs.isDir [letter 's'] := by decide +kernel
    have htree : NamesDir twoTrees.fs twoTrees.cwd (bareTrees.dest t) (linkPlace u).d
        (treeLoc t) := by
      cases t
      · exact namesDir_top hdir.2 ..
      · exact namesDir_top hdir.1 ..
    refine ⟨htree, ?_, by cases t <;> decide +kernel, by simp [linkPlace]⟩
    rw [show (linkPlace t).cs = [] from rfl, List.append_nil]
    exact htree.way
  clear t ms hms hsome := by
    obtain rfl : ms = [] := List.prefix_nil.mp hms
    cases t <;> decide +kernel
  source hc := absurd rfl hc
  fit t := by
    have hnone : linkItem.found (dataAt twoTrees.fs (linkPlace t).d) = none := by
      cases t <;> decide +kernel
    rw [hnone]
    exact ⟨⟨by simp, by simp⟩, by simp [Deed.gone], trivial⟩
  settles _ := .inr (.inr (.inr (.inl (by decide))))

/-- What a program that does not stop leaves. -/
theorem exists_of_wp {α : Type} {m : Prog α} {Q : α → World → Prop}
    (h : wp m Q (fun _ _ => False) w) : ∃ a w', m w = .ok a w' ∧ Q a w' := by
  unfold wp at h
  cases hm : m w with
  | ok a w' =>
    rw [hm] at h
    exact ⟨a, w', rfl, h⟩
  | error e w' => simp [hm] at h

/-- A name that is not there leads nowhere, whatever happens in the places. -/
theorem blind_twoTrees (t : Tree) : Blind twoTrees.fs linkPlace (linkPlace t).d ['f'] := by
  intro fs hs _ q hq
  have hcomps : comps ['f'] = [.name (letter 'f')] := by decide +kernel
  rw [hcomps] at hq
  obtain ⟨k, hk⟩ := hq
  have hsome : (fs.node (letter 'f' :: treeLoc t)).isSome := isSome_of_walk_name hk
  have hout : ∀ u, ¬Above (letter 'f' :: treeLoc t) (linkPlace u).d := fun u => by
    cases t <;> cases u <;> decide +kernel
  have hnone : twoTrees.fs.node (letter 'f' :: treeLoc t) = none := by
    cases t <;> decide +kernel
  rw [hs.others _ hout, hnone] at hsome
  simp at hsome

theorem lasts_twoTrees : Lasts bareTrees linkItem (fun _ => ([], [])) linkPlace twoTrees where
  fit t := by
    refine ⟨⟨by decide +kernel, fun text ht => ?_⟩, by simp [Deed.gone], trivial⟩
    have hr : linkItem.found (linkItem.result fun _ => ([], [])) = some (.lnk ['f']) := by
      decide +kernel
    have htext : text = ['f'] := (Content.lnk.inj (Option.some.inj (hr.symm.trans ht))).symm
    rw [htext]
    exact blind_twoTrees t
  settles := .inr (.inr (.inr (.inl (by decide))))
  file hc := absurd rfl hc

end Again

end Makeroot
