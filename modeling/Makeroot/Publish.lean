import Makeroot.CopyTree
import Makeroot.InstallFile
import Makeroot.Leading
import Makeroot.Project

/-!
# Publishing a package

Each line of cmd_post-install-project asks for a directory `T` in the package directory and
copies it, with `install -DrpP` run there, to the `T` of a tree. Where the copy goes depends
on what is there already and on the slash at the end of `T` : `wp_main_publishing` has the
three ways that `main` goes, and what each of them leaves is said by one lemma,
`installFileInFile_publishing`, about a source and a destination that name entries.
-/

namespace Makeroot

open Posix GnuMake

/-! ## The recipe -/

/-- The options of `install -DrpP`. -/
def publishing : Flags where
  mkdirAndInstall := true
  recursive := true
  preserve := true
  noDereference := true
  strip := false
  gzip := false
  mode := none
  sysroot := none

/-- The directories of the recipe : `sprj-destdir`, `sysroot` and `rootfs`. -/
structure Places where
  destdir : Path
  sysroot : Path
  rootfs : Path

/-- The directory of a tree. -/
def Places.tree (P : Places) : Tree → Path
  | .sysroot => P.sysroot
  | .rootfs => P.rootfs

/-- `install-dest`. -/
def Places.installDest (P : Places) (c : SubtreeCopy) : Path := P.tree c.tree ++ '/' :: c.target

/-- A line of a recipe is run by a shell of its own, so that the current directory is the
same for the next. -/
def inShell (line : Prog Bool) : Prog Bool := fun w =>
  match line w with
  | .ok failed w' => .ok failed { w' with cwd := w.cwd }
  | .error (.exit status) w' => .ok (status ≠ 0) { w' with cwd := w.cwd }
  | .error .outOfFuel w' => .error .outOfFuel { w' with cwd := w.cwd }

section Recipe

variable (tools : Tools) (depth : ℕ) (P : Places)

/-- `if [ -d $(sprj-destdir)/T ]; then cd $(sprj-destdir)/ && $(INSTALL) -DrpP T dest; fi`. -/
def publishLine (c : SubtreeCopy) : Prog Bool := inShell do
  if ← isdir (P.destdir ++ '/' :: c.target) then
    match ← chdir (P.destdir ++ ['/']) with
    | .error _ => pure true
    | .ok _ => main tools publishing depth [c.target, P.installDest c]
  else pure false

/-- The lines of a recipe, up to the first that fails. -/
def publishLines : List SubtreeCopy → Prog Bool
  | [] => pure false
  | c :: cs => do
    if ← publishLine tools depth P c then pure true else publishLines cs

/-- The marker of a package that is to be published. -/
def Places.marker (P : Places) : Path := P.destdir ++ lit "/.post-install"

/-- The goal post-install-project. -/
def Places.postInstallProject (G : Globals) (sprj : Text) : Prog Bool := do
  match ← stat P.marker with
  | .error _ => pure false
  | .ok _ =>
    if ← publishLines tools depth P (subtreeCopies G sprj) then pure true
    else
      match ← unlink P.marker with
      | .error _ => pure true
      | .ok _ => pure false

end Recipe

theorem wp_inShell {line : Prog Bool} {Q : Bool → World → Prop} {E : Stop → World → Prop}
    {w : World} (h : wp line (fun failed w' => Q failed { w' with cwd := w.cwd })
      (fun e w' => (∀ status, e = .exit status → Q (status ≠ 0) { w' with cwd := w.cwd }) ∧
        (e = .outOfFuel → E .outOfFuel { w' with cwd := w.cwd })) w) :
    wp (inShell line) Q E w := by
  unfold wp inShell at *
  cases hl : line w with
  | ok failed w' =>
    rw [hl] at h
    exact h
  | error e w' =>
    rw [hl] at h
    cases e with
    | exit status => exact h.1 status rfl
    | outOfFuel => exact h.2 rfl

/-! ## Targets -/

/-- A path of names, from the current directory on. -/
structure IsTarget (t : Path) (ns : List Name) : Prop where
  isAbs : isAbs t = false
  pieces : pieces t = ns.map .name
  ne : ns ≠ []

theorem IsTarget.ne_nil {t : Path} {ns : List Name} (h : IsTarget t ns) : t ≠ [] := fun ht => by
  have hp := h.pieces
  rw [ht, pieces_nil] at hp
  exact h.ne (List.map_eq_nil_iff.mp hp.symm)

theorem baseName_of_slash {t : Path} (h : t.getLast? = some '/') : baseName t = [] := by
  obtain ⟨d, rfl⟩ : ∃ d, t = d ++ ['/'] := ⟨_, (List.dropLast_append_getLast? _ h).symm⟩
  simp [baseName]

/-- The last component of a path is its base name. -/
theorem baseName_of_pieces {t : Path} (hlast : t.getLast? ≠ some '/') {cs : List Comp} {n : Name}
    (hp : pieces t = cs ++ [.name n]) : baseName t = n.val := by
  have ht : t ≠ [] := fun h => by simp [h, pieces_nil] at hp
  obtain ⟨cs', hcs⟩ := exists_pieces_baseName t
  have hends : ∀ {c : Comp}, pieces (baseName t) = [c] → c = .name n := fun hc => by
    rw [hc, hp] at hcs
    have := congrArg List.getLast? hcs
    simpa using this.symm
  rcases baseName_cases ht hlast with ⟨m, hm⟩ | hb | hb
  · have := hends (by rw [hm, pieces_name])
    rw [hm, (Comp.name.injEq _ _).mp this]
  · have := @hends .cur (by rw [hb]; decide +kernel)
    simp at this
  · have := @hends .up (by rw [hb]; decide +kernel)
    simp at this

/-- The components of a path are those of its `dirname` and its base name. -/
theorem pieces_dirname {t : Path} (h : '/' ∈ t) :
    pieces t = pieces (dirname t) ++ pieces (baseName t) ∧ isAbs (dirname t) = isAbs t := by
  obtain ⟨d, ht, hd⟩ := exists_dirname h
  constructor
  · rw [hd, pieces_stripTrailingSlashes, pieces_append_slash, pieces_nil, List.append_nil]
    conv_lhs => rw [ht, pieces_append_slash]
  · rw [hd, isAbs_stripTrailingSlashes]
    conv_rhs => rw [ht]
    cases d <;> rfl

/-- Whether a path names a directory depends on its components. -/
theorem isdir_congr {w : World} {t u : Path} (ht : t ≠ []) (hu : u ≠ [])
    (habs : isAbs u = isAbs t) (hp : pieces u = pieces t) : World.isdir w u = World.isdir w t := by
  have himp : ∀ {t u : Path}, u ≠ [] → isAbs u = isAbs t → pieces u = pieces t →
      World.isdir w t → World.isdir w u := by
    intro t u hu habs hp h
    obtain ⟨p, hr, hd⟩ := isdir_iff.mp h
    refine isdir_iff.mpr ⟨p, FS.resolve_of_walk_pieces hu ?_ hd, hd⟩
    have := FS.walk_pieces hr
    rwa [start, habs, ← start, hp]
  exact Bool.eq_iff_iff.mpr ⟨himp ht habs.symm hp.symm, himp hu habs hp⟩

/-! ## Where a target goes -/

/-- The names that are to be there before a target is copied : those before its last slash. -/
def stem (t : Path) (ns : List Name) : List Name :=
  if t.getLast? = some '/' then ns else ns.dropLast

/-- Where a target lands that is copied into a directory : with a slash at the end it is laid
over the directory. -/
def landing (t : Path) (ns : List Name) (q : Loc) : Loc :=
  if t.getLast? = some '/' then q else ns.getLast?.toList ++ q

theorem landing_stem (t : Path) (ns : List Name) (r : Loc) :
    landing t ns ((stem t ns).reverse ++ r) = ns.reverse ++ r := by
  unfold landing stem
  split_ifs
  · rfl
  · rcases List.eq_nil_or_concat ns with rfl | ⟨ns, n, rfl⟩ <;> simp

theorem above_landing (t : Path) (ns : List Name) (q : Loc) : Above q (landing t ns q) := by
  unfold landing
  split_ifs
  · exact .refl q
  · exact List.suffix_append ..

namespace IsTarget

variable {t : Path} {ns : List Name}

/-- Without a slash at its end a target ends in its last name. -/
theorem exists_baseName (h : IsTarget t ns) (hs : t.getLast? ≠ some '/') :
    ∃ ns₁ n, ns = ns₁ ++ [n] ∧ baseName t = n.val := by
  obtain ⟨ns₁, n, rfl⟩ : ∃ ns₁ n, ns = ns₁ ++ [n] :=
    ⟨_, _, (List.dropLast_append_getLast h.ne).symm⟩
  exact ⟨ns₁, n, rfl, @baseName_of_pieces _ hs (ns₁.map .name) _ (by simp [h.pieces])⟩

variable {x : Path}

theorem pieces_dest (h : IsTarget t ns) : Posix.pieces (x ++ '/' :: t) =
    Posix.pieces x ++ ns.map .name := by
  rw [pieces_append_slash, h.pieces]

theorem getLast_dest (h : IsTarget t ns) : (x ++ '/' :: t).getLast? = t.getLast? := by
  rw [List.getLast?_append_of_ne_nil _ (by simp), List.getLast?_cons_of_ne_nil h.ne_nil]

theorem pieces_dirname_dest (h : IsTarget t ns) : Posix.pieces (dirname (x ++ '/' :: t)) =
    Posix.pieces x ++ (stem t ns).map .name := by
  have hd := (pieces_dirname (t := x ++ '/' :: t) (by simp)).1
  rw [h.pieces_dest] at hd
  unfold stem
  split_ifs with hs
  · rw [baseName_of_slash (h.getLast_dest.trans hs), pieces_nil, List.append_nil] at hd
    exact hd.symm
  · obtain ⟨ns₁, n, rfl, -⟩ := h.exists_baseName hs
    have hb : baseName (x ++ '/' :: t) = n.val :=
      @baseName_of_pieces _ (by rwa [h.getLast_dest]) (Posix.pieces x ++ ns₁.map .name) _
        (by simp [h.pieces_dest])
    rw [hb, pieces_name, List.map_append, ← List.append_assoc, List.map_singleton] at hd
    rw [List.dropLast_concat]
    exact (List.append_cancel_right hd).symm

end IsTarget

theorem pathConcat_nil {dir : Path} (hd : dir ≠ []) : (pathConcat dir []).getLast? = some '/' ∧
    pieces (pathConcat dir []) = pieces dir := by
  refine ⟨?_, by rw [pieces_pathConcat hd, pieces_nil, List.append_nil]⟩
  unfold pathConcat
  split_ifs with h₁ h₂
  · simp at h₁
  · simp
  · rw [List.append_nil]
    by_contra h
    exact h₂ ⟨h, by simp⟩

section Names

variable {fs : FS} {cwd R q s : Loc} {t u : Path} {ns : List Name}

/-- A target copied into a directory that is named. -/
theorem namesEntry_landing (ht : IsTarget t ns) (h : NamesDir fs cwd u R q) :
    NamesEntry fs cwd (pathConcat u (baseName t)) R (landing t ns q) := by
  unfold landing
  split_ifs with hs
  · rw [baseName_of_slash hs]
    obtain ⟨hlast, hp⟩ := pathConcat_nil h.ne
    exact .dir (h.congr (pathConcat_ne_nil h.ne _) (isAbs_pathConcat h.ne _) hp) hlast
  · obtain ⟨ns₁, n, rfl, hb⟩ := ht.exists_baseName hs
    rw [hb]
    simpa using NamesEntry.entry h (isChild_pathConcat h.ne n)

/-- The path up to the directory that a target is looked up in : all of it if there is a slash
at the end. -/
def way (t : Path) : Path := if t.getLast? = some '/' then t else dirname t

/-- A target that is itself a directory is an entry. -/
theorem namesEntry_of_resolve (ht : IsTarget t ns)
    (hr : fs.resolve cwd (t.getLast? = some '/') t = .ok (.there s)) (hs : fs.isDir s)
    (hl : ∀ l ∈ fs.links FS.maxLinks (start cwd (way t)) (pieces (way t)), ¬Above R l) :
    NamesEntry fs cwd t R s := by
  by_cases hslash : t.getLast? = some '/'
  · simp only [hslash, decide_true] at hr
    rw [way, if_pos hslash] at hl
    exact .dir (.of_resolve hr hs hl) hslash
  · simp only [hslash, decide_false] at hr
    rw [way, if_neg hslash] at hl
    obtain ⟨ns₁, n, rfl, hb⟩ := ht.exists_baseName hslash
    have hchild := isChild_dirname hb
    have htrue := FS.resolve_of_plain (FS.plain_of_isDir hs) hr
    -- the directory the last name is looked up in
    obtain ⟨q, hq, hqd⟩ : ∃ q, fs.walk true FS.maxLinks (start cwd (dirname t))
        (pieces (dirname t)) = .ok (.there q) ∧ fs.isDir q := by
      have hstart : start cwd t = start cwd (dirname t) := by rw [start, hchild.isAbs, ← start]
      rw [FS.resolve, if_neg ht.ne_nil, hstart] at htrue
      rcases hchild.comps with hc | ⟨hdot, hc⟩
      · rw [hc] at htrue
        exact FS.walk_prefix htrue
      · rw [hc] at htrue
        have hd : fs.isDir (start cwd (dirname t)) := by
          rcases FS.walk_eq_there htrue with hs | ⟨_, _, _, _, _, -, -, hs, -⟩
          · exact fs.isDir_of_scan fun e he => by rw [he] at hs; simp at hs
          · exact fs.isDir_of_scan fun e he => by rw [he] at hs; simp at hs
        exact ⟨_, by rw [hdot]; exact FS.walk_of_done (by simp [FS.scan, hd]), hd⟩
    have hdir : NamesDir fs cwd (dirname t) R q := ⟨dirname_ne_nil t, hq, hqd, hl⟩
    rw [hdir.resolve_child hchild (.inl rfl)] at hr
    split_ifs at hr
    · rw [Except.ok.injEq, Found.there.injEq] at hr
      exact hr ▸ .entry hdir hchild
    · simp at hr

end Names

/-! ## install -DrpP of one directory -/

section Install

variable {tools : Tools} {depth : ℕ} {S R s d : Loc} {src dst : Path} {w : World}

theorem Overlaid.of_attrSet {fs : FS} {w₁ w₂ : World} (h : Overlaid s d fs w₁.fs)
    (hs : (fs.node s).isSome) (ha : AttrSet S d w₁ w₂) : Overlaid s d fs w₂.fs := by
  refine ⟨fun r k hk => ?_, fun r hr => ?_⟩
  · obtain ⟨j, hj, hc⟩ := h.copied r k hk
    obtain ⟨j', hj', hc'⟩ := ha.contents.exists_node hj
    exact ⟨j', hj', by rw [hc', hc]⟩
  · have hne : r ++ d ≠ d := fun hd => by
      have : r = [] := by simpa using hd
      rw [this, List.nil_append] at hr
      simp [hr] at hs
    rw [ha.out _ hne, h.kept r hr]

/-- A directory is installed where an entry is named. -/
theorem installFileInFile_publishing (hS : Above S s) (hR : Above R d)
    (hsrc : NamesEntry w.fs w.cwd src R s) (hs : w.fs.isDir s)
    (hdst : NamesEntry w.fs w.cwd dst R d) (hfree : w.Free .unlink) :
    wp (installFileInFile tools publishing depth src dst []) (fun r w' => Within S d w w' ∧
      (Layable depth [] [] s d w → r.1 = false ∧ Overlaid s d w.fs w'.fs))
      (fun _ w' => Within S d w w' ∧ ¬Layable depth [] [] s d w) w := by
  have hsome : (w.fs.node s).isSome := by
    obtain ⟨k, hk, -⟩ := w.fs.isDir_iff.mp hs
    simp [hk]
  rw [installFileInFile, wp_bind, wp_copyFile rfl]
  refine wp_mono (copyInternal_tree rfl rfl depth false [] src dst s d [] w hS hR hsrc hdst hfree
    (by simp)) (fun r w₁ h₁ => ?_) fun _ _ h => h
  obtain ⟨failed, h⟩ := r
  cases failed with
  | true => exact ⟨h₁.within, fun hl => by simpa using (h₁.laid hl).1⟩
  | false =>
    have hd := h₁.dir rfl hs (by simp)
    have hdst₁ := ((h₁.within.mono hR).namesEntry hdst).namesDir hd
    have hsrc₁ := ((h₁.within.mono hR).namesEntry hsrc).namesDir (h₁.within.dirs s hs)
    simp only [publishing, Bool.false_eq_true, if_false, if_true, wp_bind]
    refine wp_mono (changeAttributes_spec (S := S) hdst₁.resolve) (fun failed w₂ h₂ => ?_)
      fun _ _ h => h.elim
    obtain ⟨hattr, hcalm⟩ := h₂
    have hw₂ := h₁.within.trans hattr.within
    cases failed with
    | true => exact ⟨hw₂, fun hl => by simpa using hcalm (h₁.within.calm hl.calm)⟩
    | false =>
      have hres := hattr.resolve hsrc₁.resolve
      obtain ⟨k, hk⟩ := FS.exists_node_of_resolve hres
      rw [if_neg (by simp), wp_bind]
      refine wp_mono (changeTimestamps_spec (S := S) (hattr.resolve hdst₁.resolve))
        (fun failed w₃ h₃ => ?_) fun _ _ h => h.elim
      refine ⟨hw₂.trans h₃.1.within, fun hl => ⟨h₃.2 (hw₂.calm hl.calm)
        ⟨_, World.stat_of_there hres hk⟩, ?_⟩⟩
      exact ((h₁.laid hl).2.of_attrSet hsome hattr).of_attrSet hsome h₃.1

/-- A destination that cannot be looked up for another reason than that it is missing is not
touched. -/
theorem installFileInFile_refused {e : Errno} (hdst : w.stat false dst = .error e)
    (he : e ≠ .noent) :
    wp (installFileInFile tools publishing depth src dst []) (fun r w' => r.1 = true ∧ w' = w)
      (fun _ w' => w' = w) w := by
  rw [installFileInFile, wp_bind, wp_copyFile rfl]
  suffices h : wp (copyInternal publishing.cpOptions depth src dst false [] [])
      (fun r w' => r.1 = true ∧ w' = w) (fun _ w' => w' = w) w by
    refine wp_mono h (fun r w₁ h₁ => ?_) fun _ _ h => h
    obtain ⟨failed, h⟩ := r
    obtain ⟨rfl, rfl⟩ := h₁
    exact ⟨rfl, rfl⟩
  cases depth with
  | zero => exact rfl
  | succ depth =>
    rw [copyInternal, wp_bind, wp_xstat]
    cases w.stat publishing.cpOptions.dereference src with
    | error e => exact ⟨rfl, rfl⟩
    | ok k =>
      have hprep : ∀ {Q : Option Dst → World → Prop} {E : Stop → World → Prop}, Q none w →
          wp (prepareDst publishing.cpOptions k dst false) Q E w := by
        intro Q E hQ
        rw [prepareDst, if_neg (by simp), wp_bind, wp_xstat]
        simp only [publishing, Flags.cpOptions, Bool.not_true, hdst, he, if_false]
        exact hQ
      simp only [rememberCopied, hashInsert, List.lookup_nil]
      rw [if_neg (by simp), if_neg (by simp [publishing, Flags.cpOptions]), wp_bind]
      exact hprep ⟨rfl, rfl⟩

/-- The three ways of `main`. -/
theorem wp_main_publishing {Q : Bool → World → Prop} {E : Stop → World → Prop}
    (habs : isAbs dst = true)
    (hthere : World.isdir w dst = true → wp (installFileInFile tools publishing depth src
      (pathConcat dst (baseName src)) []) (fun r => Q r.1) E w)
    (hentry : World.isdir w dst = false → World.isdir w (dirname dst) = true →
      wp (installFileInFile tools publishing depth src dst []) (fun r => Q r.1) E w)
    (hmake : World.isdir w dst = false → World.isdir w (dirname dst) = false →
      wp (makePath (dirname dst) 0o755) (fun failed w' =>
        (failed = true → Q true w') ∧ (failed = false → wp (installFileInFile tools publishing depth
          src (pathConcat (dirname dst) (baseName src)) []) (fun r => Q r.1) E w')) E w) :
    wp (main tools publishing depth [src, dst]) Q E w := by
  have hdot : dirname dst ≠ ['.'] := fun h => by
    have hslash : '/' ∈ dst := by
      by_contra hslash
      cases hd : dst with
      | nil => simp [isAbs, hd] at habs
      | cons c t =>
        simp only [isAbs, hd, List.head?_cons, Option.some.injEq, decide_eq_true_eq] at habs
        exact hslash (by simp [hd, habs])
    have := (pieces_dirname hslash).2
    rw [h, habs] at this
    simp [isAbs] at this
  change wp (do
    if ← isdir dst then do
      let r ← installFileInDir tools publishing depth src dst []
      pure r.1
    else do
      let r ← installFileToPath tools publishing depth src dst []
      pure r.1) Q E w
  rw [wp_bind, wp_isdir]
  by_cases hd : World.isdir w dst = true
  · rw [if_pos hd, wp_bind]
    exact wp_installFileInDir (fun _ => hthere hd) fun h => by simp [hd] at h
  · have hd' : World.isdir w dst = false := by simpa using hd
    rw [if_neg hd, wp_bind, installFileToPath, wp_bind, wp_isdir]
    by_cases hp : World.isdir w (dirname dst) = true
    · rw [if_neg (by simp [hp])]
      exact hentry hd' hp
    · have hp' : World.isdir w (dirname dst) = false := by simpa using hp
      rw [if_pos (by simp [hdot, hp'])]
      exact wp_installFileInDir (fun h => absurd h hp) fun _ => hmake hd' hp'

end Install

/-! ## Where a target is sent -/

/-- No link stands at the names from `r` on. -/
def Unlinked (fs : FS) (r : Loc) (ns : List Name) : Prop :=
  ∀ ms, ms <+: ns → ∀ k, fs.node (ms.reverse ++ r) = some k → k.content.isLnk = false

/-- Where there is no link names lead down. -/
theorem Unlinked.eq_of_leads {fs : FS} {r q : Loc} {ns ms : List Name} (h : Unlinked fs r ns)
    (hms : ms <+: ns) (hq : fs.Leads r (ms.map .name) q) : q = ms.reverse ++ r := by
  induction ms using List.reverseRecOn generalizing q with
  | nil => exact hq.unique (.nil r)
  | append_singleton ms n ih =>
    obtain ⟨k, hk⟩ := hq
    rw [List.map_append, List.map_singleton] at hk
    obtain ⟨p, hp, hpd⟩ := FS.walk_prefix hk
    obtain rfl := ih ((List.prefix_append ..).trans hms) ⟨k, hp⟩
    obtain ⟨k', hn⟩ := FS.Leads.of_append ⟨k, hp⟩ ⟨k, hk⟩
    have heq : (ms ++ [n]).reverse ++ r = n :: (ms.reverse ++ r) := by simp
    rw [FS.walk_name hpd (.inr fun j t hj hc => ?_)] at hn
    · split_ifs at hn
      · rw [Except.ok.injEq, Found.there.injEq] at hn
        rw [heq, hn]
      · simp at hn
    · have := h (ms ++ [n]) hms j (by rw [heq, hj])
      simp [hc, Content.isLnk] at this

/-- The names from `r` on are directories, as far as there is anything. -/
def Clear (fs : FS) (r : Loc) (ns : List Name) : Prop :=
  ∀ ms, ms <+: ns → (fs.node (ms.reverse ++ r)).isSome → fs.isDir (ms.reverse ++ r)

namespace Clear

variable {fs : FS} {r q : Loc} {ns ms : List Name}

theorem of_prefix (h : Clear fs r ns) (hms : ms <+: ns) : Clear fs r ms :=
  fun ls hls => h ls (hls.trans hms)

theorem unlinked (h : Clear fs r ns) : Unlinked fs r ns := fun ms hms k hk => by
  obtain ⟨j, hj, hc⟩ := FS.content_of_isDir (h ms hms (by simp [hk]))
  rw [hk, Option.some.injEq] at hj
  rw [hj, hc]
  rfl

/-- Along directories names lead down. -/
theorem eq_of_leads (h : Clear fs r ns) (hr : fs.isDir r) (hms : ms <+: ns)
    (hq : fs.Leads r (ms.map .name) q) : q = ms.reverse ++ r ∧ fs.isDir q := by
  have heq := h.unlinked.eq_of_leads hms hq
  refine ⟨heq, ?_⟩
  rcases List.eq_nil_or_concat ms with rfl | ⟨ls, n, rfl⟩
  · rwa [heq]
  · obtain ⟨k, hk⟩ := hq
    obtain ⟨j, hj, -⟩ := FS.plain_of_walk (by simp) hk
    rw [heq] at hj ⊢
    exact h _ hms (by rw [hj]; rfl)

theorem not_obstructed (h : Clear fs r ns) (hr : fs.isDir r) : ¬Obstructed fs r ns := by
  rintro ⟨ns₁, n, ms, q, rfl, hq, -, hsome, hd⟩
  obtain ⟨rfl, -⟩ := h.eq_of_leads hr (List.prefix_append ..) hq
  have := h (ns₁ ++ [n]) ⟨ms, by simp⟩ (by simpa using hsome)
  simp [hd] at this

end Clear

/-- What becomes of the target `t` of the names `ns` that is copied from `s` to a tree at `r`,
and whether that failed. -/
inductive Sent (depth : ℕ) (S s r : Loc) (t : Path) (ns : List Name) (dst : Path) (w w' : World) :
    Bool → Prop
  /-- Nothing, as a call failed or something was in the way. -/
  | refused (hm : Moved w w') (h : w.Calm → ¬Clear w.fs r (stem t ns)) :
      Sent depth S s r t ns dst w w' true
  /-- It goes to a directory that is there. -/
  | laid {ms : List Name} {q : Loc} {failed : Bool} (hms : ms = ns ∨
        ms = stem t ns ∧ World.isdir w dst = false ∧ t.getLast? ≠ some '/')
      (hq : w.fs.Leads r (ms.map .name) q) (hd : w.fs.isDir q)
      (hw : Within S (landing t ns q) w w')
      (h : Layable depth [] [] s (landing t ns q) w →
        failed = false ∧ Overlaid s (landing t ns q) w.fs w'.fs) :
      Sent depth S s r t ns dst w w' failed
  /-- The directories are made first. -/
  | made {ns₁ : List Name} {n : Name} {ms : List Name} {q : Loc} {w₁ : World} {failed : Bool}
      (hns : stem t ns = ns₁ ++ n :: ms) (hq : w.fs.Leads r (ns₁.map .name) q)
      (hd : w.fs.isDir q) (hn : w.fs.node (n :: q) = none)
      (hg : Grown S (n :: q) q (n :: ms) w w₁ false) (hcwd : w₁.cwd = w.cwd)
      (hw : Within S (landing t ns (ms.reverse ++ n :: q)) w₁ w')
      (h : Layable depth [] [] s (landing t ns (ms.reverse ++ n :: q)) w₁ →
        failed = false ∧ Overlaid s (landing t ns (ms.reverse ++ n :: q)) w₁.fs w'.fs) :
      Sent depth S s r t ns dst w w' failed
  /-- Not all of them could be made, or gone through. -/
  | unfinished {ns₁ : List Name} {n : Name} {ms : List Name} {q : Loc} {failed : Bool}
      (hns : stem t ns = ns₁ ++ n :: ms) (hq : w.fs.Leads r (ns₁.map .name) q)
      (hd : w.fs.isDir q) (hn : w.fs.node (n :: q) = none)
      (hg : Grown S (n :: q) q (n :: ms) w w' failed) (h : w.Calm → ¬Clear w.fs r (stem t ns)) :
      Sent depth S s r t ns dst w w' true

/-- Where a link on the way to a directory, or on the way of the target itself, lies in what
the target is laid over there. -/
def LinksApart (fs : FS) (cwd : Loc) (t : Path) (ns : List Name) (dst : Path) : Prop :=
  ∀ u q, u = dst ∨ u = dirname dst → fs.resolve cwd true u = .ok (.there q) → fs.isDir q →
    ∀ l ∈ fs.links FS.maxLinks (start cwd u) (pieces u) ++
      fs.links FS.maxLinks (start cwd (way t)) (pieces (way t)), ¬Above (landing t ns q) l

section Main

variable {tools : Tools} {depth : ℕ} {S R s r : Loc} {x t : Path} {ns : List Name} {w : World}

theorem isAbs_dest (h : isAbs x = true) (t : Path) : isAbs (x ++ '/' :: t) = true ∧
    isAbs (dirname (x ++ '/' :: t)) = true := by
  have hd : isAbs (x ++ '/' :: t) = true := by
    rw [isAbs_append (fun hx => by simp [hx, isAbs] at h), h]
  exact ⟨hd, by rw [(pieces_dirname (by simp)).2, hd]⟩

/-- What a path along names from a tree names, the names lead to from there. -/
theorem leads_of_resolve_tree {u : Path} {ms : List Name} {q : Loc} (habs : isAbs x = true)
    (hx : NamesDir w.fs w.cwd x R r) (hu : isAbs u = true)
    (hp : pieces u = pieces x ++ ms.map .name)
    (hq : w.fs.resolve w.cwd true u = .ok (.there q)) : w.fs.Leads r (ms.map .name) q := by
  have hr : w.fs.Leads [] (pieces x) r := ⟨FS.maxLinks, by simpa [start, habs] using hx.walk⟩
  have huq := FS.leads_of_resolve hq
  rw [start, hu, if_pos rfl, hp] at huq
  exact hr.of_append huq

/-- A destination with a slash at its end is a directory if its `dirname` is. -/
theorem isdir_dest (ht : IsTarget t ns) (hs : t.getLast? = some '/') :
    World.isdir w (dirname (x ++ '/' :: t)) = World.isdir w (x ++ '/' :: t) := by
  refine isdir_congr (by simp) (dirname_ne_nil _) (pieces_dirname (by simp)).2 ?_
  rw [ht.pieces_dest, ht.pieces_dirname_dest, stem, if_pos hs]

theorem sent_of_there (ht : IsTarget t ns) (habs : isAbs x = true)
    (hx : NamesDir w.fs w.cwd x R r)
    (hsrc : w.fs.resolve w.cwd (t.getLast? = some '/') t = .ok (.there s)) (hs : w.fs.isDir s)
    (hS : Above S s) (hlinks : LinksApart w.fs w.cwd t ns (x ++ '/' :: t))
    (hfree : w.Free .unlink) (hd : World.isdir w (x ++ '/' :: t) = true) :
    wp (installFileInFile tools publishing depth t (pathConcat (x ++ '/' :: t) (baseName t)) [])
      (fun r' w' => Sent depth S s r t ns (x ++ '/' :: t) w w' r'.1)
      (fun _ w' => Sent depth S s r t ns (x ++ '/' :: t) w w' true) w := by
  obtain ⟨q, hq, hqd⟩ := isdir_iff.mp hd
  have hl := hlinks _ q (.inl rfl) hq hqd
  simp only [List.mem_append] at hl
  have hleads := leads_of_resolve_tree habs hx (isAbs_dest habs t).1 ht.pieces_dest hq
  have hdst := namesEntry_landing ht (.of_resolve hq hqd fun l hm => hl l (.inl hm))
  have hent := namesEntry_of_resolve ht hsrc hs fun l hm => hl l (.inr hm)
  refine wp_mono (installFileInFile_publishing hS (.refl _) hent hs hdst hfree)
    (fun r' w' h => .laid (.inl rfl) hleads hqd h.1 h.2) fun _ w' h => ?_
  exact .laid (.inl rfl) hleads hqd h.1 fun hlay => absurd hlay h.2

theorem sent_of_entry (ht : IsTarget t ns) (habs : isAbs x = true)
    (hx : NamesDir w.fs w.cwd x R r)
    (hsrc : w.fs.resolve w.cwd (t.getLast? = some '/') t = .ok (.there s)) (hs : w.fs.isDir s)
    (hS : Above S s) (hlinks : LinksApart w.fs w.cwd t ns (x ++ '/' :: t))
    (hfree : w.Free .unlink) (hd : World.isdir w (x ++ '/' :: t) = false)
    (hp : World.isdir w (dirname (x ++ '/' :: t)) = true) :
    wp (installFileInFile tools publishing depth t (x ++ '/' :: t) [])
      (fun r' w' => Sent depth S s r t ns (x ++ '/' :: t) w w' r'.1)
      (fun _ w' => Sent depth S s r t ns (x ++ '/' :: t) w w' true) w := by
  have hslash : t.getLast? ≠ some '/' := fun hs => by
    rw [isdir_dest ht hs, hd] at hp
    simp at hp
  obtain ⟨q, hq, hqd⟩ := isdir_iff.mp hp
  have hl := hlinks _ q (.inr rfl) hq hqd
  simp only [List.mem_append] at hl
  have hleads := leads_of_resolve_tree habs hx (isAbs_dest habs t).2 ht.pieces_dirname_dest hq
  obtain ⟨ns₁, n, rfl, hb⟩ := ht.exists_baseName hslash
  have hdst : NamesEntry w.fs w.cwd (x ++ '/' :: t) (landing t (ns₁ ++ [n]) q)
      (landing t (ns₁ ++ [n]) q) := by
    have hbase : baseName (x ++ '/' :: t) = n.val :=
      @baseName_of_pieces _ (by rwa [ht.getLast_dest]) (pieces x ++ ns₁.map .name) _
        (by simp [ht.pieces_dest])
    have hentry := NamesEntry.entry
      (.of_resolve hq hqd fun l hm => hl l (.inl hm)) (isChild_dirname hbase)
    simpa [landing, hslash] using hentry
  have hent := namesEntry_of_resolve ht hsrc hs fun l hm => hl l (.inr hm)
  refine wp_mono (installFileInFile_publishing hS (.refl _) hent hs hdst hfree)
    (fun r' w' h => .laid (.inr ⟨rfl, hd, hslash⟩) hleads hqd h.1 h.2) fun _ w' h => ?_
  exact .laid (.inr ⟨rfl, hd, hslash⟩) hleads hqd h.1 fun hlay => absurd hlay h.2

/-- Beyond what is no directory a path leads nowhere. -/
theorem stat_beyond {u v : Path} {c : Comp} {q : Loc} (hu : u ≠ []) (hv : v ≠ [])
    (hd : World.isdir w u = false) (habs : isAbs v = isAbs u) (hp : comps v = pieces u ++ [c])
    (hl : w.fs.Leads (start w.cwd u) (pieces u) q) :
    ∃ e, w.stat false v = .error e ∧ e ≠ .noent := by
  suffices h : ∃ e, w.fs.resolve w.cwd false v = .error e ∧ e ≠ .noent by
    obtain ⟨e, he, hne⟩ := h
    exact ⟨e, by rw [World.stat, he], hne⟩
  have hstart : start w.cwd v = start w.cwd u := by rw [start, habs, ← start]
  rw [FS.resolve, if_neg hv, hstart, hp]
  obtain ⟨k, hk⟩ := hl
  have hc : [c] ≠ [] := by simp
  rcases FS.walk_eq_loop (k := FS.maxLinks) hk hc with hwalk | hloop
  · have hq : w.fs.isDir q = false := by
      by_contra hq
      simp only [Bool.not_eq_false] at hq
      have := isdir_iff.mpr ⟨q, FS.resolve_of_walk_pieces hu hwalk hq, hq⟩
      simp [hd] at this
    obtain ⟨k', -, hk'⟩ := FS.walk_append hwalk
    refine ⟨.notdir, ?_, by simp⟩
    have hscan : w.fs.scan q [c] = .fail .notdir := by
      cases c <;> simp [FS.scan, hq]
    rw [(hk' [c] (by simp)).1, FS.walk, hscan]
  · exact ⟨.loop, hloop false, by simp⟩

/-- What a target is copied to in a directory has one component more, if only a slash. -/
theorem exists_comps_dest (ht : IsTarget t ns) {u : Path} (hu : u ≠ []) :
    ∃ c, comps (pathConcat u (baseName t)) = pieces u ++ [c] := by
  by_cases hs : t.getLast? = some '/'
  · rw [baseName_of_slash hs]
    obtain ⟨hlast, hp⟩ := pathConcat_nil hu
    exact ⟨.slash, by rw [comps, if_pos hlast, hp]⟩
  · obtain ⟨ns₁, n, -, hb⟩ := ht.exists_baseName hs
    exact ⟨.name n, by rw [hb, ← (isChild_pathConcat hu n).pieces, pieces_pathConcat hu, pieces_name]⟩

/-- No link is where there was nothing, if only directories have been made there. -/
theorem Grown.not_above_link {p l : Loc} {n : Name} {ms : List Name} {w₁ : World} {failed : Bool}
    (hg : Grown S (n :: p) p (n :: ms) w w₁ failed) (hn : w.fs.node (n :: p) = none)
    {k : ℕ} {q : Loc} {cs : List Comp} (hl : l ∈ w₁.fs.links k q cs) : ¬Above (n :: p) l := by
  intro habove
  obtain ⟨j, tgt, hj, hc⟩ := FS.exists_target_of_mem_links hl
  have hnone : w.fs.node l = none := by
    by_cases hln : l = n :: p
    · rw [hln, hn]
    · exact FS.node_eq_none_of_above (FS.isDir_of_absent hn) habove hln
  have := (hg.new l j hnone hj).1
  simp [Node.isDir, hc] at this

/-- A target is copied into the last of the directories that have been made. -/
theorem sent_of_grown {u : Path} {ns₁ ms : List Name} {n : Name} {q : Loc} {w₁ : World}
    (ht : IsTarget t ns) (habs : isAbs x = true) (hx : NamesDir w.fs w.cwd x R r)
    (hsrc : w.fs.resolve w.cwd (t.getLast? = some '/') t = .ok (.there s)) (hs : w.fs.isDir s)
    (hS : Above S s) (hfree : w.Free .unlink) (hns : stem t ns = ns₁ ++ n :: ms)
    (hq : w.fs.Leads r (ns₁.map .name) q) (hd : w.fs.isDir q) (hn : w.fs.node (n :: q) = none)
    (hg : Grown S (n :: q) q (n :: ms) w w₁ false) (hcwd : w₁.cwd = w.cwd)
    (hpieces : pieces u = pieces x ++ (stem t ns).map .name) (habs' : isAbs u = true)
    (hne : u ≠ []) :
    wp (installFileInFile tools publishing depth t (pathConcat u (baseName t)) [])
      (fun r' w' => Sent depth S s r t ns (x ++ '/' :: t) w w' r'.1)
      (fun _ w' => Sent depth S s r t ns (x ++ '/' :: t) w w' true) w₁ := by
  have hstart : start w₁.cwd u = start w.cwd x := by simp [start, habs, habs']
  have hlinks : ∀ {cwd : Loc} {v : Path}, ∀ l ∈ w₁.fs.links FS.maxLinks (start cwd v) (pieces v),
      ¬Above (n :: q) l := fun l hl => hg.not_above_link hn hl
  have hx₁ : NamesDir w₁.fs w.cwd x (n :: q) r :=
    .of_resolve (FS.resolve_extends hg.ext hx.resolve) (hg.ext.isDir hx.isDir) hlinks
  have hlast : w₁.fs.isDir (ms.reverse ++ n :: q) := by simpa using hg.last rfl
  have habove : Above (n :: q) (ms.reverse ++ n :: q) := List.suffix_append ..
  -- the names lead to the last directory, unless the path has too many links
  have hleads : w₁.fs.Leads (start w₁.cwd u) (pieces u) (ms.reverse ++ n :: q) := by
    rw [hstart, hpieces, hns, List.map_append]
    refine .append ⟨_, hx₁.walk⟩ (.append (hq.of_extends hg.ext) ⟨0, FS.walk_of_done ?_⟩)
    simpa using @FS.scan_names w₁.fs (n :: ms) q (by simpa using hlast)
  obtain ⟨c, hc⟩ := exists_comps_dest ht hne
  by_cases hu : World.isdir w₁ u = true
  · obtain ⟨q', hq', hqd'⟩ := isdir_iff.mp hu
    obtain rfl := (FS.leads_of_resolve hq').unique hleads
    have hdst := namesEntry_landing ht (.of_resolve hq' hqd' hlinks)
    have hsrc₁ : w₁.fs.resolve w₁.cwd (t.getLast? = some '/') t = .ok (.there s) := by
      rw [hcwd]
      exact FS.resolve_extends hg.ext hsrc
    have hent := namesEntry_of_resolve (R := n :: q) ht hsrc₁ (hg.ext.isDir hs) hlinks
    refine wp_mono (installFileInFile_publishing hS
      (habove.trans (above_landing t ns _)) hent (hg.ext.isDir hs) hdst
      fun i => ?_) (fun r' w' h => ?_) fun _ w' h => ?_
    · have := hg.within.env
      simp only at this
      rw [this]
      exact hfree i
    · exact .made hns hq hd hn hg hcwd h.1 h.2
    · exact .made hns hq hd hn hg hcwd h.1 fun hlay => absurd hlay h.2
  · simp only [Bool.not_eq_true] at hu
    obtain ⟨e, he, hnoent⟩ := stat_beyond hne (pathConcat_ne_nil hne _) hu
      (isAbs_pathConcat hne _) hc hleads
    have hrefused : w.Calm → ¬Clear w.fs r (stem t ns) := fun _ hclear => by
      have hq' := (hclear.eq_of_leads hx.isDir ⟨n :: ms, hns.symm⟩ hq).1
      have hdir : w₁.fs.isDir ((stem t ns).reverse ++ r) := by
        rw [hns]
        simpa [hq'] using hlast
      have hnames := hx₁.down hne (habs'.trans habs.symm) hpieces hdir
      have := isdir_iff.mpr ⟨_, hcwd ▸ hnames.resolve, hdir⟩
      simp [hu] at this
    refine wp_mono (installFileInFile_refused he hnoent) (fun r' w' h => ?_) fun _ w' h => ?_
    · obtain ⟨hr', rfl⟩ := h
      rw [hr']
      exact .unfinished hns hq hd hn hg hrefused
    · rw [h]
      exact .unfinished hns hq hd hn hg hrefused

theorem sent_of_made (ht : IsTarget t ns) (habs : isAbs x = true)
    (hx : NamesDir w.fs w.cwd x R r)
    (hsrc : w.fs.resolve w.cwd (t.getLast? = some '/') t = .ok (.there s)) (hs : w.fs.isDir s)
    (hS : Above S s) (hfree : w.Free .unlink)
    (hp : World.isdir w (dirname (x ++ '/' :: t)) = false) :
    wp (makePath (dirname (x ++ '/' :: t)) 0o755) (fun failed w₁ =>
      (failed = true → Sent depth S s r t ns (x ++ '/' :: t) w w₁ true) ∧
      (failed = false → wp (installFileInFile tools publishing depth t
        (pathConcat (dirname (x ++ '/' :: t)) (baseName t)) [])
        (fun r' w' => Sent depth S s r t ns (x ++ '/' :: t) w w' r'.1)
        (fun _ w' => Sent depth S s r t ns (x ++ '/' :: t) w w' true) w₁)) (fun _ _ => False) w := by
  have hpieces := ht.pieces_dirname_dest (x := x)
  have habs' := (isAbs_dest habs t).2
  have hne : dirname (x ++ '/' :: t) ≠ [] := dirname_ne_nil _
  generalize dirname (x ++ '/' :: t) = u at hp hpieces habs' hne ⊢
  have hstart : start w.cwd u = start w.cwd x := by simp [start, habs, habs']
  have hdown : ∀ {fs : FS} {R : Loc}, NamesDir fs w.cwd x R r →
      fs.isDir ((stem t ns).reverse ++ r) → NamesDir fs w.cwd u R ((stem t ns).reverse ++ r) :=
    fun h => h.down hne (habs'.trans habs.symm) hpieces
  obtain ⟨c, hc⟩ := exists_comps_dest ht hne
  have hcne : pathConcat u (baseName t) ≠ [] := pathConcat_ne_nil hne _
  have hcabs : isAbs (pathConcat u (baseName t)) = isAbs u := isAbs_pathConcat hne _
  have hnotdir : ¬w.fs.isDir ((stem t ns).reverse ++ r) := fun hd => by
    have := isdir_iff.mpr ⟨_, (hdown hx hd).resolve, hd⟩
    simp [hp] at this
  have hstem : stem t ns ≠ [] := fun h => hnotdir (by rw [h]; exact hx.isDir)
  refine wp_mono (makePath_trail (S := S) hp hpieces hstem (hstart ▸ hx.walk) hx.isDir 0o755)
    (fun failed w₁ h => ?_) fun _ _ h => h
  obtain ⟨htrail, hcwd⟩ := h
  cases htrail with
  | stopped hm h =>
    exact ⟨fun _ => .refused hm fun hcalm hclear =>
      hclear.not_obstructed hx.isDir (h hcalm), by simp⟩
  | @there hm q hq =>
    refine ⟨by simp, fun _ => ?_⟩
    have hleads : w.fs.Leads (start w.cwd u) (pieces u) q := by
      rw [hstart, hpieces]
      exact FS.Leads.append ⟨_, hx.walk⟩ hq
    obtain ⟨e, he, hnoent⟩ := stat_beyond hne hcne hp hcabs hc hleads
    have hcwd₁ := hcwd rfl
    have he₁ : w₁.stat false (pathConcat u (baseName t)) = .error e := by
      rw [← he, World.stat, World.stat, hm.fs, hcwd₁]
    have hrefused : w.Calm → ¬Clear w.fs r (stem t ns) := fun _ hclear =>
      hnotdir ((hclear.eq_of_leads hx.isDir (List.prefix_refl _) hq).1 ▸
        (hclear.eq_of_leads hx.isDir (List.prefix_refl _) hq).2)
    refine wp_mono (installFileInFile_refused he₁ hnoent) (fun r' w' h => ?_) fun _ w' h => ?_
    · obtain ⟨hr', rfl⟩ := h
      rw [hr']
      exact .refused hm hrefused
    · rw [h]
      exact .refused hm hrefused
  | made hns hq hd hn hg hcalm =>
    cases failed with
    | true => exact ⟨fun _ => .unfinished hns hq hd hn hg fun h => by simpa using hcalm h, by simp⟩
    | false =>
      exact ⟨by simp, fun _ => sent_of_grown ht habs hx hsrc hs hS hfree hns hq hd hn hg
        (hcwd rfl) hpieces habs' hne⟩

/-- `install -DrpP` of a target that is a directory, to a tree. -/
theorem main_publishing_sent (ht : IsTarget t ns) (habs : isAbs x = true)
    (hx : NamesDir w.fs w.cwd x R r)
    (hsrc : w.fs.resolve w.cwd (t.getLast? = some '/') t = .ok (.there s)) (hs : w.fs.isDir s)
    (hS : Above S s) (hlinks : LinksApart w.fs w.cwd t ns (x ++ '/' :: t))
    (hfree : w.Free .unlink) :
    wp (main tools publishing depth [t, x ++ '/' :: t])
      (fun failed w' => Sent depth S s r t ns (x ++ '/' :: t) w w' failed)
      (fun _ w' => Sent depth S s r t ns (x ++ '/' :: t) w w' true) w :=
  wp_main_publishing (isAbs_dest habs t).1
    (sent_of_there ht habs hx hsrc hs hS hlinks hfree)
    (sent_of_entry ht habs hx hsrc hs hS hlinks hfree)
    fun _ hp => wp_mono (sent_of_made ht habs hx hsrc hs hS hfree hp)
      (fun _ _ h => h) fun _ _ h => h.elim

end Main

end Makeroot
