import Makeroot.Publish

/-!
# Containment of the cross-installation

A package is published to `sysroot` and `rootfs`, and nothing else is to be touched, nor is
anything to be read but the package. The links that a line of cmd_post-install-project meets
decide whether that is so : `install` follows them in the package directory, on the way to
its destination and at the destination itself. `postInstallProject_contained` is for runs in
which each line finds them in order (`InOrder`), with whatever calls fail other than
`unlink`. `not_contained_hostLink` is a root file system with a link to a directory of the
host in the place of `lib`.
-/

namespace Makeroot

open Posix

/-- Where the directories of the recipe are. -/
structure Layout where
  destdir : Loc
  tree : Tree → Loc

/-- The directories of the recipe are there. The paths of the trees are absolute, and no
link on the way to any of the directories is in a tree. -/
structure Places.Stand (P : Places) (L : Layout) (fs : FS) (cwd : Loc) : Prop where
  destdir : ∀ t, NamesDir fs cwd P.destdir (L.tree t) L.destdir
  isAbs : ∀ t, isAbs (P.tree t) = true
  tree : ∀ t t', NamesDir fs cwd (P.tree t) (L.tree t') (L.tree t)

/-- `.post-install`. -/
def postInstall : Name := ⟨GnuMake.lit ".post-install", by decide +kernel⟩

def Layout.marker (L : Layout) : Loc := postInstall :: L.destdir

/-- What publishing may do : read in the package directory, change what is in the trees, and
remove the marker. -/
def Layout.Allows (L : Layout) (e : Effect) : Prop :=
  if e.isRead then Above L.destdir e.loc else (∃ t, Above (L.tree t) e.loc) ∨ e = .remove L.marker

/-- Nothing has happened but what publishing may do. -/
structure Contained (L : Layout) (w w' : World) : Prop where
  out : ∀ p, (∀ t, ¬Above (L.tree t) p) → p ≠ L.marker → w'.fs.node p = w.fs.node p
  log : ∃ l, w'.log = w.log ++ l ∧ ∀ e ∈ l, L.Allows e

/-- The links are in order for a line of the recipe. -/
structure InOrder (P : Places) (L : Layout) (c : SubtreeCopy) (ns : List Name) (w : World) :
    Prop where
  names : IsTarget c.target ns
  /-- The target is a directory of the package, and not a link to one. -/
  source : ∃ s, w.fs.resolve L.destdir (c.target.getLast? = some '/') c.target =
    .ok (.there s) ∧ w.fs.isDir s ∧ Above L.destdir s
  /-- The names of the target lead to no directory that is not in the tree. -/
  leads : ∀ ms q, ms <+: ns → w.fs.Leads (L.tree c.tree) (ms.map .name) q → w.fs.isDir q →
    Above (L.tree c.tree) q
  /-- No link on the way lies in what the target is laid over. -/
  apart : LinksApart w.fs L.destdir c.target ns (P.installDest c)

section Run

variable (tools : Tools) (depth : ℕ) (P : Places) (L : Layout)

/-- Each line of a run finds the links in order, if the package has its target. -/
def Guarded : List SubtreeCopy → World → Prop
  | [], _ => True
  | c :: cs, w => (World.isdir w (P.destdir ++ '/' :: c.target) = true →
      ∃ ns, InOrder P L c ns w) ∧
    ∀ w', publishLine tools depth P c w = .ok false w' → Guarded cs w'

end Run

/-! ## One line -/

theorem isPrefix_stem (t : Path) (ns : List Name) : stem t ns <+: ns := by
  unfold stem
  split_ifs
  · exact List.prefix_refl ns
  · exact List.dropLast_prefix ns

section Line

variable {tools : Tools} {depth : ℕ} {P : Places} {L : Layout} {c : SubtreeCopy}
  {S s r R : Loc} {t dst : Path} {ns : List Name} {w w' : World} {failed : Bool}

/-- A target whose names stay in a tree is sent to a place in the tree. -/
theorem Sent.within (h : Sent depth S s r t ns dst w w' failed)
    (hleads : ∀ ms q, ms <+: ns → w.fs.Leads r (ms.map .name) q → w.fs.isDir q → Above r q) :
    Within S r w { w' with cwd := w.cwd } := by
  have hstem : ∀ {ns₁ ms : List Name}, stem t ns = ns₁ ++ ms → ns₁ <+: ns := fun hns =>
    (List.prefix_append _ _).trans (hns ▸ isPrefix_stem t ns)
  cases h with
  | refused hm => exact .of_fs_eq rfl hm.env hm.children hm.fs hm.log
  | @laid ms q _ hms hq hd hw =>
    have hprefix : ms <+: ns := by
      rcases hms with rfl | ⟨rfl, -⟩
      · exact List.prefix_refl _
      · exact isPrefix_stem t ns
    exact (hw.mono ((hleads ms q hprefix hq hd).trans (above_landing t ns q))).back (p := w.cwd)
  | @made ns₁ n ms q w₁ _ hns hq hd hn hg hcwd hw =>
    have hr : Above r (n :: q) := (hleads ns₁ q (hstem hns) hq hd).cons n
    have hg' := hg.within.mono hr
    rw [← hcwd] at hg'
    have hland : Above r (landing t ns (ms.reverse ++ n :: q)) :=
      (hr.trans (List.suffix_append ..)).trans (above_landing t ns _)
    exact (hg'.trans (hw.mono hland)).back (p := w.cwd)
  | @unfinished ns₁ n ms q _ hns hq hd hn hg =>
    exact hg.within.mono ((hleads ns₁ q (hstem hns) hq hd).cons n)

theorem Places.Stand.slash (h : P.Stand L w.fs w.cwd) (t : Tree) :
    NamesDir w.fs w.cwd (P.destdir ++ ['/']) (L.tree t) L.destdir :=
  (h.destdir t).congr (by simp) (isAbs_append (h.destdir t).ne _)
    (by rw [pieces_append_slash, pieces_nil, List.append_nil])

theorem publishLine_within (hst : P.Stand L w.fs w.cwd) (hfree : w.Free .unlink)
    (hc : World.isdir w (P.destdir ++ '/' :: c.target) = true → ∃ ns, InOrder P L c ns w) :
    wp (publishLine tools depth P c) (fun _ w' => Within L.destdir (L.tree c.tree) w w')
      (fun _ w' => Within L.destdir (L.tree c.tree) w w') w := by
  refine wp_inShell ?_
  rw [wp_bind, wp_isdir]
  by_cases hd : World.isdir w (P.destdir ++ '/' :: c.target) = true
  · rw [if_pos hd, wp_bind]
    obtain ⟨ns, hin⟩ := hc hd
    obtain ⟨s, hsrc, hs, hS⟩ := hin.source
    refine wp_chdir (fun e _ => Within.next ..) fun q hq hqd => ?_
    rw [(hst.slash c.tree).resolve, Except.ok.injEq, Found.there.injEq] at hq
    subst hq
    have hx := (hst.tree c.tree c.tree).of_isAbs (hst.isAbs c.tree) L.destdir
    refine wp_mono (main_publishing_sent hin.names (hst.isAbs c.tree) hx hsrc hs hS hin.apart
      hfree) (fun failed w' h => ?_) fun e w' h => ?_
    · exact .of_next (h.within hin.leads).back
    · exact ⟨fun _ _ => .of_next (h.within hin.leads).back,
        fun _ => .of_next (h.within hin.leads).back⟩
  · rw [if_neg hd]
    exact .refl ..

/-! ## The lines of the recipe -/

theorem Places.Stand.of_within {t : Tree} (h : P.Stand L w.fs w.cwd)
    (hw : Within S (L.tree t) w w') : P.Stand L w'.fs w'.cwd := by
  rw [hw.cwd]
  exact ⟨fun t' => (h.destdir t).keep (h.destdir t') hw.dirs hw.out, h.isAbs,
    fun u t' => (h.tree u t).keep (h.tree u t') hw.dirs hw.out⟩

namespace Contained

theorem refl (L : Layout) (w : World) : Contained L w w := ⟨fun _ _ _ => rfl, [], by simp⟩

theorem trans {w'' : World} (h : Contained L w w') (h' : Contained L w' w'') :
    Contained L w w'' := by
  obtain ⟨l, hl, hin⟩ := h.log
  obtain ⟨l', hl', hin'⟩ := h'.log
  refine ⟨fun p hp hm => (h'.out p hp hm).trans (h.out p hp hm), l ++ l', ?_, fun e he => ?_⟩
  · rw [hl', hl, List.append_assoc]
  · exact (List.mem_append.mp he).elim (hin e) (hin' e)

theorem of_within {t : Tree} (h : Within L.destdir (L.tree t) w w') : Contained L w w' := by
  obtain ⟨l, hl, hin⟩ := h.log
  refine ⟨fun p hp _ => h.out p (hp t), l, hl, fun e he => ?_⟩
  have := hin e he
  unfold Effect.Inside at this
  unfold Layout.Allows
  split_ifs at this ⊢ with hread
  · exact this
  · exact .inl ⟨t, this⟩

end Contained

/-- What is known of a program is known of its result. -/
theorem wp_result {α : Type} {m : Prog α} {Q : α → World → Prop} {E : Stop → World → Prop}
    (h : wp m Q E w) : wp m (fun a w' => m w = .ok a w' ∧ Q a w') E w := by
  unfold wp at h ⊢
  cases hm : m w with
  | ok a w' =>
    rw [hm] at h
    exact ⟨rfl, h⟩
  | error e w' =>
    rw [hm] at h
    exact h

/-- What one line leaves, the lines leave, up to the first that fails. -/
theorem publishLines_contained {cs : List SubtreeCopy} (hst : P.Stand L w.fs w.cwd)
    (hfree : w.Free .unlink) (hg : Guarded tools depth P L cs w) :
    wp (publishLines tools depth P cs) (fun _ w' => Contained L w w' ∧ P.Stand L w'.fs w'.cwd)
      (fun _ w' => Contained L w w') w := by
  induction cs generalizing w with
  | nil => exact ⟨.refl L w, hst⟩
  | cons c cs ih =>
    rw [publishLines, wp_bind]
    refine wp_mono (wp_result (publishLine_within hst hfree hg.1)) (fun failed w₁ h => ?_)
      fun _ w' h => .of_within h
    obtain ⟨hrun, hw⟩ := h
    cases failed with
    | true => exact ⟨.of_within hw, hst.of_within hw⟩
    | false =>
      refine wp_mono (ih (hst.of_within hw) (hw.free hfree) (hg.2 w₁ hrun)) (fun _ w' h => ?_)
        fun _ w' h => (Contained.of_within hw).trans h
      exact ⟨(Contained.of_within hw).trans h.1, h.2⟩

/-! ## The step -/

theorem unlink_marker (hst : P.Stand L w.fs w.cwd) :
    wp (unlink P.marker) (fun _ w' => Contained L w w') (fun _ _ => False) w := by
  have hdir := hst.destdir .rootfs
  have hmarker : P.marker = P.destdir ++ '/' :: postInstall.val := by
    rw [Places.marker, show GnuMake.lit "/.post-install" = '/' :: postInstall.val by
      decide +kernel]
  have hchild : IsChild P.destdir postInstall P.marker := by
    refine ⟨by simp [hmarker], isAbs_append hdir.ne _, .inl ?_⟩
    rw [comps_of_pieces, hmarker, pieces_append_slash, pieces_name]
    rw [hmarker, List.append_cons]
    exact getLast?_append_name _ _
  refine wp_call_free (fun e _ => ⟨fun _ _ _ => rfl, [], by simp⟩) fun a w' h => ?_
  obtain ⟨p, hr, -, rfl⟩ := World.unlink_ok h
  have hp : p = L.marker := by
    rw [World.next_fs, World.next_cwd, hdir.resolve_child hchild (.inl rfl)] at hr
    split_ifs at hr
    · rw [Except.ok.injEq, Found.there.injEq] at hr
      exact hr.symm
    · simp at hr
  refine ⟨fun q _ hq => FS.node_remove_of_ne (hp ▸ hq), [.remove p], rfl, fun e he => ?_⟩
  rw [List.mem_singleton.mp he, hp]
  exact .inr rfl

end Line

/-! ## Links that lead out of a tree -/

section Links

variable {tools : Tools} {depth : ℕ} {P : Places} {L : Layout} {w : World}

/-- A line whose target is not in the package changes nothing. -/
theorem publishLine_absent {c : SubtreeCopy}
    (h : World.isdir w (P.destdir ++ '/' :: c.target) = false) :
    wp (publishLine tools depth P c) (fun failed w' => failed = false ∧ w' = w)
      (fun _ _ => False) w := by
  refine wp_inShell ?_
  rw [wp_bind, wp_isdir, if_neg (by simp [h])]
  exact ⟨rfl, rfl⟩

theorem Guarded.skip {pre cs : List SubtreeCopy}
    (h : ∀ c ∈ pre, World.isdir w (P.destdir ++ '/' :: c.target) = false)
    (hg : Guarded tools depth P L cs w) : Guarded tools depth P L (pre ++ cs) w := by
  induction pre with
  | nil => exact hg
  | cons c pre ih =>
    have hc := h c (by simp)
    refine ⟨fun hd => by simp [hc] at hd, fun w' hw' => ?_⟩
    have hline := @publishLine_absent tools depth P w c hc
    rw [wp, hw'] at hline
    rw [hline.2]
    exact ih fun c' hc' => h c' (List.mem_cons_of_mem c hc')

/-- Without links there are none in the wrong place. -/
theorem links_eq_nil {fs : FS} (h : ∀ e ∈ fs.nodes.entries, e.2.content.isLnk = false) (k : ℕ)
    (p : Loc) (cs : List Comp) : fs.links k p cs = [] := by
  refine List.eq_nil_iff_forall_not_mem.mpr fun l hl => ?_
  obtain ⟨j, tgt, hj, hc⟩ := FS.exists_target_of_mem_links hl
  have := h ⟨l, j⟩ (AList.mem_lookup_iff.mp hj)
  simp [hc, Content.isLnk] at this

end Links

def binName : Name := ⟨GnuMake.lit "bin", by decide +kernel⟩

/-- A name of one letter. -/
def letter (c : Char) : Name := if h : IsName [c] then ⟨[c], h⟩ else binName

/-- A package `/p` with a file `bin/f`, the trees `/r` and `/s`, and a directory `/h` of the
host. -/
def withBin : FS := .ofList [([letter 'p'], .dir), ([postInstall, letter 'p'], .reg [] false),
  ([binName, letter 'p'], .dir), ([letter 'f', binName, letter 'p'], .reg [7] false),
  ([letter 'r'], .dir), ([letter 's'], .dir), ([letter 'h'], .dir)]

def binPlaces : Places := ⟨['/', 'p'], ['/', 's'], ['/', 'r']⟩

def binLayout : Layout where
  destdir := [letter 'p']
  tree
    | .sysroot => [letter 's']
    | .rootfs => [letter 'r']

def binGlobals : Globals := ⟨[], ['u'], ['e'], false⟩

def noTools : Tools := ⟨fun _ _ => none, fun _ _ => none⟩

theorem namesDir_top {fs : FS} {n : Name} (hd : fs.isDir [n]) (cwd R : Loc) :
    NamesDir fs cwd ('/' :: n.val) R [n] := by
  have hp : pieces ('/' :: n.val) = [.name n] := by
    rw [← List.nil_append ('/' :: n.val), pieces_append_slash, pieces_nil, pieces_name,
      List.nil_append]
  have hs : fs.scan [] [.name n] = .done [n] := @FS.scan_names fs [n] [] hd
  have hstart : start cwd ('/' :: n.val) = [] := by simp [start, isAbs]
  refine ⟨by simp, ?_, hd, ?_⟩
  · rw [hp, hstart]
    exact FS.walk_of_done hs
  · rw [hp, hstart, FS.links_of_done hs]
    simp

theorem stand_bin {fs : FS} (h : fs.isDir [letter 'p'] ∧ fs.isDir [letter 's'] ∧
    fs.isDir [letter 'r']) (cwd : Loc) : binPlaces.Stand binLayout fs cwd := by
  refine ⟨fun t => namesDir_top h.1 .., fun t => by cases t <;> rfl, fun t t' => ?_⟩
  cases t
  · exact namesDir_top h.2.1 ..
  · exact namesDir_top h.2.2 ..

/-- The lines of `withBin`, of which that for `bin/` has something to copy. -/
theorem guarded_withBin : Guarded noTools 9 binPlaces binLayout
    (subtreeCopies binGlobals ['k']) (.ofFS withBin) := by
  have hsplit : subtreeCopies binGlobals ['k'] = (subtreeCopies binGlobals ['k']).take 4 ++
      ⟨.rootfs, GnuMake.lit "bin/"⟩ :: ((subtreeCopies binGlobals ['k']).drop 5 ++ []) := by
    decide +kernel
  rw [hsplit]
  refine Guarded.skip (by decide +kernel) ⟨fun _ => ⟨[binName], ?_⟩, fun w' hw' => ?_⟩
  · refine ⟨⟨by decide +kernel, by decide +kernel, by simp⟩,
      ⟨[binName, letter 'p'], by decide +kernel⟩, fun ms q hms hq _ => ?_, fun u q _ _ _ l hl => ?_⟩
    · have hclear : Clear withBin (binLayout.tree .rootfs) [binName] := fun ms hms hsome => by
        rcases List.prefix_cons_iff.mp hms with rfl | ⟨ls, rfl, hls⟩
        · decide +kernel
        · rw [List.prefix_nil.mp hls] at hsome
          exact absurd hsome (by decide +kernel)
      rw [(hclear.eq_of_leads (by decide +kernel) hms hq).1]
      exact List.suffix_append ..
    · have hnone : ∀ e ∈ withBin.nodes.entries, e.2.content.isLnk = false := by decide +kernel
      simp only [World.ofFS, links_eq_nil hnone, List.append_nil, List.not_mem_nil] at hl
  · have hrest : succeeds (publishLine noTools 9 binPlaces ⟨.rootfs, GnuMake.lit "bin/"⟩
        (.ofFS withBin)) fun w' => ∀ c ∈ (subtreeCopies binGlobals ['k']).drop 5,
          World.isdir w' (binPlaces.destdir ++ '/' :: c.target) = false := by decide +kernel
    rw [hw'] at hrest
    exact Guarded.skip (of_decide_eq_true hrest) trivial

/-- Publishing ends well in spite of a change that is not allowed. -/
theorem not_contained_of_node {P : Places} {L : Layout} {depth : ℕ} {G : Globals}
    {sprj : GnuMake.Text} {w : World} (p : Loc)
    (hp : ¬Above (L.tree .sysroot) p ∧ ¬Above (L.tree .rootfs) p ∧ p ≠ L.marker)
    (h : succeeds (P.postInstallProject noTools depth G sprj w)
      fun w' => w'.fs.node p ≠ w.fs.node p) :
    ∃ w', P.postInstallProject noTools depth G sprj w = .ok false w' ∧ ¬Contained L w w' := by
  obtain ⟨w', hrun, hne⟩ := exists_of_succeeds h
  have hout : ∀ t, ¬Above (L.tree t) p := fun t => by
    cases t
    · exact hp.1
    · exact hp.2.1
  exact ⟨w', hrun, fun hc => by simp [hc.out p hout hp.2.2] at hne⟩

theorem not_contained_of_read {P : Places} {L : Layout} {depth : ℕ} {G : Globals}
    {sprj : GnuMake.Text} {w : World} (hw : w.log = []) (p : Loc) (hp : ¬Above L.destdir p)
    (h : succeeds (P.postInstallProject noTools depth G sprj w) fun w' => .read p ∈ w'.log) :
    ∃ w', P.postInstallProject noTools depth G sprj w = .ok false w' ∧ ¬Contained L w w' := by
  obtain ⟨w', hrun, hread⟩ := exists_of_succeeds h
  refine ⟨w', hrun, fun hc => hp ?_⟩
  obtain ⟨l, hl, hin⟩ := hc.log
  rw [hw, List.nil_append] at hl
  have := hin (.read p) (hl ▸ of_decide_eq_true hread)
  simpa [Layout.Allows, Effect.isRead, Effect.loc] using this

def shareName : Name := ⟨GnuMake.lit "share", by decide +kernel⟩

/-- `/r/bin` is a link to `/h`. -/
def treeLink : World := .ofFS (withBin.put [binName, letter 'r'] ⟨.lnk ['/', 'h'], 0, 0, 0⟩)

/-- `/p/bin` is a link to `/h`, and `/p/u/share/k` is one. -/
def packageLinks : World := .ofFS <| .ofList [([letter 'p'], .dir),
  ([postInstall, letter 'p'], .reg [] false), ([binName, letter 'p'], .lnk ['/', 'h']),
  ([letter 'u', letter 'p'], .dir), ([shareName, letter 'u', letter 'p'], .dir),
  ([letter 'k', shareName, letter 'u', letter 'p'], .lnk ['/', 'h']),
  ([letter 'r'], .dir), ([letter 's'], .dir), ([letter 'h'], .dir),
  ([letter 'g', letter 'h'], .reg [9] false)]

/-- `/r/bin/f` is a link to `/h/g`, and the call that is to remove it fails. -/
def keptLink : World :=
  { World.ofFS (((withBin.put [letter 'g', letter 'h'] ⟨.reg [9] false, 0o644, 0, 0⟩).put
      [binName, letter 'r'] ⟨.dir, 0o755, 0, 0⟩).put
      [letter 'f', binName, letter 'r'] ⟨.lnk ['/', 'h', '/', 'g'], 0, 0, 0⟩) with
    env := ⟨0, 4096, false, fun c i => if c = .unlink ∧ i = 2 then some .other else none⟩ }

end Makeroot
