import Makeroot.Containment

/-!
# Publishing as an overlay

What a package has under the targets of cmd_post-install-project is to be found in the trees
afterwards, and nothing else there is to have changed. A line of the recipe does this for its
target (`publishLine_overlay`) : the directories on the way are there or are made, and
`install` lays the one directory over the other. `publishLines_published` goes through the
lines, each of which finds what those before it have left.

A target with no slash at its end is another matter if it is a directory in the tree already :
then it goes into that directory (`not_published_secondTime`).
-/

namespace Makeroot

open Posix

/-! ## Targets and trees -/

def nameOf : Comp → Option Name
  | .name n => some n
  | _ => none

/-- The names of a target. -/
def SubtreeCopy.names (c : SubtreeCopy) : List Name := (pieces c.target).filterMap nameOf

/-- Where a target is in the package. -/
def Layout.source (L : Layout) (c : SubtreeCopy) : Loc := c.names.reverse ++ L.destdir

/-- Where a target belongs in its tree. -/
def Layout.dest (L : Layout) (c : SubtreeCopy) : Loc := c.names.reverse ++ L.tree c.tree

/-- The package and the trees have nothing in common. -/
structure Layout.Apart (L : Layout) : Prop where
  not_above : ∀ t, ¬Above L.destdir (L.tree t)
  not_below : ∀ t, ¬Above (L.tree t) L.destdir
  trees : ∀ t t', t ≠ t' → ¬Above (L.tree t) (L.tree t')

/-! ## One target -/

section Target

variable {depth : ℕ} {D r : Loc} {t dst : Path} {ns : List Name} {w w' : World} {failed : Bool}

theorem layable_target (hDr : ¬Above D r) (hrD : ¬Above r D) (hcalm : w.Calm)
    (hs : w.fs.isDir (ns.reverse ++ D))
    (hkinds : ∀ rel k, w.fs.node (rel ++ (ns.reverse ++ D)) = some k →
      w.fs.isDir (rel ++ (ns.reverse ++ r)) → k.isDir)
    (hdepth : ∀ rel, (w.fs.node (rel ++ D)).isSome → rel.length < depth) :
    Layable depth [] [] (ns.reverse ++ D) (ns.reverse ++ r) w where
  calm := hcalm
  node := by
    obtain ⟨k, hk, -⟩ := w.fs.isDir_iff.mp hs
    simp [hk]
  not_above h := not_above_of_apart hrD hDr (List.suffix_append ..)
    (Above.trans (List.suffix_append ..) h)
  not_below h := not_above_of_apart hDr hrD (List.suffix_append ..)
    (Above.trans (List.suffix_append ..) h)
  kinds := hkinds
  depth rel hrel := by
    have := hdepth (rel ++ ns.reverse) (by rwa [List.append_assoc])
    rw [List.length_append] at this
    omega
  unseen := fun _ _ => rfl
  ancestors := by simp

/-- What is in the package and what is in the tree are of the same kind. -/
def SameKinds (fs : FS) (D r : Loc) : Prop :=
  ∀ rel k j, fs.node (rel ++ D) = some k → fs.node (rel ++ r) = some j → k.isDir = j.isDir

/-- On the way to a target there are directories, if anything. -/
theorem SameKinds.clear (h : SameKinds w.fs D r) (hs : w.fs.isDir (ns.reverse ++ D)) :
    Clear w.fs r ns := by
  intro ms hms hsome
  obtain ⟨j, hj⟩ := Option.isSome_iff_exists.mp hsome
  obtain ⟨k, hk, hkd⟩ := w.fs.isDir_iff.mp hs
  obtain ⟨ls, rfl⟩ := hms
  have habove : Above (ms.reverse ++ D) ((ms ++ ls).reverse ++ D) := by
    rw [List.reverse_append, List.append_assoc]
    exact List.suffix_append ..
  have hd : w.fs.isDir (ms.reverse ++ D) := by
    rcases FS.isDir_of_above hk habove with heq | hd
    · rw [heq]
      exact hs
    · exact hd
  obtain ⟨i, hi, hid⟩ := w.fs.isDir_iff.mp hd
  exact w.fs.isDir_iff.mpr ⟨j, hj, (h ms.reverse i j hi hj).symm.trans hid⟩

/-- A target has been laid over its place in the tree, and missing directories on the way have
been made. -/
structure TargetLaid (D r : Loc) (ns : List Name) (fs fs' : FS) : Prop where
  overlaid : Overlaid (ns.reverse ++ D) (ns.reverse ++ r) fs fs'
  out : ∀ p, ¬Above (ns.reverse ++ r) p → fs'.node p = fs.node p ∨
    fs.node p = none ∧ fs'.isDir p ∧ Above p (ns.reverse ++ r)

theorem Sent.targetLaid (h : Sent depth D (ns.reverse ++ D) r t ns dst w w' failed)
    (hDr : ¬Above D r) (hrD : ¬Above r D) (hcalm : w.Calm) (hr : w.fs.isDir r)
    (hs : w.fs.isDir (ns.reverse ++ D)) (hkinds : SameKinds w.fs D r)
    (hdepth : ∀ rel, (w.fs.node (rel ++ D)).isSome → rel.length < depth)
    (hfree : t.getLast? ≠ some '/' → w.fs.isDir (ns.reverse ++ r) = false) :
    failed = false ∧ TargetLaid D r ns w.fs w'.fs := by
  have hclear := hkinds.clear hs
  have hstem : Clear w.fs r (stem t ns) := hclear.of_prefix (isPrefix_stem t ns)
  cases h with
  | refused hm h => exact absurd hstem (h hcalm)
  | unfinished hns hq hd hn hg h => exact absurd hstem (h hcalm)
  | @laid ms q _ hms hq hd hw h =>
    have hland : landing t ns q = ns.reverse ++ r := by
      rcases hms with rfl | ⟨rfl, -, -⟩
      · obtain ⟨rfl, -⟩ := hclear.eq_of_leads hr (List.prefix_refl _) hq
        by_cases hslash : t.getLast? = some '/'
        · rw [landing, if_pos hslash]
        · simp [hfree hslash] at hd
      · obtain ⟨rfl, -⟩ := hclear.eq_of_leads hr (isPrefix_stem t ns) hq
        exact landing_stem t ns r
    rw [hland] at hw h
    have hlay := h (layable_target hDr hrD hcalm hs (fun rel k hk hd => ?_) hdepth)
    · exact ⟨hlay.1, hlay.2, fun p hp => .inl (hw.out p hp)⟩
    · obtain ⟨j, hj, hjd⟩ := w.fs.isDir_iff.mp hd
      rw [← List.append_assoc] at hk hj
      exact (hkinds _ k j hk hj).trans hjd
  | @made ns₁ n ms q w₁ _ hns hq hd hn hg hcwd hw h =>
    obtain ⟨rfl, -⟩ := hstem.eq_of_leads hr ⟨n :: ms, hns.symm⟩ hq
    have hlast : ms.reverse ++ n :: (ns₁.reverse ++ r) = (stem t ns).reverse ++ r := by
      simp [hns]
    rw [hlast, landing_stem] at hw h
    have hdir : ∀ rel, w₁.fs.node (rel ++ D) = w.fs.node (rel ++ D) := fun rel =>
      hg.within.out _ fun ha => not_above_of_apart hDr hrD (List.suffix_append ..)
        (Above.trans ((List.suffix_append ..).trans (List.suffix_cons ..)) ha)
    -- what is new is on the way to the target
    have hnew : ∀ p k, w.fs.node p = none → w₁.fs.node p = some k →
        k.isDir ∧ Above p ((stem t ns).reverse ++ r) := fun p k hp hk => by
      rw [← hlast]
      simpa using hg.new p k hp hk
    have habove : Above ((stem t ns).reverse ++ r) (ns.reverse ++ r) :=
      landing_stem t ns r ▸ above_landing t ns _
    have hnil : ∀ rel, Above (rel ++ (ns.reverse ++ r)) ((stem t ns).reverse ++ r) → rel = [] :=
      fun rel ha => by
        have := (ha.trans habove).length_le
        rw [List.length_append] at this
        exact List.length_eq_zero_iff.mp (by omega)
    have hs₁ := hg.ext.isDir hs
    have hlay := h (layable_target hDr hrD (hg.within.calm hcalm) hs₁ (fun rel k hk hd => ?_)
      fun rel => hdir rel ▸ hdepth rel)
    · obtain ⟨hfailed, hover⟩ := hlay
      refine ⟨hfailed, ⟨fun rel k hk => hover.copied rel k ?_, fun rel hrel => ?_⟩, fun p hp => ?_⟩
      · rw [← List.append_assoc, hdir, List.append_assoc, hk]
      · have hrel₁ : w₁.fs.node (rel ++ (ns.reverse ++ D)) = none := by
          rw [← List.append_assoc, hdir, List.append_assoc, hrel]
        rw [hover.kept rel hrel₁]
        cases hj : w.fs.node (rel ++ (ns.reverse ++ r)) with
        | some j => exact hg.ext _ j hj
        | none =>
          by_contra hne
          obtain ⟨k, hk⟩ := Option.ne_none_iff_exists'.mp hne
          obtain rfl := hnil rel (hnew _ k hj hk).2
          have := FS.isDir_of_absent hrel
          simp [hs] at this
      · rw [hw.out p hp, isDir_congr (hw.out p hp)]
        cases hj : w.fs.node p with
        | some j => exact .inl (hg.ext p j hj)
        | none =>
          cases hk : w₁.fs.node p with
          | none => exact .inl rfl
          | some k =>
            obtain ⟨hkd, hp'⟩ := hnew p k hj hk
            exact .inr ⟨rfl, (FS.isDir_of_node hk).trans hkd, hp'.trans habove⟩
    · rw [← List.append_assoc, hdir, List.append_assoc] at hk
      obtain ⟨j, hj, hjd⟩ := w₁.fs.isDir_iff.mp hd
      cases hi : w.fs.node (rel ++ (ns.reverse ++ r)) with
      | some i =>
        rw [hg.ext _ i hi, Option.some.injEq] at hj
        rw [← List.append_assoc] at hk hi
        exact (hkinds _ k i hk hi).trans (hj ▸ hjd)
      | none =>
        obtain rfl := hnil rel (hnew _ j hi hj).2
        exact (FS.isDir_of_node hk).symm.trans hs

end Target

/-! ## One line -/

/-- What a line has done. -/
structure LineDone (L : Layout) (c : SubtreeCopy) (w w' : World) : Prop where
  within : Within L.destdir (L.tree c.tree) w w'
  laid : w.fs.isDir (L.source c) → TargetLaid L.destdir (L.tree c.tree) c.names w.fs w'.fs
  same : w.fs.isDir (L.source c) = false → w'.fs = w.fs

section Line

variable {tools : Tools} {depth : ℕ} {P : Places} {L : Layout} {c : SubtreeCopy} {w : World}

/-- A target is found in the package if it is a directory there. -/
theorem isdir_target (hst : P.Stand L w.fs w.cwd) (ht : IsTarget c.target c.names)
    (hlinks : Unlinked w.fs L.destdir c.names) :
    World.isdir w (P.destdir ++ '/' :: c.target) = w.fs.isDir (L.source c) := by
  have hdest := hst.destdir c.tree
  have habs : isAbs (P.destdir ++ '/' :: c.target) = isAbs P.destdir := isAbs_append hdest.ne _
  refine Bool.eq_iff_iff.mpr ⟨fun h => ?_, fun h => ?_⟩
  · obtain ⟨p, hp, hpd⟩ := isdir_iff.mp h
    have hleads := FS.leads_of_resolve hp
    rw [start, habs, ← start, ht.pieces_dest] at hleads
    have heq := hlinks.eq_of_leads (List.prefix_refl _)
      (FS.Leads.of_append ⟨_, hdest.walk⟩ hleads)
    rw [heq] at hpd
    exact hpd
  · exact isdir_iff.mpr ⟨_, (hdest.down (by simp) habs ht.pieces_dest h).resolve, h⟩

/-- From the package directory a target names its place. -/
theorem resolve_target {fs : FS} {D : Loc} {t : Path} {ns : List Name} (ht : IsTarget t ns)
    (hs : fs.isDir (ns.reverse ++ D)) (follow : Bool) :
    fs.resolve D follow t = .ok (.there (ns.reverse ++ D)) := by
  have hstart : start D t = D := by simp [start, ht.isAbs]
  rw [FS.resolve, if_neg ht.ne_nil, hstart]
  refine FS.walk_of_done ?_
  rw [comps, ht.pieces, FS.scan_append, FS.scan_names hs]
  split_ifs
  · simp [FS.scan, hs]
  · rfl

/-- There is no link on the way of a target. -/
theorem links_way {fs : FS} {D : Loc} {t : Path} {ns : List Name} (ht : IsTarget t ns)
    (hs : fs.isDir (ns.reverse ++ D)) (k : ℕ) : fs.links k (start D (way t)) (pieces (way t)) = [] := by
  unfold way
  split_ifs with hslash
  · rw [start, ht.isAbs, if_neg (by simp), ht.pieces]
    exact FS.links_of_done (FS.scan_names hs)
  · obtain ⟨ns₁, n, rfl, hb⟩ := ht.exists_baseName hslash
    have hchild := isChild_dirname hb
    have habs : isAbs (dirname t) = false := hchild.isAbs.symm.trans ht.isAbs
    have hs' : fs.isDir (n :: (ns₁.reverse ++ D)) := by simpa using hs
    obtain ⟨j, hj, -⟩ := fs.isDir_iff.mp hs'
    have hp := FS.isDir_parent hj
    rw [start, habs, if_neg (by simp)]
    rcases hchild.comps with hc | ⟨hc, hn⟩
    · have hpieces : pieces (dirname t) = ns₁.map .name := by
        have := hchild.pieces.trans hc
        rw [ht.pieces, List.map_append, List.map_singleton] at this
        exact (List.append_cancel_right this).symm
      rw [hpieces]
      exact FS.links_of_done (FS.scan_names hp)
    · have hnil : ns₁ = [] := by
        have := hchild.pieces.trans hn
        rw [ht.pieces, List.map_append, List.map_singleton] at this
        simpa using this
      subst hnil
      rw [hc]
      exact FS.links_of_done (q := D) (by simpa [FS.scan] using hp)

/-- The links on the way to a tree are not in it, and there are none from there on. -/
theorem linksApart_target {t x : Path} {ns : List Name} {r : Loc} (ht : IsTarget t ns)
    (habs : isAbs x = true) (hx : NamesDir w.fs w.cwd x r r)
    (hs : w.fs.isDir (ns.reverse ++ w.cwd)) (hclear : Clear w.fs r ns) :
    LinksApart w.fs w.cwd t ns (x ++ '/' :: t) := by
  have hpath : ∀ {u q ms}, u ≠ [] → isAbs u = true → pieces u = pieces x ++ ms.map .name →
      ms <+: ns → w.fs.resolve w.cwd true u = .ok (.there q) →
      ∀ l ∈ w.fs.links FS.maxLinks (start w.cwd u) (pieces u), ¬Above (landing t ns q) l := by
    intro u q ms hne hu hp hms hq l hl habove
    have hleads := leads_of_resolve_tree habs hx hu hp hq
    obtain ⟨rfl, hqd⟩ := hclear.eq_of_leads hx.isDir hms hleads
    exact (hx.down hne (hu.trans habs.symm) hp hqd).links l hl
      (((List.suffix_append ..).trans (above_landing t ns _)).trans habove)
  intro u q hu hq _ l hl
  rw [links_way ht hs, List.append_nil] at hl
  rcases hu with rfl | rfl
  · exact hpath (by simp) (isAbs_dest habs t).1 ht.pieces_dest (List.prefix_refl _) hq l hl
  · exact hpath (dirname_ne_nil _) (isAbs_dest habs t).2 ht.pieces_dirname_dest
      (isPrefix_stem t ns) hq l hl

/-- A line lays its target over its place in the tree, if the package has it. -/
theorem publishLine_overlay (hst : P.Stand L w.fs w.cwd) (hL : L.Apart) (hcalm : w.Calm)
    (hkinds : SameKinds w.fs L.destdir (L.tree c.tree))
    (hdepth : ∀ rel, (w.fs.node (rel ++ L.destdir)).isSome → rel.length < depth)
    (ht : IsTarget c.target c.names) (hlinks : Unlinked w.fs L.destdir c.names)
    (hfree : c.target.getLast? ≠ some '/' → w.fs.isDir (L.source c) →
      w.fs.isDir (L.dest c) = false) :
    wp (publishLine tools depth P c) (fun failed w' => failed = false ∧ LineDone L c w w')
      (fun _ _ => False) w := by
  refine wp_inShell ?_
  rw [wp_bind, wp_isdir, isdir_target hst ht hlinks]
  by_cases hs : w.fs.isDir (L.source c) = true
  · rw [if_pos hs, wp_bind]
    have hslash := hst.slash c.tree
    obtain ⟨k, hk, hkd⟩ := w.fs.isDir_iff.mp hslash.isDir
    have hcd : w.next.chdir (P.destdir ++ ['/']) = .ok ((), { w.next with cwd := L.destdir }) := by
      rw [World.chdir, World.next_stat, World.stat_of_there hslash.resolve hk]
      simp [hkd]
    refine wp_call_ok (hcalm .chdir) hcd ?_
    have hx := (hst.tree c.tree c.tree).of_isAbs (hst.isAbs c.tree) L.destdir
    have hclear := hkinds.clear hs
    have hsent := @main_publishing_sent tools depth L.destdir (L.tree c.tree) (L.source c)
      (L.tree c.tree) (P.tree c.tree) c.target c.names { w.next with cwd := L.destdir } ht
      (hst.isAbs c.tree) hx (resolve_target ht hs _) hs (List.suffix_append ..)
      (linksApart_target ht (hst.isAbs c.tree) hx hs hclear) (hcalm .unlink)
    have hdone : ∀ {failed w'}, Sent depth L.destdir (L.source c) (L.tree c.tree) c.target c.names
        (P.installDest c) { w.next with cwd := L.destdir } w' failed →
        failed = false ∧ LineDone L c w { w' with cwd := w.cwd } := by
      intro failed w' h
      have hlaid := h.targetLaid (hL.not_above c.tree) (hL.not_below c.tree) hcalm hx.isDir hs
        hkinds hdepth (fun hne => hfree hne hs)
      refine ⟨hlaid.1, .of_next (h.within fun ms q hms hq _ => ?_).back, fun _ => hlaid.2,
        fun hs' => by simp [hs] at hs'⟩
      rw [(hclear.eq_of_leads hx.isDir hms hq).1]
      exact List.suffix_append ..
    refine wp_mono hsent (fun failed w' h => hdone h) fun e w' h => ?_
    simpa using (hdone h).1
  · rw [if_neg hs]
    exact ⟨rfl, .refl .., fun hs' => absurd hs' hs, fun _ => rfl⟩

end Line

/-! ## The lines of the recipe -/

/-- What the package has under the targets of the lines is in the trees, and everything else
there is as it was, but for missing directories on the way to a target. -/
structure Published (L : Layout) (cs : List SubtreeCopy) (fs fs' : FS) : Prop where
  copied : ∀ c ∈ cs, fs.isDir (L.source c) → ∀ r k, fs.node (r ++ L.source c) = some k →
    ∃ j, fs'.node (r ++ L.dest c) = some j ∧ j.content.data = k.content.data
  kept : ∀ t r, (∀ c ∈ cs, c.tree = t → fs.isDir (L.source c) → Above c.names.reverse r →
      fs.node (r ++ L.destdir) = none) →
    fs'.node (r ++ L.tree t) = fs.node (r ++ L.tree t) ∨
      fs.node (r ++ L.tree t) = none ∧ fs'.isDir (r ++ L.tree t) ∧
        ∃ c ∈ cs, c.tree = t ∧ fs.isDir (L.source c) ∧ Above r c.names.reverse

/-- The package is as it was. -/
def SamePackage (L : Layout) (fs fs' : FS) : Prop :=
  ∀ r, fs'.node (r ++ L.destdir) = fs.node (r ++ L.destdir)

theorem above_append_iff {p q a : Loc} : Above (p ++ a) (q ++ a) ↔ Above p q := by
  constructor
  · rintro ⟨r, hr⟩
    exact ⟨r, List.append_cancel_right ((List.append_assoc ..).trans hr)⟩
  · rintro ⟨r, rfl⟩
    exact ⟨r, (List.append_assoc ..).symm⟩

namespace SamePackage

variable {L : Layout} {c : SubtreeCopy} {fs fs' : FS}

theorem node_source (h : SamePackage L fs fs') (r : Loc) (c : SubtreeCopy) :
    fs'.node (r ++ L.source c) = fs.node (r ++ L.source c) := by
  rw [Layout.source, ← List.append_assoc, h]

theorem isDir_source (h : SamePackage L fs fs') (c : SubtreeCopy) :
    fs'.isDir (L.source c) = fs.isDir (L.source c) :=
  isDir_congr (h c.names.reverse)

end SamePackage

namespace Published

variable {L : Layout} {c : SubtreeCopy} {cs : List SubtreeCopy} {fs : FS} {w w' : World}

theorem nil (L : Layout) (fs : FS) : Published L [] fs fs :=
  ⟨by simp, fun _ _ _ => .inl rfl⟩

theorem samePackage (hL : L.Apart) (hpkg : SamePackage L fs w.fs) (hdone : LineDone L c w w') :
    SamePackage L fs w'.fs := fun r => by
  rw [hdone.within.out, hpkg]
  exact not_above_of_apart (hL.not_above c.tree) (hL.not_below c.tree) (List.suffix_append ..)

/-- A place in the tree is below a target, or it is not. -/
theorem exists_of_above_dest {r : Loc} (h : Above (L.dest c) (r ++ L.tree c.tree)) :
    ∃ x, r = x ++ c.names.reverse :=
  (above_append_iff.mp h).imp fun _ h => h.symm

theorem copied_step (h : Published L cs fs w.fs) (hL : L.Apart) (hpkg : SamePackage L fs w.fs)
    (hdone : LineDone L c w w') {c' : SubtreeCopy} (hc' : c' ∈ cs ++ [c])
    (hs : fs.isDir (L.source c')) {r : Loc} {k : Node} (hk : fs.node (r ++ L.source c') = some k) :
    ∃ j, w'.fs.node (r ++ L.dest c') = some j ∧ j.content.data = k.content.data := by
  have hk' : w.fs.node (r ++ L.source c') = some k := by rw [hpkg.node_source, hk]
  rcases List.mem_append.mp hc' with hc' | hc'
  · obtain ⟨j, hj, hjk⟩ := h.copied c' hc' hs r k hk
    by_cases hsame : w'.fs.node (r ++ L.dest c') = w.fs.node (r ++ L.dest c')
    · exact ⟨j, by rw [hsame, hj], hjk⟩
    · have hdir : w.fs.isDir (L.source c) := by
        by_contra hd
        exact hsame (by rw [hdone.same (by simpa using hd)])
      have htree : c'.tree = c.tree := by
        by_contra ht
        exact hsame (hdone.within.out _ (not_above_of_apart (hL.trees _ _ ht)
          (hL.trees _ _ (Ne.symm ht)) ((List.suffix_append ..).trans (List.suffix_append ..))))
      have hlaid := hdone.laid hdir
      rw [Layout.dest, htree, ← List.append_assoc] at hj hsame ⊢
      by_cases habove : Above (L.dest c) (r ++ c'.names.reverse ++ L.tree c.tree)
      · -- the line has the same object to copy
        obtain ⟨x, hx⟩ := exists_of_above_dest habove
        rw [Layout.source, ← List.append_assoc, hx, List.append_assoc] at hk'
        rw [hx, List.append_assoc]
        exact hlaid.overlaid.copied x k hk'
      · rcases hlaid.out _ habove with heq | ⟨hnone, -⟩
        · exact absurd heq hsame
        · exact absurd (hnone.symm.trans hj) (by simp)
  · obtain rfl := List.mem_singleton.mp hc'
    exact (hdone.laid ((hpkg.isDir_source c').trans hs)).overlaid.copied r k hk'

theorem kept_step (h : Published L cs fs w.fs) (hL : L.Apart) (hpkg : SamePackage L fs w.fs)
    (hdone : LineDone L c w w') {t : Tree} {r : Loc}
    (hr : ∀ c' ∈ cs ++ [c], c'.tree = t → fs.isDir (L.source c') → Above c'.names.reverse r →
      fs.node (r ++ L.destdir) = none) :
    w'.fs.node (r ++ L.tree t) = fs.node (r ++ L.tree t) ∨
      fs.node (r ++ L.tree t) = none ∧ w'.fs.isDir (r ++ L.tree t) ∧
        ∃ c' ∈ cs ++ [c], c'.tree = t ∧ fs.isDir (L.source c') ∧ Above r c'.names.reverse := by
  have hbefore := h.kept t r fun c' hc' => hr c' (List.mem_append_left _ hc')
  by_cases hsame : w'.fs.node (r ++ L.tree t) = w.fs.node (r ++ L.tree t)
  · rw [hsame, isDir_congr hsame]
    exact hbefore.imp_right fun ⟨hn, hd, c', hc', hin⟩ =>
      ⟨hn, hd, c', List.mem_append_left _ hc', hin⟩
  · have hdir : w.fs.isDir (L.source c) := by
      by_contra hd
      exact hsame (by rw [hdone.same (by simpa using hd)])
    have hdir₀ : fs.isDir (L.source c) := (hpkg.isDir_source c).symm.trans hdir
    have htree : t = c.tree := by
      by_contra ht
      exact hsame (hdone.within.out _ (not_above_of_apart (hL.trees _ _ ht)
        (hL.trees _ _ (Ne.symm ht)) (List.suffix_append ..)))
    subst htree
    have hlaid := hdone.laid hdir
    by_cases habove : Above (L.dest c) (r ++ L.tree c.tree)
    · obtain ⟨x, rfl⟩ := exists_of_above_dest habove
      have hnone := hr c (by simp) rfl hdir₀ (List.suffix_append ..)
      rw [← hpkg, List.append_assoc] at hnone
      have := hlaid.overlaid.kept x hnone
      rw [← List.append_assoc] at this
      exact absurd this hsame
    · rcases hlaid.out _ habove with heq | ⟨hnone, hd, hp⟩
      · exact absurd heq hsame
      · refine .inr ⟨?_, hd, c, by simp, rfl, hdir₀, above_append_iff.mp hp⟩
        rcases hbefore with heq | ⟨-, hd', -⟩
        · rw [← heq, hnone]
        · simp [FS.isDir_of_absent hnone] at hd'

theorem step (h : Published L cs fs w.fs) (hL : L.Apart) (hpkg : SamePackage L fs w.fs)
    (hdone : LineDone L c w w') : Published L (cs ++ [c]) fs w'.fs :=
  ⟨fun _ hc' hs _ _ hk => h.copied_step hL hpkg hdone hc' hs hk,
    fun _ _ hr => h.kept_step hL hpkg hdone hr⟩

end Published

/-! ## The step -/

/-- What is asked of a package and the trees : no call fails without need, the directories are
apart, the recursion is deep enough for the package, nothing is a directory on one side and
something else on the other, and targets are paths of names. -/
structure Publishable (depth : ℕ) (P : Places) (L : Layout) (cs : List SubtreeCopy) (w : World) :
    Prop where
  stand : P.Stand L w.fs w.cwd
  apart : L.Apart
  calm : w.Calm
  depth : ∀ r, (w.fs.node (r ++ L.destdir)).isSome → r.length < depth
  kinds : ∀ t, SameKinds w.fs L.destdir (L.tree t)
  names : ∀ c ∈ cs, IsTarget c.target c.names

/-- No component of a target is a link in the package ; and a target with no slash at its end
that the package has is no directory in its tree, nor does it become one by an earlier line. -/
structure Unhindered (L : Layout) (cs : List SubtreeCopy) (fs : FS) : Prop where
  unlinked : ∀ c ∈ cs, Unlinked fs L.destdir c.names
  free : ∀ pre c post, cs = pre ++ c :: post → c.target.getLast? ≠ some '/' →
    fs.isDir (L.source c) → fs.isDir (L.dest c) = false ∧ ∀ c' ∈ pre, c'.tree = c.tree →
      fs.isDir (L.source c') → ¬c'.names <+: c.names ∧ ¬c.names <+: c'.names

namespace Published

variable {tools : Tools} {depth : ℕ} {P : Places} {L : Layout} {c : SubtreeCopy}
  {cs : List SubtreeCopy} {fs : FS} {w : World}

/-- What has been published is of the kinds of the package. -/
theorem sameKinds (h : Published L cs fs w.fs) (hpkg : SamePackage L fs w.fs) {t : Tree}
    (hkinds : SameKinds fs L.destdir (L.tree t)) : SameKinds w.fs L.destdir (L.tree t) := by
  intro r k j hk hj
  rw [hpkg] at hk
  by_cases hc : ∃ c ∈ cs, c.tree = t ∧ fs.isDir (L.source c) ∧ Above c.names.reverse r
  · obtain ⟨c, hc, rfl, hs, x, rfl⟩ := hc
    rw [List.append_assoc] at hk hj
    obtain ⟨j', hj', hdata⟩ := h.copied c hc hs x k hk
    obtain rfl := Option.some.inj (hj.symm.trans hj')
    rw [Node.isDir, Node.isDir]
    cases hkc : k.content <;> cases hjc : j.content <;> simp_all [Content.data]
  · rcases h.kept t r fun c hc' ht hs habove => absurd ⟨c, hc', ht, hs, habove⟩ hc with
      heq | ⟨-, hd, c, hc', rfl, hs, habove⟩
    · exact hkinds r k j hk (heq ▸ hj)
    · obtain ⟨i, hi, -⟩ := fs.isDir_iff.mp hs
      rw [← FS.isDir_of_node hj, hd, ← FS.isDir_of_node hk]
      rcases FS.isDir_of_above hi (above_append_iff.mpr habove) with heq | hd'
      · rw [heq]
        exact hs
      · exact hd'

/-- A target that is to be no directory in its tree is none when its line comes. -/
theorem dest_free (h : Published L cs fs w.fs) (hd : fs.isDir (L.dest c) = false)
    (hcs : ∀ c' ∈ cs, c'.tree = c.tree → fs.isDir (L.source c') →
      ¬c'.names <+: c.names ∧ ¬c.names <+: c'.names) : w.fs.isDir (L.dest c) = false := by
  rcases h.kept c.tree c.names.reverse fun c' hc' ht hs habove =>
      absurd (List.reverse_suffix.mp habove) (hcs c' hc' ht hs).1 with
    heq | ⟨-, -, c', hc', ht, hs, habove⟩
  · exact (isDir_congr heq).trans hd
  · exact absurd (List.reverse_suffix.mp habove) (hcs c' hc' ht hs).2

theorem lines {done : List SubtreeCopy} (h : Published L done fs w.fs)
    (hpkg : SamePackage L fs w.fs) (hst : P.Stand L w.fs w.cwd) (hL : L.Apart) (hcalm : w.Calm)
    (hdepth : ∀ r, (fs.node (r ++ L.destdir)).isSome → r.length < depth)
    (hkinds : ∀ t, SameKinds fs L.destdir (L.tree t))
    (hnames : ∀ c ∈ cs, IsTarget c.target c.names) (hfree : Unhindered L (done ++ cs) fs) :
    wp (publishLines tools depth P cs)
      (fun failed w' => failed = false ∧ Published L (done ++ cs) fs w'.fs)
      (fun _ _ => False) w := by
  induction cs generalizing done w with
  | nil => exact ⟨rfl, by rwa [List.append_nil]⟩
  | cons c cs ih =>
    have hlinks : Unlinked w.fs L.destdir c.names := fun ms hms k hk =>
      hfree.unlinked c (by simp) ms hms k (hpkg ms.reverse ▸ hk)
    have hdest : c.target.getLast? ≠ some '/' → w.fs.isDir (L.source c) →
        w.fs.isDir (L.dest c) = false := fun hslash hs => by
      obtain ⟨hd, hdone⟩ := hfree.free done c cs rfl hslash ((hpkg.isDir_source c).symm.trans hs)
      exact h.dest_free hd hdone
    rw [publishLines, wp_bind]
    refine wp_mono (publishLine_overlay hst hL hcalm (h.sameKinds hpkg (hkinds c.tree))
      (fun r hr => hdepth r (hpkg r ▸ hr)) (hnames c (by simp)) hlinks hdest)
      (fun failed w₁ hw => ?_) fun _ _ hw => hw
    obtain ⟨rfl, hdone⟩ := hw
    have hnext := ih (h.step hL hpkg hdone) (samePackage hL hpkg hdone)
      (hst.of_within hdone.within) (hdone.within.calm hcalm)
      (fun c' hc' => hnames c' (List.mem_cons_of_mem c hc')) (by simpa using hfree)
    simpa using hnext

end Published

section Locale

def localeName : Name := ⟨GnuMake.lit "locale", by decide +kernel⟩

/-- A package `/p` with a file `u/share/locale/f`, and the trees `/r` and `/s`. -/
def localePackage : List (Loc × Content) := [([letter 'p'], .dir), ([letter 'u', letter 'p'], .dir),
  ([shareName, letter 'u', letter 'p'], .dir),
  ([localeName, shareName, letter 'u', letter 'p'], .dir),
  ([letter 'f', localeName, shareName, letter 'u', letter 'p'], .reg [7] false),
  ([letter 'r'], .dir), ([letter 's'], .dir)]

/-- Nothing has been published yet. -/
def firstTime : World := .ofFS (.ofList localePackage)

/-- Another package has brought a `u/share/locale`. -/
def secondTime : World := .ofFS (.ofList (localePackage ++ [([letter 'u', letter 'r'], .dir),
  ([shareName, letter 'u', letter 'r'], .dir),
  ([localeName, shareName, letter 'u', letter 'r'], .dir)]))

theorem apart_bin : binLayout.Apart := by
  refine ⟨fun t => ?_, fun t => ?_, fun t t' h => ?_⟩
  · cases t <;> decide +kernel
  · cases t <;> decide +kernel
  · cases t <;> cases t' <;> first | exact absurd rfl h | decide +kernel

/-- The kinds of a small file system. -/
theorem sameKinds_of_entries {fs : FS} {D r : Loc}
    (h : ∀ e ∈ fs.nodes.entries, ∀ e' ∈ fs.nodes.entries,
      e.1.take (e.1.length - D.length) = e'.1.take (e'.1.length - r.length) →
      Above D e.1 → Above r e'.1 → e.2.isDir = e'.2.isDir) : SameKinds fs D r := by
  intro rel k j hk hj
  exact h ⟨_, k⟩ (AList.mem_lookup_iff.mp hk) ⟨_, j⟩ (AList.mem_lookup_iff.mp hj) (by simp)
    (List.suffix_append ..) (List.suffix_append ..)

theorem publishable_locale {fs : FS} (h : fs.isDir [letter 'p'] ∧ fs.isDir [letter 's'] ∧
      fs.isDir [letter 'r']) (hdepth : fs.depth < 9)
    (hkinds : ∀ n ∈ [letter 's', letter 'r'], ∀ e ∈ fs.nodes.entries, ∀ e' ∈ fs.nodes.entries,
      e.1.take (e.1.length - 1) = e'.1.take (e'.1.length - 1) →
      Above [letter 'p'] e.1 → Above [n] e'.1 → e.2.isDir = e'.2.isDir) :
    Publishable 9 binPlaces binLayout (subtreeCopies binGlobals ['k']) (.ofFS fs) where
  stand := stand_bin h []
  apart := apart_bin
  calm _ _ := rfl
  depth r hr := by
    obtain ⟨k, hk⟩ := Option.isSome_iff_exists.mp hr
    have := fs.length_le_depth hk
    rw [List.length_append] at this
    omega
  kinds t := by
    cases t
    · exact sameKinds_of_entries (hkinds (letter 's') (by simp))
    · exact sameKinds_of_entries (hkinds (letter 'r') (by simp))
  names c hc := by
    have hall : ∀ c ∈ subtreeCopies binGlobals ['k'], isAbs c.target = false ∧
        pieces c.target = c.names.map .name ∧ c.names ≠ [] := by decide +kernel
    obtain ⟨h₁, h₂, h₃⟩ := hall c hc
    exact ⟨h₁, h₂, h₃⟩

theorem unhindered_firstTime : Unhindered binLayout (subtreeCopies binGlobals ['k'])
    firstTime.fs where
  unlinked c _ ms _ k hk := by
    have hnone : ∀ e ∈ firstTime.fs.nodes.entries, e.2.content.isLnk = false := by decide +kernel
    exact hnone ⟨_, k⟩ (AList.mem_lookup_iff.mp hk)
  free pre c post hcs hslash hs := by
    have hall : (subtreeCopies binGlobals ['k']).Nodup ∧ ∀ c ∈ subtreeCopies binGlobals ['k'],
        c.target.getLast? ≠ some '/' → firstTime.fs.isDir (binLayout.source c) →
        firstTime.fs.isDir (binLayout.dest c) = false ∧
        ∀ c' ∈ subtreeCopies binGlobals ['k'], c' ≠ c → c'.tree = c.tree →
          firstTime.fs.isDir (binLayout.source c') →
          ¬c'.names <+: c.names ∧ ¬c.names <+: c'.names := by decide +kernel
    obtain ⟨hnodup, hall⟩ := hall
    obtain ⟨hd, hpre⟩ := hall c (by simp [hcs]) hslash hs
    refine ⟨hd, fun c' hc' => hpre c' (by simp [hcs, hc']) fun heq => ?_⟩
    rw [hcs] at hnodup
    exact (List.nodup_append.mp hnodup).2.2 c' hc' c (by simp) heq

end Locale

end Makeroot
