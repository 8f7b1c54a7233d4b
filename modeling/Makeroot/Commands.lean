import Makeroot.Publish

/-!
# The commands of a recipe

The recipes of install.mk are lines for `mkdir -p`, `cp`, `cp -P`, `mv`, `ln -sf`, `touch` and
`chmod`. Each is a program that does what the command is documented to do, and says whether it
failed. Where a command puts its object depends on what has the place already : into a
directory, through a link or over a file.
-/

namespace Posix

/-! ## Renaming -/

/-- The objects of a file system make one. -/
def Nodes.Sound (s : Nodes) : Prop :=
  s.isDir [] ∧ (∀ e ∈ s.entries, ∀ p ∈ e.1.tail?, s.isDir p) ∧
    ∀ e ∈ s.entries, e.2.content ≠ .lnk []

instance (s : Nodes) : Decidable s.Sound := inferInstanceAs (Decidable (_ ∧ _))

namespace FS

variable (fs : FS)

/-- Take other objects, if they make a file system. -/
def withNodes (s : Nodes) : FS :=
  if h : s.Sound then
    { nodes := s
      root_dir := h.1
      parent_dir := fun n p hp => by
        obtain ⟨k, hk⟩ := Option.isSome_iff_exists.mp hp
        exact h.2.1 ⟨n :: p, k⟩ (AList.mem_lookup_iff.mp hk) p rfl
      link_text := fun p k hk => h.2.2 ⟨p, k⟩ (AList.mem_lookup_iff.mp hk) }
  else fs

/-- A directory goes from `p` to `q` with all that is below it. -/
def moveTree (p q : Loc) : FS :=
  fs.withNodes <| List.toAList <| (fs.nodes.entries.filter (·.1 ≠ q)).map fun e =>
    if Above p e.1 then ⟨e.1.take (e.1.length - p.length) ++ q, e.2⟩ else e

end FS

/-- `rename`. Nothing takes the place of a directory, but a directory that of an empty one. -/
def World.rename (w : World) (old new : Path) : Except Errno (Unit × World) :=
  match w.stat false old, w.fs.target w.cwd false new with
  | .error e, _ => .error e
  | .ok _, none => .error .noent
  | .ok s, some q =>
    if s.node.isDir then
      if Above s.ino q ∨ (w.fs.node q).isSome ∧ ¬(w.fs.isDir q ∧ w.fs.names q = []) then
        .error .other
      else .ok ((), { w with
        fs := w.fs.moveTree s.ino q, log := w.log ++ [.remove s.ino, .create q] })
    else if s.ino = q ∨ w.fs.isDir q ∨ new.getLast? = some '/' then .error .other
    else .ok ((), { w with
      fs := (w.fs.remove s.ino).put q s.node, log := w.log ++ [.remove s.ino, .create q] })

/-- A call to rename an object. It takes it away from a directory, as `unlink` does. -/
def rename (old new : Path) : Prog (Except Errno Unit) := call .unlink (·.rename old new)

end Posix

namespace Makeroot

open Posix

/-! ## The commands -/

/-- `mkdir -p`. -/
def mkdirP (path : Path) : Prog Bool := do
  if ← isdir path then pure false else makePath path 0o755

/-- Where a command puts an object that it is to put at `dst` : into the directory there. -/
def into (dst src : Path) : Prog Path := do
  if ← isdir dst then pure (pathConcat dst (baseName (stripTrailingSlashes src))) else pure dst

/-- The copy of a regular file to what is no directory. What is there is written to, through a
link if that leads somewhere ; a new file gets the mode of the other. -/
def cpFile (s : Stat) (src t : Path) : Prog Bool := do
  match ← lstat t with
  | .error _ =>
    if ← copyReg src t then pure true
    else
      match ← chmod t (s.node.mode &&& 0o755) with
      | .error _ => pure true
      | .ok _ => pure false
  | .ok _ =>
    match ← stat t with
    | .error _ => pure true
    | .ok d => if d.ino = s.ino || d.node.isDir then pure true else copyReg src t

/-- `cp`. A directory is left out, which is an error. -/
def cp (src dst : Path) : Prog Bool := do
  match ← stat src with
  | .error _ => pure true
  | .ok s =>
    if s.node.isDir then pure true
    else do
      let t ← into dst src
      cpFile s src t

/-- `cp -P`, which copies a link as a link, over anything but a directory. -/
def cpP (src dst : Path) : Prog Bool := do
  match ← lstat src with
  | .error _ => pure true
  | .ok s =>
    if s.node.isDir then pure true
    else do
      let t ← into dst src
      if s.node.content.isLnk then
        match ← lstat t with
        | .error _ => copyLink src t
        | .ok d =>
          if d.ino = s.ino then pure true
          else
            match ← unlink t with
            | .error _ => pure true
            | .ok _ => copyLink src t
      else cpFile s src t

/-- `mv`. -/
def mv (src dst : Path) : Prog Bool := do
  let t ← into dst src
  match ← rename src t with
  | .error _ => pure true
  | .ok _ => pure false

/-- Remove what is at `t`, and say whether nothing is there. -/
def clearAway (t : Path) : Prog Bool := do
  match ← lstat t with
  | .error _ => pure true
  | .ok _ =>
    match ← unlink t with
    | .error _ => pure false
    | .ok _ => pure true

/-- `ln -sf`. -/
def lnSf (text t : Path) : Prog Bool := do
  let t ← into t text
  if ← clearAway t then
    match ← symlink text t with
    | .error _ => pure true
    | .ok _ => pure false
  else pure true

/-- `touch`. -/
def touch (t : Path) (now : ℕ) : Prog Bool := do
  match ← stat t with
  | .ok _ =>
    match ← utime t now now with
    | .error _ => pure true
    | .ok _ => pure false
  | .error _ =>
    match ← openTrunc t 0o644 with
    | .error _ => pure true
    | .ok _ => pure false

/-- `chmod`. -/
def chmodCommand (mode : ℕ) (t : Path) : Prog Bool := do
  match ← chmod t mode with
  | .error _ => pure true
  | .ok _ => pure false

/-! ## What they do -/

/-- The directories of the names from `r` on are there, and nothing else has changed. -/
structure DirsThere (r : Loc) (ns : List Name) (w w' : World) : Prop where
  within : Within [] r w w'
  ext : w.fs.Extends w'.fs
  new : ∀ q k, w.fs.node q = none → w'.fs.node q = some k → k.isDir ∧ Above q (ns.reverse ++ r)
  isDir : w'.fs.isDir (ns.reverse ++ r)

section Dirs

variable {r : Loc} {path : Path} {us : List Comp} {ns : List Name} {w : World}

theorem DirsThere.of_isDir (h : w.fs.isDir (ns.reverse ++ r)) : DirsThere r ns w w :=
  ⟨.refl .., fun _ _ h => h, fun q k h h' => by simp [h] at h', h⟩

/-- What a path along clear names names, if there is a directory. -/
theorem isdir_of_clear (hpath : path ≠ []) (hpieces : pieces path = us ++ ns.map .name)
    (hus : w.fs.walk true FS.maxLinks (start w.cwd path) us = .ok (.there r)) (hr : w.fs.isDir r)
    (hclear : Clear w.fs r ns) :
    World.isdir w path = true ↔ w.fs.isDir (ns.reverse ++ r) := by
  rw [isdir_iff]
  constructor
  · rintro ⟨p, hp, hd⟩
    have hl := FS.leads_of_resolve hp
    rw [hpieces] at hl
    rw [← (hclear.eq_of_leads hr (List.prefix_refl ns) (.of_append ⟨_, hus⟩ hl)).1]
    exact hd
  · intro hd
    refine ⟨_, FS.resolve_of_walk_pieces hpath ?_ hd, hd⟩
    obtain ⟨k, -, hk⟩ := FS.walk_append hus
    rw [hpieces]
    cases ns with
    | nil => simpa using hus
    | cons n ns =>
      rw [(hk _ (by simp)).1]
      exact FS.walk_of_done (FS.scan_names hd)

/-- `mkdir -p`, on a way that is clear. -/
theorem mkdirP_spec (hpath : path ≠ []) (hpieces : pieces path = us ++ ns.map .name)
    (hus : w.fs.walk true FS.maxLinks (start w.cwd path) us = .ok (.there r)) (hr : w.fs.isDir r)
    (hclear : Clear w.fs r ns) (hcalm : w.Calm) : wp (mkdirP path)
      (fun failed w' => failed = false ∧ DirsThere r ns w w' ∧ w'.cwd = w.cwd) (fun _ _ => False)
      w := by
  rw [mkdirP, wp_bind, wp_isdir]
  have hiff := isdir_of_clear hpath hpieces hus hr hclear
  by_cases hd : World.isdir w path = true
  · rw [if_pos hd]
    exact ⟨rfl, .of_isDir (hiff.mp hd), rfl⟩
  · rw [if_neg hd]
    have hnot : ¬w.fs.isDir (ns.reverse ++ r) := fun h => hd (hiff.mpr h)
    have hns : ns ≠ [] := by
      rintro rfl
      exact hnot hr
    refine wp_mono (makePath_trail (S := []) (by simpa using hd) hpieces hns hus hr 0o755)
      (fun failed w' h => ?_) fun _ _ h => h
    obtain ⟨htrail, hcwd⟩ := h
    cases htrail with
    | there hm hq =>
      obtain ⟨rfl, hqd⟩ := hclear.eq_of_leads hr (List.prefix_refl ns) hq
      exact absurd hqd hnot
    | stopped hm h => exact absurd (h hcalm) (hclear.not_obstructed hr)
    | @made ns₁ n ms q _ hns hq hqd hn hg hf =>
      obtain rfl := hf hcalm
      subst hns
      obtain ⟨rfl, -⟩ := hclear.eq_of_leads hr (List.prefix_append ..) hq
      have hlast : (ns₁ ++ n :: ms).reverse ++ r = (n :: ms).reverse ++ (ns₁.reverse ++ r) := by
        simp
      have hw : Within [] r w { w' with cwd := w.cwd } :=
        hg.within.mono ((List.suffix_append ns₁.reverse r).trans (List.suffix_cons ..))
      rw [← hcwd rfl] at hw
      refine ⟨rfl, ⟨hw, hg.ext, fun p k hp hk => ?_, ?_⟩, hcwd rfl⟩
      · rw [hlast]
        exact hg.new p k hp hk
      · rw [hlast]
        exact hg.last rfl

end Dirs

section Entry

variable {R d : Loc} {src t text : Path} {bytes : Bytes} {w : World}

/-- An entry that is no link. -/
theorem stat_of_plain (ht : NamesEntry w.fs w.cwd t R d) {k : Node} (hk : w.fs.node d = some k)
    (hl : k.content.isLnk = false) (follow : Bool) : w.stat follow t = .ok ⟨d, k⟩ := by
  rw [stat_of_unlinked ht fun _ j hj => by rwa [← Option.some.inj (hk.symm.trans hj)], hk]

theorem stat_of_absent (ht : NamesEntry w.fs w.cwd t R d) (hn : w.fs.node d = none)
    (follow : Bool) : w.stat follow t = .error .noent := by
  rw [stat_of_unlinked ht fun _ j hj => by simp [hn] at hj, hn]

theorem isLnk_of_hasFile {fs : FS} {k : Node} (h : fs.HasFile d bytes) (hk : fs.node d = some k) :
    k.content.isLnk = false ∧ k.isDir = false := by
  obtain ⟨j, sparse, hj, hc⟩ := h
  obtain rfl := Option.some.inj (hk.symm.trans hj)
  rw [Node.isDir, hc]
  exact ⟨rfl, rfl⟩

theorem wp_into {Q : Path → World → Prop} {E : Stop → World → Prop}
    (hd : World.isdir w t = false) : wp (into t src) Q E w ↔ Q t w := by
  rw [into, wp_bind, wp_isdir, if_neg (by simp [hd])]
  exact wp_pure t

/-- `cp` of a regular file over nothing, or over another regular file. -/
theorem cp_spec (hcalm : w.Calm) {s : Loc} (hsrc : w.fs.resolve w.cwd true src = .ok (.there s))
    (hs : w.fs.HasFile s bytes) (ht : NamesEntry w.fs w.cwd t R d) (hne : s ≠ d)
    (hd : w.fs.node d = none ∨ ∃ b, w.fs.HasFile d b) : wp (cp src t) (fun failed w' =>
      failed = false ∧ Within [] d w w' ∧ w'.fs.HasFile d bytes) (fun _ _ => False) w := by
  have hS : ∀ p : Loc, Above [] p := fun p => List.nil_suffix
  obtain ⟨k, sparse, hk, hkc⟩ := hs
  have hfile : w.fs.HasFile s bytes := ⟨k, sparse, hk, hkc⟩
  have hkd : k.isDir = false := by rw [Node.isDir, hkc]; rfl
  rw [cp, wp_bind, wp_stat, World.stat_of_there hsrc hk]
  dsimp only
  rw [if_neg (by simp [hkd]), wp_bind]
  have hisdir : World.isdir w t = false := by
    unfold World.isdir
    rcases hd with hn | ⟨b, hf⟩
    · rw [stat_of_absent ht hn]
    · have hf' := hf
      obtain ⟨j, -, hj, -⟩ := hf'
      obtain ⟨hl, hjd⟩ := isLnk_of_hasFile hf hj
      rw [stat_of_plain ht hj hl]
      exact hjd
  rw [wp_into hisdir, cpFile, wp_bind, wp_lstat]
  -- what `copy_reg` leaves
  have hcopy : Writable w t → w.fs.target w.cwd true t = some d →
      wp (copyReg src t) (fun failed w' => failed = false ∧ Within [] d w w' ∧
        w'.fs.resolve w'.cwd true t = .ok (.there d) ∧ w'.fs.HasFile d bytes)
        (fun _ _ => False) w := by
    intro hwrite htarget
    refine wp_mono (copyReg_spec fun p _ => hS p) (fun failed w' h => ?_) fun _ _ h => h
    obtain ⟨h, hok⟩ := h
    obtain rfl := hok hcalm ⟨s, bytes, hsrc, hfile⟩ hwrite
    rcases h with ⟨hf, -⟩ | ⟨s', p, hs', hmade, hcont⟩
    · simp at hf
    · obtain rfl : s = s' := Found.there.inj (Except.ok.inj (hsrc.symm.trans hs'))
      obtain rfl : p = d := Option.some.inj (hmade.target.symm.trans htarget)
      have hcont := hcont rfl
      rw [if_neg hne, contentAt_of_hasFile hfile] at hcont
      exact ⟨rfl, hmade.within, hmade.resolve, hcont⟩
  rcases hd with hn | ⟨b, hf⟩
  · rw [stat_of_absent ht hn]
    dsimp only
    obtain ⟨p, n, -, hr⟩ := ht.resolve_of_absent hn
    rw [wp_bind]
    refine wp_mono (hcopy (.inr ⟨p, n, hr true⟩) (ht.target_of_absent hn true))
      (fun failed w₁ h => ?_) fun _ _ h => h
    obtain ⟨rfl, hw, hr₁, hcont⟩ := h
    rw [if_neg (by simp), wp_bind]
    refine wp_mono (setAttr_spec (S := []) .chmod _ hr₁) (fun r w₂ h => ?_) fun _ _ h => h
    obtain ⟨hattr, hok⟩ := h
    obtain rfl := hok (hw.calm hcalm)
    exact ⟨rfl, hw.trans hattr.within, hattr.contents.hasFile hcont⟩
  · obtain ⟨j, sp, hj, hjc⟩ := hf
    have hf : w.fs.HasFile d b := ⟨j, sp, hj, hjc⟩
    obtain ⟨hl, hjd⟩ := isLnk_of_hasFile hf hj
    have hstat := stat_of_plain ht hj hl
    rw [hstat false]
    dsimp only
    rw [wp_bind, wp_stat, hstat true]
    dsimp only
    rw [if_neg (by simp [hjd, Ne.symm hne])]
    have hr := (World.stat_ok (hstat true)).1
    refine wp_mono (hcopy (.inl ⟨d, b, hr, j, sp, hj, hjc⟩) (FS.target_of_there hr))
      (fun failed w₁ h => ?_) fun _ _ h => h
    exact ⟨h.1, h.2.1, h.2.2.2⟩

theorem isDir_eq_false (ht : NamesEntry w.fs w.cwd t R d) (h : World.isdir w t = false) :
    w.fs.isDir d = false := by
  by_contra hd
  have hd : w.fs.isDir d := by simpa using hd
  rw [isdir_iff.mpr ⟨d, (ht.namesDir hd).resolve, hd⟩] at h
  simp at h

theorem getLast?_ne_of_isChild {u v : Path} {n : Name} (h : IsChild u n v) :
    v.getLast? ≠ some '/' := fun hv => by
  have hlast : (comps v).getLast? = some (.name n) := by
    rcases h.comps with hc | ⟨-, hc⟩ <;> simp [hc]
  simp [comps, hv] at hlast

/-- `mv` of a regular file, over what is no directory. -/
theorem mv_spec (hcalm : w.Calm) {s : Loc} (hsrc : w.fs.resolve w.cwd false src = .ok (.there s))
    (hs : w.fs.HasFile s bytes) (ht : NamesEntry w.fs w.cwd t R d) (hne : s ≠ d)
    (hisdir : World.isdir w t = false) :
    wp (mv src t) (fun failed w' => failed = false ∧ w'.cwd = w.cwd ∧ w'.env = w.env ∧
      (∀ p, w.fs.isDir p → w'.fs.isDir p) ∧ (∀ p, p ≠ s → p ≠ d → w'.fs.node p = w.fs.node p) ∧
      w'.fs.node s = none ∧ w'.fs.HasFile d bytes) (fun _ _ => False) w := by
  obtain ⟨k, sparse, hk, hkc⟩ := hs
  have hkd : k.isDir = false := by rw [Node.isDir, hkc]; rfl
  have hsd : w.fs.isDir s = false := (FS.isDir_of_node hk).trans hkd
  have hd := isDir_eq_false ht hisdir
  have hslash : t.getLast? ≠ some '/' := by
    cases ht with
    | entry hu hch => exact getLast?_ne_of_isChild hch
    | dir hp _ => exact absurd hp.isDir (by simp [hd])
  rw [mv, wp_bind, wp_into hisdir, wp_bind]
  have hren : World.rename w.next src t = .ok ((), { w.next with
      fs := (w.fs.remove s).put d k, log := w.log ++ [.remove s, .create d] }) := by
    simp [World.rename, World.next, World.stat, hsrc, hk, ht.target, hkd, hne, hd, hslash]
  have hcan : (w.fs.remove s).CanPut d k := by
    have hkl : k.content ≠ .lnk [] := by simp [hkc]
    cases hn : w.fs.node d with
    | some j =>
      refine FS.canPut_of_node ((FS.node_remove_of_ne (Ne.symm hne)).trans hn) ?_ hkl
      rw [hkd, ← FS.isDir_of_node hn, hd]
    | none =>
      obtain ⟨q, n, rfl, hr⟩ := ht.resolve_of_absent hn
      exact FS.canPut_of_absent (FS.isDir_remove (FS.resolve_absent (hr false)).1)
        ((FS.node_remove_of_ne (Ne.symm hne)).trans hn) hkl
  refine wp_call_ok (hcalm .unlink) hren ?_
  refine ⟨rfl, rfl, rfl, fun p hp => FS.isDir_put (FS.isDir_remove hp), fun p hps hpd => ?_, ?_, ?_⟩
  · exact (FS.node_put_of_ne hpd).trans (FS.node_remove_of_ne hps)
  · exact (FS.node_put_of_ne hne).trans (FS.node_remove_self hsd)
  · exact ⟨k, sparse, FS.node_put_self hcan, hkc⟩

theorem clearAway_spec (hcalm : w.Calm) (ht : NamesEntry w.fs w.cwd t R d)
    (hd : w.fs.isDir d = false) : wp (clearAway t) (fun free w' => free = true ∧
      Within [] d w w' ∧ w'.fs.node d = none) (fun _ _ => False) w := by
  rw [clearAway, wp_bind, wp_lstat, stat_of_namesEntry ht]
  cases hn : w.fs.node d with
  | none => exact ⟨rfl, .refl .., hn⟩
  | some k =>
    have hr := ht.resolve_of_node hn
    dsimp only
    rw [wp_bind]
    refine wp_unlink (S := []) (R := d) (fun q hq => ?_) (fun e he => ?_) ?_
    · rw [hr, Except.ok.injEq, Found.there.injEq] at hq
      exact hq ▸ .refl _
    · have he' := he (hcalm .unlink)
      simp [World.unlink, hr, hd] at he'
    · intro q w' hq hqd hw hfs
      rw [hr, Except.ok.injEq, Found.there.injEq] at hq
      subst hq
      exact ⟨rfl, hw, by rw [hfs, FS.node_remove_self hqd]⟩

/-- `ln -sf` over what is no directory, nor leads to one. -/
theorem lnSf_spec (hcalm : w.Calm) (ht : NamesEntry w.fs w.cwd t R d) (hR : Above R d)
    (hisdir : World.isdir w t = false) (htext : text ≠ []) : wp (lnSf text t) (fun failed w' =>
      failed = false ∧ Within [] d w w' ∧ ∃ k, w'.fs.node d = some k ∧ k.content = .lnk text)
      (fun _ _ => False) w := by
  have hd := isDir_eq_false ht hisdir
  rw [lnSf, wp_bind, wp_into hisdir, wp_bind]
  refine wp_mono (clearAway_spec hcalm ht hd) (fun free w₁ h => ?_) fun _ _ h => h
  obtain ⟨rfl, hw₁, hn⟩ := h
  have ht₁ := (hw₁.mono hR).namesEntry ht
  obtain ⟨p, n, rfl, hr⟩ := ht₁.resolve_of_absent hn
  rw [if_pos rfl, wp_bind]
  refine wp_symlink (S := []) (R := n :: p) (fun q hq => ?_) (fun e he => ?_) ?_
  · rw [ht₁.target, Option.some.injEq] at hq
    exact hq ▸ .refl _
  · have he' := he (hw₁.calm hcalm .symlink)
    simp [World.symlink, hr false, htext] at he'
  · intro q m w' _ hr' hw' hfs _
    rw [hr false, Except.ok.injEq, Found.absent.injEq] at hr'
    obtain ⟨rfl, rfl, -⟩ := hr'
    obtain ⟨hp, -⟩ := FS.resolve_absent (hr false)
    have hnode := FS.node_put_self (FS.canPut_of_absent hp hn
      (k := ⟨.lnk text, 0o777, w₁.env.now, w₁.env.now⟩) (by simpa using htext))
    exact ⟨rfl, hw₁.trans hw', _, by rw [hfs, hnode], rfl⟩

/-- `touch` makes an empty file where nothing is. -/
theorem touch_absent (hcalm : w.Calm) (ht : NamesEntry w.fs w.cwd t R d) (hn : w.fs.node d = none)
    (now : ℕ) : wp (touch t now) (fun failed w' => failed = false ∧ Within [] d w w' ∧
      w'.fs.HasFile d []) (fun _ _ => False) w := by
  rw [touch, wp_bind, wp_stat, stat_of_absent ht hn]
  obtain ⟨p, n, -, hr⟩ := ht.resolve_of_absent hn
  dsimp only
  rw [wp_bind]
  refine wp_openTrunc (S := []) (R := d) (fun q hq => ?_) (fun e he => ?_) ?_
  · rw [ht.target_of_absent hn true, Option.some.injEq] at hq
    exact hq ▸ .refl _
  · have he' := he (hcalm .open)
    simp [World.openTrunc, hr true] at he'
  · intro q w' hq hw _ hf _ _
    rw [ht.target_of_absent hn true, Option.some.injEq] at hq
    exact ⟨rfl, hw, hq ▸ hf⟩

/-- The attributes of what is there are set, and that is no link. -/
theorem setAttr_there (hcalm : w.Calm) (ht : NamesEntry w.fs w.cwd t R d) {k : Node}
    (hk : w.fs.node d = some k) (hl : k.content.isLnk = false) (c : Sys) (f : Node → Node) :
    wp (call c (·.setAttr t f)) (fun r w' => r = .ok () ∧ AttrSet [] d w w') (fun _ _ => False)
      w := by
  have hr := (World.stat_ok (stat_of_plain ht hk hl true)).1
  exact wp_mono (setAttr_spec (S := []) c f hr) (fun r w' h => ⟨h.2 hcalm, h.1⟩) fun _ _ h => h

theorem touch_there (hcalm : w.Calm) (ht : NamesEntry w.fs w.cwd t R d) {k : Node}
    (hk : w.fs.node d = some k) (hl : k.content.isLnk = false) (now : ℕ) :
    wp (touch t now) (fun failed w' => failed = false ∧ AttrSet [] d w w') (fun _ _ => False)
      w := by
  rw [touch, wp_bind, wp_stat, stat_of_plain ht hk hl]
  dsimp only
  rw [wp_bind]
  refine wp_mono (setAttr_there hcalm ht hk hl .utime _) (fun r w' h => ?_) fun _ _ h => h
  obtain ⟨rfl, h⟩ := h
  exact ⟨rfl, h⟩

theorem chmodCommand_there (hcalm : w.Calm) (ht : NamesEntry w.fs w.cwd t R d) {k : Node}
    (hk : w.fs.node d = some k) (hl : k.content.isLnk = false) (mode : ℕ) :
    wp (chmodCommand mode t) (fun failed w' => failed = false ∧ AttrSet [] d w w')
      (fun _ _ => False) w := by
  rw [chmodCommand, wp_bind]
  refine wp_mono (setAttr_there hcalm ht hk hl .chmod _) (fun r w' h => ?_) fun _ _ h => h
  obtain ⟨rfl, h⟩ := h
  exact ⟨rfl, h⟩

end Entry

end Makeroot
