import Makeroot.InstallFile
import Makeroot.MakePath

/-!
# Placement by install -D

`install -D SOURCE DEST` is to make the leading directories of DEST and to copy SOURCE to
DEST. Whether it does depends on what there is : a directory that has to be made first gets
the file under its own base name. `placed_iff` says when the file is where it belongs.
-/

namespace Makeroot

open Posix

/-- The options of `install -D`, with or without `-m` and `-R`. -/
def placing (mode : Option ℕ) (sysroot : Option Path) : Flags where
  mkdirAndInstall := true
  recursive := false
  preserve := false
  noDereference := false
  strip := false
  gzip := false
  mode := mode
  sysroot := sysroot

/-- A leading part of a path that names a directory. -/
def Leading (fs : FS) (cwd : Loc) (t : Path) (q : Loc) : Prop :=
  ∃ a b, t = a ++ '/' :: b ∧ fs.resolve cwd true a = .ok (.there q) ∧ fs.isDir q

/-- The content is at `dst` itself, the leading directories are there, and nothing else has
been made or changed. -/
def Placed (w w' : World) (dst : Path) (bytes : Bytes) : Prop :=
  ∃ p, w'.fs.resolve w.cwd true dst = .ok (.there p) ∧ w'.fs.HasFile p bytes ∧
    (∀ a b, dst = a ++ '/' :: b → a ≠ [] → ∃ q, w'.fs.resolve w.cwd true a = .ok (.there q) ∧
      w'.fs.isDir q) ∧
    ∀ q, q ≠ p → w'.fs.node q = w.fs.node q ∨ w.fs.node q = none ∧ Leading w'.fs w.cwd dst q

/-! ## Copying to a path -/

/-- The file at `s` has been copied to `p`, which `dst` names, and nothing else has changed. -/
structure Filed (w w' : World) (s : Loc) (bytes : Bytes) (dst : Path) (p : Loc) : Prop where
  within : Within [] p w w'
  resolve : w'.fs.resolve w'.cwd true dst = .ok (.there p)
  file : w'.fs.HasFile p (if s = p then [] else bytes)
  self : s = p → ¬w.Free .unlink
  lands : w.fs.target w.cwd true dst = some p ∨ w.fs.resolve w.cwd false dst = .ok (.there p)

variable {tools : Tools} {mode : Option ℕ} {sysroot : Option Path} {depth : ℕ} {src dst : Path}
  {w w' : World} {s : Loc} {bytes : Bytes}

theorem stat_of_hasFile (hs : w.fs.resolve w.cwd true src = .ok (.there s))
    (hf : w.fs.HasFile s bytes) : ∃ k sparse, w.stat true src = .ok ⟨s, k⟩ ∧
      k.content = .reg bytes sparse := by
  obtain ⟨k, sparse, hk, hc⟩ := hf
  exact ⟨k, sparse, World.stat_of_there hs hk, hc⟩

theorem isdir_of_hasFile (hs : w.fs.resolve w.cwd true src = .ok (.there s))
    (hf : w.fs.HasFile s bytes) : World.isdir w src = false := by
  obtain ⟨k, sparse, hk, hc⟩ := stat_of_hasFile hs hf
  simp [World.isdir, hk, Node.isDir, hc]

theorem copyFile_placing (hs : w.fs.resolve w.cwd true src = .ok (.there s))
    (hf : w.fs.HasFile s bytes) :
    wp (copyFile (placing mode sysroot) depth src dst []) (fun r w' =>
      r.1 = false → ∃ p, Filed w w' s bytes dst p) (fun _ _ => True) w := by
  obtain ⟨k, sparse, hk, hc⟩ := stat_of_hasFile hs hf
  have hl : k.content.isLnk = false := by simp [hc, Content.isLnk]
  rw [copyFile]
  simp only [wp_bind, wp_isdir, isdir_of_hasFile hs hf]
  change wp (copyInternal _ depth src dst false [] []) _ _ w
  cases depth with
  | zero => exact trivial
  | succ depth =>
    refine wp_mono (copyInternal_file (S := []) (show w.stat _ src = .ok ⟨s, k⟩ from hk) (by simp [Node.isDir, hc])
      (by simp) List.nil_suffix) (fun r w' hr hfail => ?_) fun _ _ _ => trivial
    rcases hr.2 with ⟨h, -⟩ | ⟨p, hlands, hw, hmade⟩
    · simp [h] at hfail
    obtain ⟨hmade, hself⟩ := hmade hfail
    have hresolve := hmade.resolve
    simp only [hl, Bool.not_false] at hresolve
    refine ⟨p, hw, hresolve, ?_, fun h => by simpa using hself h, ?_⟩
    · obtain ⟨j, hj, hd⟩ := hmade.node
      cases hjc : j.content with
      | reg b sp =>
        refine ⟨j, sp, hj, ?_⟩
        rw [hjc, hc] at hd
        split_ifs at hd ⊢ <;> simp [Content.data] at hd <;> rw [hjc, hd]
      | lnk t => rw [hjc, hc] at hd; split_ifs at hd <;> simp [Content.data] at hd
      | dir => rw [hjc, hc] at hd; split_ifs at hd <;> simp [Content.data] at hd
    · cases hlands with
      | replaced hs hd hp => exact .inr hp
      | new hp h => exact .inl (by simpa [hl] using hp)
      | through hp hs hd hfree => exact .inl (by simpa [hl] using hp)

theorem Filed.of_attrSet {w'' : World} {p : Loc} (h : Filed w w' s bytes dst p)
    (ha : AttrSet [] p w' w'') : Filed w w'' s bytes dst p :=
  ⟨h.within.trans ha.within, ha.resolve h.resolve, ha.contents.hasFile h.file, h.self, h.lands⟩

theorem installFileInFile_placing (hs : w.fs.resolve w.cwd true src = .ok (.there s))
    (hf : w.fs.HasFile s bytes) :
    wp (installFileInFile tools (placing mode sysroot) depth src dst []) (fun r w' =>
      r.1 = false → ∃ p, Filed w w' s bytes dst p) (fun _ _ => True) w := by
  rw [installFileInFile, wp_bind]
  refine wp_mono (copyFile_placing hs hf) (fun r w₁ h₁ => ?_) fun _ _ _ => trivial
  obtain ⟨failed, h⟩ := r
  cases failed with
  | true => simp
  | false =>
    obtain ⟨p, hp⟩ := h₁ rfl
    simp only [placing, Bool.false_eq_true, if_false, wp_bind]
    refine wp_mono (changeAttributes_spec (S := []) hp.resolve) (fun failed w₂ h₂ => ?_)
      fun _ _ _ => trivial
    cases failed with
    | true => simp
    | false => exact fun _ => ⟨p, hp.of_attrSet h₂.1⟩

/-! ## What a copy leaves as it was -/

namespace Filed

variable {p : Loc}

theorem isDir (h : Filed w w' s bytes dst p) : w'.fs.isDir p = false := h.file.isDir

theorem node_of_ne (h : Filed w w' s bytes dst p) {q : Loc} (hq : q ≠ p) :
    w'.fs.node q = w.fs.node q := by
  by_cases hpq : Above p q
  · have hd : w.fs.isDir p = false := by
      by_contra hd
      have := h.within.dirs p (by simpa using hd)
      rw [h.isDir] at this
      simp at this
    rw [FS.node_eq_none_of_above hd hpq hq, FS.node_eq_none_of_above h.isDir hpq hq]
  · exact h.within.out q hpq

/-- A directory that a path names afterwards it named before. -/
theorem resolve_back (h : Filed w w' s bytes dst p) {cwd q : Loc} {t : Path}
    (hr : w'.fs.resolve cwd true t = .ok (.there q)) (hq : w'.fs.isDir q) :
    w.fs.resolve cwd true t = .ok (.there q) ∧ w.fs.isDir q := by
  have hdir : ∀ r, w'.fs.isDir r → w.fs.isDir r := fun r hr => by
    have hne : r ≠ p := fun hrp => by
      rw [hrp, h.isDir] at hr
      simp at hr
    obtain ⟨k, hk, hkd⟩ := (FS.isDir_iff _).mp hr
    exact (FS.isDir_iff _).mpr ⟨k, by rw [← h.node_of_ne hne, hk], hkd⟩
  refine ⟨?_, hdir q hq⟩
  unfold FS.resolve at hr ⊢
  split_ifs at hr ⊢ with ht
  refine (FS.walk_mono hdir hr (FS.plain_of_isDir (hdir _ hq)) fun l hl => ?_).1
  obtain ⟨j, t, hj, hc⟩ := FS.exists_target_of_mem_links hl
  refine (h.node_of_ne fun hlp => ?_).symm
  obtain ⟨k, sp, hk, hkc⟩ := h.file
  rw [hlp, hk, Option.some.injEq] at hj
  rw [← hj, hkc] at hc
  simp at hc

end Filed

theorem Filed.congr {dst' : Path} {p : Loc} (h : Filed w w' s bytes dst p)
    (hdst : ∀ (fs : FS) cwd follow, fs.resolve cwd follow dst = fs.resolve cwd follow dst') :
    Filed w w' s bytes dst' p := by
  refine ⟨h.within, hdst .. ▸ h.resolve, h.file, h.self, ?_⟩
  have hl := h.lands
  rwa [FS.target, hdst, hdst, ← FS.target] at hl

/-! ## Leading parts -/

/-- The parts of a path before a slash name directories. -/
theorem leading_of_resolve {fs : FS} {cwd p : Loc} {a b : Path}
    (hr : fs.resolve cwd true dst = .ok (.there p)) (hlast : dst.getLast? ≠ some '/')
    (hdst : dst = a ++ '/' :: b) (ha : a ≠ []) :
    ∃ q, fs.resolve cwd true a = .ok (.there q) ∧ fs.isDir q := by
  have hb : b ≠ [] := fun hb => by simp [hdst, hb] at hlast
  have hblast : b.getLast? ≠ some '/' := fun h => hlast (by
    rw [hdst, List.getLast?_append_of_ne_nil _ (by simp), List.getLast?_cons_of_ne_nil hb, h])
  obtain ⟨c, cs, hc⟩ := List.exists_cons_of_ne_nil (FS.comps_ne_nil hb)
  rw [comps_of_pieces hblast] at hc
  have hcomps : comps dst = pieces a ++ c :: cs := by
    rw [comps_of_pieces hlast, hdst, pieces_append_slash, hc]
  have hstart : start cwd dst = start cwd a := by rw [start, hdst, isAbs_append ha, ← start]
  unfold FS.resolve at hr
  split_ifs at hr
  rw [hcomps, hstart] at hr
  obtain ⟨q, hq, hd⟩ := FS.walk_prefix hr
  exact ⟨q, FS.resolve_of_walk_pieces ha hq hd, hd⟩

/-! ## A parent that is made first -/

section Parent

/-- Before the last slash stands the `dirname`, if that is no directory. -/
theorem exists_parent (hdot : dirname dst ≠ ['.']) (hnd : World.isdir w (dirname dst) = false) :
    ∃ k, dst = dirname dst ++ List.replicate k '/' ++ '/' :: baseName dst := by
  have hslash : '/' ∈ dst := by
    by_contra h
    exact hdot (by rw [dirname, if_neg h])
  obtain ⟨d, hdst, hd⟩ := exists_dirname hslash
  have hroot : dirname dst ≠ ['/'] := fun h => by
    rw [h] at hnd
    have : World.isdir w ['/'] := isdir_iff.mpr ⟨[], resolve_root w.fs w.cwd, w.fs.isDir_nil⟩
    simp [hnd] at this
  obtain ⟨k, hk⟩ := exists_dirname_append hd hroot
  exact ⟨k, by rw [← hk]; exact hdst⟩

theorem replicate_append_cons {α : Type} (k : ℕ) (c : α) (t : List α) :
    List.replicate k c ++ c :: t = c :: (List.replicate k c ++ t) := by
  rw [← List.singleton_append, ← List.append_assoc, ← List.replicate_succ', List.replicate_succ,
    List.cons_append]

/-- The directories that are made are named by parts of the path before a slash. -/
theorem exists_of_mem_leading_dirname
    (hdst : ∃ k, dst = dirname dst ++ List.replicate k '/' ++ '/' :: baseName dst)
    {e : Path × Path} (he : e ∈ leading (dirname dst)) : ∃ b, dst = e.1 ++ '/' :: b := by
  obtain ⟨k, hdst⟩ := hdst
  obtain ⟨j, hj⟩ := exists_stripTrailingSlashes (dirname dst)
  obtain ⟨u, hu⟩ := exists_of_mem_leading he
  refine ⟨u ++ (List.replicate j '/' ++ (List.replicate k '/' ++ baseName dst)), ?_⟩
  conv_lhs => rw [hdst, hj]
  rw [← List.cons_append, ← List.append_assoc, ← hu]
  simp only [List.append_assoc, List.singleton_append]
  rw [replicate_append_cons, replicate_append_cons]

variable {w₁ : World} {p : Loc}

/-- The file that was to be at DEST is there. -/
theorem placed_of_made (hlast : dst.getLast? ≠ some '/')
    (hdst : ∃ k, dst = dirname dst ++ List.replicate k '/' ++ '/' :: baseName dst)
    (hmade : DirsMade (start w.cwd (dirname dst)) (leading (dirname dst)) w w₁)
    (hcwd : w₁.cwd = w.cwd) (hfiled : Filed w₁ w' s bytes dst p) (hself : s ≠ p) :
    Placed w w' dst bytes := by
  have hr := hfiled.resolve
  rw [hfiled.within.cwd, hcwd] at hr
  have hf := hfiled.file
  rw [if_neg hself] at hf
  refine ⟨p, hr, hf, fun a b hab ha => ?_, fun q hq => ?_⟩
  · exact leading_of_resolve hr hlast hab ha
  · rw [hfiled.node_of_ne hq]
    cases hn : w.fs.node q with
    | some k => exact .inl (hmade.ext q k hn)
    | none =>
      cases hn₁ : w₁.fs.node q with
      | none => exact .inl rfl
      | some k =>
        -- a directory that was made is where its path leads afterwards
        obtain ⟨-, e, he, hl⟩ := hmade.new q k hn hn₁
        obtain ⟨b, hb⟩ := exists_of_mem_leading_dirname hdst he
        have hne := ne_nil_of_mem_leading (dirname_ne_nil dst) he
        obtain ⟨r, hr', hd⟩ := leading_of_resolve hr hlast hb hne
        obtain ⟨hback, -⟩ := hfiled.resolve_back hr' hd
        have hl' := FS.leads_of_resolve hback
        rw [start, isAbs_of_mem_leading (dirname_ne_nil dst) he hne, ← start] at hl'
        obtain rfl := hl.unique hl'
        exact .inr ⟨rfl, e.1, b, hb, hr', hd⟩

theorem comps_of_parent {n : Name} (hn : baseName dst = n.val)
    (hdst : ∃ k, dst = dirname dst ++ List.replicate k '/' ++ '/' :: baseName dst) :
    comps dst = pieces (dirname dst) ++ [.name n] ∧ isAbs dst = isAbs (dirname dst) := by
  obtain ⟨k, hdst⟩ := hdst
  rw [hn] at hdst
  have hlast : dst.getLast? ≠ some '/' := by
    have h := getLast?_append_name (dirname dst ++ List.replicate k '/' ++ ['/']) n
    rwa [List.append_assoc, List.singleton_append, ← hdst] at h
  constructor
  · rw [comps_of_pieces hlast]
    conv_lhs => rw [hdst, pieces_append_slash, pieces_append_slashes, pieces_name]
  · conv_lhs => rw [hdst, List.append_assoc, isAbs_append (dirname_ne_nil dst)]

theorem comps_pathConcat {dir : Path} (hdir : dir ≠ []) (n : Name) :
    comps (pathConcat dir n.val) = pieces dir ++ [.name n] ∧
      isAbs (pathConcat dir n.val) = isAbs dir := by
  have h := isChild_pathConcat hdir n
  refine ⟨?_, h.isAbs⟩
  rw [← h.pieces, pieces_pathConcat hdir, pieces_name]

/-- The base name of DEST in its parent is DEST. -/
theorem resolve_pathConcat_dirname {n : Name} (hn : baseName dst = n.val)
    (hdst : ∃ k, dst = dirname dst ++ List.replicate k '/' ++ '/' :: baseName dst)
    (fs : FS) (cwd : Loc) (follow : Bool) :
    fs.resolve cwd follow (pathConcat (dirname dst) n.val) = fs.resolve cwd follow dst := by
  have hne : dst ≠ [] := fun h => by
    obtain ⟨k, hk⟩ := hdst
    rw [h] at hk
    simpa using congrArg List.length hk
  obtain ⟨h₁, h₂⟩ := comps_of_parent hn hdst
  obtain ⟨h₃, h₄⟩ := comps_pathConcat (dirname_ne_nil dst) n
  rw [FS.resolve, FS.resolve, if_neg hne, if_neg (pathConcat_ne_nil (dirname_ne_nil dst) _), h₁, h₃,
    start, start, h₂, h₄]

/-- The parent of DEST is where it was before the file was copied. -/
theorem exists_walk_parent {dst' : Path} {r : Loc} (hlast : dst.getLast? ≠ some '/')
    (hdst : ∃ k, dst = dirname dst ++ List.replicate k '/' ++ '/' :: baseName dst)
    (hr : w'.fs.resolve w.cwd true dst = .ok (.there r))
    (hfiled : Filed w₁ w' s bytes dst' p) : ∃ q,
      w'.fs.walk true FS.maxLinks (start w.cwd (dirname dst)) (pieces (dirname dst)) =
        .ok (.there q) ∧ w'.fs.isDir q ∧
      w₁.fs.walk true FS.maxLinks (start w.cwd (dirname dst)) (pieces (dirname dst)) =
        .ok (.there q) ∧ w₁.fs.isDir q := by
  obtain ⟨k, hk⟩ := hdst
  obtain ⟨q, hq, hqd⟩ := leading_of_resolve hr hlast hk (by simp [dirname_ne_nil])
  obtain ⟨hback, hback'⟩ := hfiled.resolve_back hq hqd
  have hpieces : pieces (dirname dst ++ List.replicate k '/') = pieces (dirname dst) :=
    pieces_append_slashes _ _
  have hstart : start w.cwd (dirname dst ++ List.replicate k '/') = start w.cwd (dirname dst) := by
    rw [start, isAbs_append (dirname_ne_nil dst), ← start]
  have hwalk := FS.walk_pieces hq
  have hwalk₁ := FS.walk_pieces hback
  rw [hpieces, hstart] at hwalk hwalk₁
  exact ⟨q, hwalk, hqd, hwalk₁, hback'⟩

/-- A file copied into an empty parent is new. -/
theorem eq_of_fresh_parent {n : Name} {q : Loc} (hcwd : w₁.cwd = w.cwd)
    (hwalk : w₁.fs.walk true FS.maxLinks (start w.cwd (dirname dst)) (pieces (dirname dst)) =
      .ok (.there q)) (hfresh : Fresh w₁.fs q)
    (hfiled : Filed w₁ w' s bytes (pathConcat (dirname dst) n.val) p) : p = n :: q := by
  have habsent : ∀ follow, w₁.fs.resolve w.cwd follow (pathConcat (dirname dst) n.val) =
      .ok (.absent q n false) := by
    intro follow
    obtain ⟨h₁, h₂⟩ := comps_pathConcat (dirname_ne_nil dst) n
    obtain ⟨k', -, hk'⟩ := FS.walk_append hwalk
    rw [FS.resolve, if_neg (pathConcat_ne_nil (dirname_ne_nil dst) _), h₁, start, h₂, ← start,
      (hk' _ (by simp)).1, FS.walk_name hfresh.1 (.inr fun j t hj => by simp [hfresh.2 n] at hj)]
    simp [hfresh.2 n]
  rcases hfiled.lands with h | h
  · rw [hcwd, FS.target_of_absent (habsent true), Option.some.injEq] at h
    exact h.symm
  · rw [hcwd, habsent] at h
    simp at h

/-- Where the parent had to be made there is nothing at DEST, unless the file was copied there
under its own name. -/
theorem not_placed_of_made {n : Name} (hlast : dst.getLast? ≠ some '/')
    (hdst : ∃ k, dst = dirname dst ++ List.replicate k '/' ++ '/' :: baseName dst)
    (hnd : World.isdir w (dirname dst) = false) (hcwd : w₁.cwd = w.cwd)
    (hfresh : w₁.fs = w.fs ∨
      ∃ q, w₁.fs.Leads (start w.cwd (dirname dst)) (pieces (dirname dst)) q ∧ Fresh w₁.fs q)
    (hfiled : Filed w₁ w' s bytes (pathConcat (dirname dst) n.val) p)
    (hn : baseName dst ≠ n.val) {bytes' : Bytes} : ¬Placed w w' dst bytes' := by
  rintro ⟨r, hr, hf, -⟩
  obtain ⟨q, hwalk, hqd, hwalk₁, hqd₁⟩ := exists_walk_parent hlast hdst hr hfiled
  rcases hfresh with hfs | ⟨q', hlead, hfresh⟩
  · -- nothing was made, so the parent has been a directory before
    rw [hfs] at hwalk₁ hqd₁
    have : World.isdir w (dirname dst) := isdir_iff.mpr
      ⟨q, FS.resolve_of_walk_pieces (dirname_ne_nil dst) hwalk₁ hqd₁, hqd₁⟩
    simp [hnd] at this
  · obtain rfl := hlead.unique ⟨_, hwalk₁⟩
    obtain rfl := eq_of_fresh_parent hcwd hwalk₁ hfresh hfiled
    -- DEST has another name than the file
    obtain ⟨-, m, hm⟩ := exists_baseName hr hf.isDir
    obtain ⟨hcomps, habs⟩ := comps_of_parent hm hdst
    have hnone : w'.fs.node (m :: q') = none := by
      rw [hfiled.node_of_ne fun h => hn ?_, hfresh.2 m]
      rw [List.cons.injEq] at h
      rw [hm, h.1]
    obtain ⟨k', -, hk'⟩ := FS.walk_append hwalk
    unfold FS.resolve at hr
    split_ifs at hr
    rw [hcomps, start, habs, ← start, (hk' _ (by simp)).1,
      FS.walk_name hqd (.inr fun j t hj => by simp [hnone] at hj), hnone] at hr
    simp at hr

end Parent

/-! ## main -/

/-- What a run of `install -D` that succeeded has done : it has copied the file to DEST, or
made the parent and copied the file there under its own name. -/
inductive Ran (w w' : World) (s : Loc) (bytes : Bytes) (src dst : Path) : Prop
  | straight {p : Loc} (h : dirname dst = ['.'] ∨ World.isdir w (dirname dst))
      (hfiled : Filed w w' s bytes dst p) : Ran w w' s bytes src dst
  | made {w₁ : World} {p : Loc} (hdot : dirname dst ≠ ['.'])
      (hnd : World.isdir w (dirname dst) = false)
      (hmade : DirsMade (start w.cwd (dirname dst)) (leading (dirname dst)) w w₁)
      (hcwd : w₁.cwd = w.cwd)
      (hfresh : .up ∉ pieces (dirname dst) → w₁.fs = w.fs ∨
        ∃ q, w₁.fs.Leads (start w.cwd (dirname dst)) (pieces (dirname dst)) q ∧ Fresh w₁.fs q)
      (hfiled : Filed w₁ w' s bytes (pathConcat (dirname dst) (baseName src)) p) :
      Ran w w' s bytes src dst

theorem main_placing {dest : Path} (hs : w.fs.resolve w.cwd true src = .ok (.there s))
    (hf : w.fs.HasFile s bytes)
    (hdir : World.isdir w ((placing mode sysroot).toSysroot dest) = false) :
    wp (main tools (placing mode sysroot) depth [src, dest]) (fun failed w' => failed = false →
      Ran w w' s bytes src ((placing mode sysroot).toSysroot dest)) (fun _ _ => True) w := by
  generalize hdst : (placing mode sysroot).toSysroot dest = dst at hdir ⊢
  rw [main, hdst]
  simp only [wp_bind, wp_isdir, hdir, Bool.false_eq_true, if_false]
  rw [show (placing mode sysroot).mkdirAndInstall = true from rfl, if_pos rfl, wp_bind,
    installFileToPath, wp_bind, wp_isdir]
  by_cases hc : dirname dst ≠ ['.'] ∧ World.isdir w (dirname dst) = false
  · obtain ⟨hdot, hnd⟩ := hc
    simp only [hdot, hnd, ne_eq, not_false_eq_true, decide_true, Bool.not_false, Bool.and_self,
      if_true]
    rw [installFileInDir, wp_bind, wp_isdir]
    simp only [hnd, Bool.false_eq_true, if_false]
    rw [wp_bind]
    refine wp_mono (makePath_spec (dirname_ne_nil dst) hnd) (fun failed w₁ h₁ => ?_)
      fun _ _ _ => trivial
    obtain ⟨hmade, hrest⟩ := h₁
    cases failed with
    | true => simp
    | false =>
      obtain ⟨hcwd, hfresh⟩ := hrest rfl
      obtain ⟨k, sp, hk, hkc⟩ := hf
      have hs₁ : w₁.fs.resolve w₁.cwd true src = .ok (.there s) := by
        rw [hcwd]
        exact FS.resolve_extends hmade.ext hs
      refine wp_mono (installFileInFile_placing hs₁ ⟨k, sp, hmade.ext s k hk, hkc⟩)
        (fun r w₂ h₂ => ?_) fun _ _ _ => trivial
      intro hfail
      obtain ⟨p, hp⟩ := h₂ hfail
      exact .made hdot hnd hmade hcwd hfresh hp
  · have hif : (decide (dirname dst ≠ ['.']) && !World.isdir w (dirname dst)) = false := by
      by_contra h
      refine hc ?_
      simpa using h
    rw [if_neg (by simpa using hif)]
    refine wp_mono (installFileInFile_placing hs hf) (fun r w₂ h₂ => ?_) fun _ _ _ => trivial
    intro hfail
    obtain ⟨p, hp⟩ := h₂ hfail
    refine .straight ?_ hp
    by_contra h
    rw [not_or] at h
    exact hc ⟨h.1, by simpa using h.2⟩

/-- DEST has no parent to be made, or the file keeps its name. -/
def Straight (w : World) (src dst : Path) : Prop :=
  dirname dst = ['.'] ∨ World.isdir w (dirname dst) ∨ baseName src = baseName dst

/-- The file is not written over itself. -/
def Apart (w : World) (s : Loc) (dst : Path) : Prop :=
  w.Free .unlink ∨ .up ∉ pieces dst ∧ w.fs.resolve w.cwd true dst ≠ .ok (.there s)

theorem Filed.ne_of_resolve {p : Loc} (h : Filed w w' s bytes dst p) (hf : w.fs.HasFile s bytes)
    (hdst : w.fs.resolve w.cwd true dst ≠ .ok (.there s)) : s ≠ p := by
  rintro rfl
  obtain ⟨k, sp, hk, hc⟩ := hf
  rcases h.lands with hl | hl
  · unfold FS.target at hl
    split at hl
    · rename_i q hq
      rw [Option.some.injEq] at hl
      exact hdst (hl ▸ hq)
    · rename_i q n b hq
      rw [Option.some.injEq] at hl
      have := (FS.resolve_absent hq).2
      rw [hl, hk] at this
      simp at this
    · simp at hl
  · exact hdst (FS.resolve_of_plain ⟨k, hk, by simp [hc]⟩ hl)

theorem placed_of_filed {p : Loc} (hlast : dst.getLast? ≠ some '/')
    (h : Filed w w' s bytes dst p) (hself : s ≠ p) : Placed w w' dst bytes := by
  have hr := h.resolve
  rw [h.within.cwd] at hr
  have hf := h.file
  rw [if_neg hself] at hf
  exact ⟨p, hr, hf, fun a b hab ha => leading_of_resolve hr hlast hab ha,
    fun q hq => .inl (h.node_of_ne hq)⟩

/-- `install -D` of a regular file to a path that ends in no slash and names no directory
puts it where it belongs if DEST has no parent to be made or the file keeps its name, and
otherwise only if DEST goes up somewhere. -/
theorem placed_iff {dest : Path} (hs : w.fs.resolve w.cwd true src = .ok (.there s))
    (hf : w.fs.HasFile s bytes)
    (hlast : ((placing mode sysroot).toSysroot dest).getLast? ≠ some '/')
    (hdir : World.isdir w ((placing mode sysroot).toSysroot dest) = false)
    (hrun : main tools (placing mode sysroot) depth [src, dest] w = .ok false w') :
    (Apart w s ((placing mode sysroot).toSysroot dest) →
      Straight w src ((placing mode sysroot).toSysroot dest) →
      Placed w w' ((placing mode sysroot).toSysroot dest) bytes) ∧
    (.up ∉ pieces ((placing mode sysroot).toSysroot dest) →
      Placed w w' ((placing mode sysroot).toSysroot dest) bytes →
      Straight w src ((placing mode sysroot).toSysroot dest)) := by
  have hran : wp (main tools (placing mode sysroot) depth [src, dest]) (fun failed w' =>
      failed = false → Ran w w' s bytes src ((placing mode sysroot).toSysroot dest))
      (fun _ _ => True) w := main_placing hs hf hdir
  rw [wp, hrun] at hran
  have hran := hran rfl
  generalize (placing mode sysroot).toSysroot dest = dst at hlast hran ⊢
  cases hran with
  | straight h hfiled =>
    refine ⟨fun hapart _ => placed_of_filed hlast hfiled ?_, fun _ _ => ?_⟩
    · rcases hapart with hfree | ⟨-, hne⟩
      · exact fun hsp => hfiled.self hsp hfree
      · exact hfiled.ne_of_resolve hf hne
    · exact h.imp id .inl
  | made hdot hnd hmade hcwd hfresh hfiled =>
    rename_i w₁ p
    obtain ⟨-, n, hn⟩ := exists_baseName hs hf.isDir
    rw [hn] at hfiled
    have hdst := exists_parent hdot hnd
    have hup : .up ∉ pieces dst → .up ∉ pieces (dirname dst) := fun h hmem => h (by
      obtain ⟨k, hk⟩ := hdst
      rw [hk, pieces_append_slash, pieces_append_slashes]
      exact List.mem_append_left _ hmem)
    have hf₁ : w₁.fs.HasFile s bytes := by
      obtain ⟨k, sp, hk, hc⟩ := hf
      exact ⟨k, sp, hmade.ext s k hk, hc⟩
    refine ⟨fun hapart hstraight => ?_, fun h hplaced => ?_⟩
    · have hname : baseName dst = n.val := by
        rcases hstraight with h | h | h
        · exact absurd h hdot
        · simp [hnd] at h
        · rw [← h, hn]
      have hfiled' := hfiled.congr (resolve_pathConcat_dirname hname hdst)
      refine placed_of_made hlast hdst hmade hcwd hfiled' ?_
      rcases hapart with hfree | ⟨h, hne⟩
      · refine fun hsp => hfiled'.self hsp fun i => ?_
        rw [hmade.env]
        exact hfree i
      · rcases hfresh (hup h) with hfs | ⟨q, hlead, hfresh⟩
        · exact hfiled'.ne_of_resolve hf₁ (by rwa [hfs, hcwd])
        · have hr := hfiled'.resolve
          rw [hfiled'.within.cwd, hcwd] at hr
          obtain ⟨q', -, -, hwalk, -⟩ := exists_walk_parent hlast hdst hr hfiled'
          obtain rfl := hlead.unique ⟨_, hwalk⟩
          obtain rfl := eq_of_fresh_parent hcwd hwalk hfresh hfiled
          rintro rfl
          obtain ⟨k, sp, hk, -⟩ := hf₁
          rw [hfresh.2 n] at hk
          simp at hk
    · by_contra hstraight
      unfold Straight at hstraight
      rw [not_or, not_or, hn] at hstraight
      exact not_placed_of_made hlast hdst hnd hcwd (hfresh (hup h)) hfiled
        (fun h => hstraight.2.2 h.symm) hplaced

/-- A file `/a/x`, and nothing else. -/
def oneFile : World where
  fs := (FS.empty.put [⟨['a'], by decide⟩] ⟨.dir, 0o755, 0, 0⟩).put
    [⟨['x'], by decide⟩, ⟨['a'], by decide⟩] ⟨.reg [7] false, 0o644, 0, 0⟩
  cwd := []
  env := ⟨0, 4096, false, fun _ _ => none⟩
  tick := 0
  log := []
  children := []

theorem oneFile_resolve : oneFile.fs.resolve oneFile.cwd true ['/', 'a', '/', 'x'] =
    .ok (.there [⟨['x'], by decide⟩, ⟨['a'], by decide⟩]) := by decide +kernel

theorem oneFile_hasFile :
    oneFile.fs.HasFile [⟨['x'], by decide⟩, ⟨['a'], by decide⟩] [7] :=
  ⟨⟨.reg [7] false, 0o644, 0, 0⟩, false, by decide +kernel, rfl⟩

/-- `install -D /a/x /c/x`, where `/c` has to be made. -/
theorem placed_iff_oneFile : ∃ w', main ⟨fun _ b => some b, fun _ b => some b⟩
    (placing none none) 2 [['/', 'a', '/', 'x'], ['/', 'c', '/', 'x']] oneFile = .ok false w' ∧
      Placed oneFile w' ['/', 'c', '/', 'x'] [7] := by
  obtain ⟨w', hrun, -⟩ := exists_of_succeeds (P := fun _ => true)
    (r := main ⟨fun _ b => some b, fun _ b => some b⟩ (placing none none) 2
      [['/', 'a', '/', 'x'], ['/', 'c', '/', 'x']] oneFile) (by decide +kernel)
  exact ⟨w', hrun, (placed_iff oneFile_resolve oneFile_hasFile (by decide +kernel)
    (by decide +kernel) hrun).1 (.inl fun _ => rfl) (.inr (.inr (by decide +kernel)))⟩

/-- `install -D /a/x /c/y` makes the file `/c/x`. -/
theorem not_placed_other_name : ∃ w', main ⟨fun _ b => some b, fun _ b => some b⟩
    (placing none none) 2 [['/', 'a', '/', 'x'], ['/', 'c', '/', 'y']] oneFile = .ok false w' ∧
      w'.fs.HasFile [⟨['x'], by decide⟩, ⟨['c'], by decide⟩] [7] ∧
      ¬Placed oneFile w' ['/', 'c', '/', 'y'] [7] := by
  obtain ⟨w', hrun, hw⟩ := exists_of_succeeds
    (r := main ⟨fun _ b => some b, fun _ b => some b⟩ (placing none none) 2
      [['/', 'a', '/', 'x'], ['/', 'c', '/', 'y']] oneFile)
    (P := fun w' => (w'.fs.node [⟨['x'], by decide⟩, ⟨['c'], by decide⟩]).map Node.content =
        some (.reg [7] false) ∧
      w'.fs.resolve [] true ['/', 'c', '/', 'y'] =
        .ok (.absent [⟨['c'], by decide⟩] ⟨['y'], by decide⟩ false)) (by decide +kernel)
  rw [decide_eq_true_eq, Option.map_eq_some_iff] at hw
  obtain ⟨⟨k, hk, hc⟩, hr⟩ := hw
  refine ⟨w', hrun, ⟨k, false, hk, hc⟩, ?_⟩
  rintro ⟨p, hp, -⟩
  rw [show oneFile.cwd = [] from rfl, hr] at hp
  simp at hp

end Makeroot
