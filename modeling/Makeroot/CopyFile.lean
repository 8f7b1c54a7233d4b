import Makeroot.Copy

/-!
# Copying one file

`copyReg_spec` and `copyLink_spec` say what becomes of one regular file or link,
whatever calls fail : what a copy that reports no failure has left, and that nothing
happens elsewhere in any case. `copyInternal_file` puts them together for an object that is no
directory.
-/

namespace Makeroot

open Posix

/-! ## Blocks -/

theorem flatten_toChunks_go {α : Type} (n : ℕ) (xs : List α) (acc₁ : Array α)
    (acc₂ : Array (List α)) : (List.toChunks.go n xs acc₁ acc₂).flatten =
      acc₂.toList.flatten ++ acc₁.toList ++ xs := by
  induction xs generalizing acc₁ acc₂ with
  | nil => simp [List.toChunks.go]
  | cons x xs ih =>
    rw [List.toChunks.go]
    split_ifs <;> simp [ih]

/-- The blocks of a file are its content. -/
theorem flatten_toChunks {α : Type} (n : ℕ) (xs : List α) : (xs.toChunks n).flatten = xs := by
  cases xs with
  | nil => simp [List.toChunks]
  | cons x xs =>
    cases n with
    | zero => simp [List.toChunks]
    | succ n => simp [List.toChunks, flatten_toChunks_go]

/-- What a program reports : `P` holds unless it failed, and it does not fail without need
if no call does. -/
structure Reports (w : World) (failed : Bool) (P : Prop) : Prop where
  done : failed = false → P
  ok : w.Calm → failed = false

namespace Reports

variable {w : World} {failed : Bool} {P P' : Prop}

theorem of_done (h : P) : Reports w false P := ⟨fun _ => h, fun _ => rfl⟩

theorem of_not_free {c : Sys} (h : ¬w.Free c) : Reports w true P :=
  ⟨by simp, fun hc => absurd (hc c) h⟩

theorem imp (h : Reports w failed P) (hP : P → P') : Reports w failed P' :=
  ⟨fun hf => hP (h.done hf), h.ok⟩

/-- A program that goes on in a later world of the same kind. -/
theorem of_within {w' : World} {S R : Loc} (h : Reports w' failed P) (hw : Within S R w w') :
    Reports w failed P :=
  ⟨h.done, fun hc => h.ok (hw.calm hc)⟩

end Reports

section Blocks

variable {S R dest : Loc} {w : World} {bytes : Bytes}

/-- What is read of an open file. -/
def contentAt (fs : FS) (p : Loc) : Bytes :=
  match fs.node p with
  | some ⟨.reg bytes _, _, _, _⟩ => bytes
  | _ => []

theorem contentAt_of_hasFile {fs : FS} {p : Loc} (h : fs.HasFile p bytes) :
    contentAt fs p = bytes := by
  obtain ⟨⟨c, m, a, n⟩, sparse, hn, rfl⟩ := h
  simp [contentAt, hn]

theorem blocks_flatten (p : Loc) (w : World) :
    wp (blocks p) (fun r w' => w' = w ∧ r.1.flatten = contentAt w.fs p) (fun _ _ => False) w := by
  unfold wp blocks contentAt
  cases hn : w.fs.node p with
  | none => simp
  | some k =>
    obtain ⟨c, m, a, n⟩ := k
    cases c with
    | reg bytes sparse => simp [flatten_toChunks]
    | lnk t => simp
    | dir => simp

/-- The loop of `copy_reg` : with zeros for what is a hole at the end, the file is what has
been read so far. -/
theorem copyBlocks_spec (hR : Above R dest) {makeHoles : Bool} {bs : List Bytes} {off : ℕ}
    {hole : Bool} (hf : w.fs.HasFile dest bytes) (hlen : bytes.length ≤ off)
    (hhole : hole = false → bytes.length = off) :
    wp (copyBlocks dest makeHoles bs off hole) (fun failed w' => Within S R w w' ∧
      ∃ bytes', w'.fs.HasFile dest bytes' ∧ Reports w failed
        (bytes' = bytes ++ List.replicate (off - bytes.length) 0 ++ bs.flatten))
      (fun _ _ => False) w := by
  have hnext := Within.next S R w
  induction bs generalizing w off hole bytes with
  | nil =>
    rw [copyBlocks, wp_bind]
    refine wp_access (fun e he => ⟨hnext, bytes, hf, .of_not_free he⟩) ?_
    cases hole with
    | false => exact ⟨hnext, bytes, hf, .of_done (by simp [hhole rfl])⟩
    | true =>
      simp only [if_true, wp_bind]
      refine wp_writeAt (S := S) (w := w.next) hR hf
        (fun e he => ⟨hnext.trans (.next ..), bytes, hf, .of_not_free (w := w) he⟩)
        fun w₁ h₁ hf₁ => ?_
      have hw₁ := hnext.trans h₁
      simp only [wp_bind]
      refine wp_ftruncate (S := S) hR hf₁
        (fun e he => ⟨hw₁.trans (.next ..), _, hf₁, (Reports.of_not_free he).of_within hw₁⟩)
        fun w₂ h₂ hf₂ => ⟨hw₁.trans h₂, _, hf₂, .of_done ?_⟩
      have hlen' : (bytes ++ List.replicate (off - bytes.length) 0).length = off := by
        simp; omega
      rw [World.overwrite_of_le hlen, List.append_assoc, List.take_left' hlen']
      simp
  | cons b bs ih =>
    rw [copyBlocks, wp_bind]
    refine wp_access (fun e he => ⟨hnext, bytes, hf, .of_not_free he⟩) ?_
    dsimp only
    split_ifs with hz
    · -- a block of zeros is left out
      have hnext' := hnext.trans (Within.next S R w.next)
      rw [wp_bind]
      refine wp_access (fun e he => ⟨hnext', bytes, hf, .of_not_free (w := w) he⟩) ?_
      refine wp_mono (ih hf (by omega) (by simp) (.next ..)) (fun failed w' hw => ?_) fun _ _ h => h
      obtain ⟨hw, bytes', hf', hb⟩ := hw
      refine ⟨hnext'.trans hw, bytes', hf', (hb.of_within hnext').imp fun hb => ?_⟩
      have hb0 : b = List.replicate b.length 0 := by
        rw [Bool.and_eq_true, List.all_eq_true] at hz
        exact List.eq_replicate_of_mem fun x hx => by simpa using hz.2 x hx
      rw [hb, List.flatten_cons, Nat.sub_add_comm hlen, List.replicate_add, ← hb0]
      simp only [List.append_assoc]
    · rw [wp_bind]
      refine wp_writeAt (S := S) (w := w.next) hR hf
        (fun e he => ⟨hnext.trans (.next ..), bytes, hf, .of_not_free (w := w) he⟩)
        fun w₁ h₁ hf₁ => ?_
      have hw₁ := hnext.trans h₁
      have hlen' : (World.overwrite bytes off b).length = off + b.length := by
        rw [World.overwrite_of_le hlen]
        simp; omega
      refine wp_mono (ih hf₁ (by omega) (fun _ => hlen') (.next ..)) (fun failed w' hw => ?_)
        fun _ _ h => h
      obtain ⟨hw, bytes', hf', hb⟩ := hw
      refine ⟨hw₁.trans hw, bytes', hf', (hb.of_within hw₁).imp fun hb => ?_⟩
      rw [hb, hlen', World.overwrite_of_le hlen]
      simp

theorem copyData_spec (hR : Above R dest) {source : Loc} (hf : w.fs.HasFile dest []) :
    wp (copyData source dest) (fun failed w' => Within S R w w' ∧
      ∃ bytes', w'.fs.HasFile dest bytes' ∧ Reports w failed (bytes' = contentAt w.fs source))
      (fun _ _ => False) w := by
  have hnext := Within.next S R w
  have hnext' := hnext.trans (Within.next S R w.next)
  rw [copyData, wp_bind]
  refine wp_access (fun e he => ⟨hnext, [], hf, .of_not_free he⟩) ?_
  simp only [wp_bind]
  refine wp_access (fun e he => ⟨hnext', [], hf, .of_not_free (w := w) he⟩) ?_
  simp only [wp_bind]
  refine wp_mono (blocks_flatten source w.next.next) (fun r w' hw => ?_) fun _ _ h => h
  obtain ⟨rfl, hr⟩ := hw
  refine wp_mono (copyBlocks_spec (S := S) hR hf le_rfl fun _ => rfl) (fun failed w' hw => ?_)
    fun _ _ h => h
  obtain ⟨hw, bytes', hf', hb⟩ := hw
  exact ⟨hnext'.trans hw, bytes', hf', (hb.of_within hnext').imp fun hb => by simpa [hr] using hb⟩

theorem close_spec (w : World) :
    wp close (fun failed w' => (∀ R, Within S R w w') ∧ w'.fs = w.fs ∧ Reports w failed True)
      (fun _ _ => False) w := by
  have hnext : ∀ R, Within S R w w.next := fun _ => .next ..
  rw [close, wp_bind]
  exact wp_access (fun e he => ⟨hnext, rfl, .of_not_free he⟩) ⟨hnext, rfl, .of_done trivial⟩

end Blocks

/-! ## Regular files -/

/-- A path to a regular file. -/
def NamesFile (w : World) (t : Path) : Prop :=
  ∃ p bytes, w.fs.resolve w.cwd true t = .ok (.there p) ∧ w.fs.HasFile p bytes

/-- A path that a file can be opened with for writing. -/
def Writable (w : World) (t : Path) : Prop :=
  NamesFile w t ∨ ∃ p n, w.fs.resolve w.cwd true t = .ok (.absent p n false)

theorem exists_hasFile {fs : FS} {cwd p : Loc} {t : Path}
    (h : fs.resolve cwd true t = .ok (.there p)) (hd : fs.isDir p = false) :
    fs.HasFile p (contentAt fs p) := by
  obtain ⟨k, hk, hl⟩ := FS.plain_of_resolve h
  cases hc : k.content with
  | lnk t => exact absurd hc (hl t)
  | reg bytes sparse =>
    have hf : fs.HasFile p bytes := ⟨k, sparse, hk, hc⟩
    rwa [contentAt_of_hasFile hf]
  | dir => rw [FS.isDir_of_node hk, Node.isDir, hc] at hd; simp at hd

/-- What has happened after `copy_reg` opened the file `p` : the file is there under its
path, and nothing has happened anywhere else. -/
structure FileMade (S : Loc) (w w' : World) (dst : Path) (p : Loc) : Prop where
  target : w.fs.target w.cwd true dst = some p
  within : Within S p w w'
  resolve : w'.fs.resolve w'.cwd true dst = .ok (.there p)
  file : ∃ bytes, w'.fs.HasFile p bytes
  log : Effect.write p ∈ w'.log ∨ Effect.create p ∈ w'.log

theorem FileMade.trans {S p : Loc} {w w' w'' : World} {dst : Path} (h : FileMade S w w' dst p)
    (hw : Within S p w' w'') (hf : ∃ bytes, w''.fs.HasFile p bytes) : FileMade S w w'' dst p := by
  obtain ⟨b, k, s, hk, hc⟩ := h.file
  obtain ⟨b', k', s', hk', hc'⟩ := hf
  refine ⟨h.target, h.within.trans hw, ?_, ⟨b', k', s', hk', hc'⟩, ?_⟩
  · -- what a resolution sees has not changed, as nothing stands below a file
    rw [hw.cwd, FS.resolve_congr fun q => ?_, h.resolve]
    by_cases hq : q = p
    · subst hq
      simp [FS.sees, hk, hk', Node.isDir, hc, hc']
    · by_cases hpq : Above p q
      · have hd : ∀ {fs : FS} {k : Node} {b : Bytes} {s : Bool}, fs.node p = some k →
            k.content = .reg b s → fs.node q = none := fun hk hc =>
          FS.node_eq_none_of_above (by rw [FS.isDir_of_node hk, Node.isDir, hc]; rfl) hpq hq
        rw [FS.sees, FS.sees, hd hk hc, hd hk' hc']
      · rw [FS.sees, FS.sees, hw.out q hpq]
  · obtain ⟨l, hl, -⟩ := hw.log
    rw [hl]
    exact h.log.imp (List.mem_append_left _) (List.mem_append_left _)

/-- `copy_reg` : either nothing is done, or the file is made. Where the file is not its own
source, it gets the content of that. -/
theorem copyReg_spec {S : Loc} {w : World} {src dst : Path}
    (hS : ∀ s, w.fs.resolve w.cwd true src = .ok (.there s) → Above S s) :
    wp (copyReg src dst) (fun failed w' =>
      ((failed = true ∧ w'.fs = w.fs ∧ ∀ R, Within S R w w') ∨
        ∃ s p, w.fs.resolve w.cwd true src = .ok (.there s) ∧ FileMade S w w' dst p ∧
          (failed = false →
            w'.fs.HasFile p (if s = p then [] else contentAt w.fs s))) ∧
      (w.Calm → NamesFile w src → Writable w dst → failed = false)) (fun _ _ => False) w := by
  have hnext : ∀ R, Within S R w w.next := fun R => .next ..
  rw [copyReg, wp_bind]
  refine wp_openRead hS (fun e he => ⟨.inl ⟨rfl, rfl, hnext⟩, fun hc hn _ => ?_⟩) ?_
  · obtain ⟨p, bytes, hr, hf⟩ := hn
    obtain ⟨k, s, hk, hkc⟩ := hf
    have hd : k.isDir = false := by simp [Node.isDir, hkc]
    have hs : w.next.stat true src = .ok ⟨p, k⟩ := World.stat_of_there hr hk
    have he' := he (hc _)
    simp [World.openRead, hs, hd] at he'
  intro s w₁ hs hd h₁ hfs₁
  have hcwd₁ : w₁.cwd = w.cwd := (h₁ []).cwd
  simp only [wp_bind]
  refine wp_openTrunc (S := S) (R := (w₁.fs.target w₁.cwd true dst).getD [])
    (fun p hp => by rw [hp]; exact .refl _) (fun e he => ?_) ?_
  · -- the destination could not be opened
    have hw : ∀ R, Within S R w w₁.next := fun R => (h₁ R).trans (.next ..)
    simp only [wp_bind, wp_discard]
    refine wp_mono (close_spec (S := S) w₁.next) (fun c w₂ hc => ?_) fun _ _ h => h
    refine ⟨.inl ⟨rfl, hc.2.1.trans hfs₁, fun R => (hw R).trans (hc.1 R)⟩, fun hcalm _ hd => ?_⟩
    have he' := he ((h₁ []).calm hcalm .open)
    rcases hd with ⟨p, bytes, hr, ⟨c, m, a, n⟩, sp, hk, hkc⟩ | ⟨p, n, hr⟩
    · obtain rfl : c = .reg bytes sp := hkc
      simp [World.openTrunc, hfs₁, hcwd₁, hr, hk] at he'
    · simp [World.openTrunc, hfs₁, hcwd₁, hr] at he'
  · intro p w₂ hp h₂ hr₂ hf₂ hout₂ hlog₂
    rw [hp, Option.getD_some] at h₂
    rw [hfs₁, hcwd₁] at hp
    have hmade : FileMade S w w₂ dst p :=
      ⟨hp, (h₁ p).trans h₂, hr₂, ⟨_, hf₂⟩, by rcases hlog₂ with h | h <;> simp [h]⟩
    have hsource : contentAt w₂.fs s = if s = p then [] else contentAt w.fs s := by
      split_ifs with hsp
      · rw [hsp]
        exact contentAt_of_hasFile hf₂
      · rw [contentAt, hout₂ s hsp, hfs₁, ← contentAt]
    simp only [wp_bind]
    refine wp_mono (copyData_spec (S := S) (.refl p) hf₂) (fun r w₃ h₃ => ?_)
      fun _ _ h => h
    obtain ⟨h₃, b, hf₃, hr⟩ := h₃
    rw [wp_bind]
    refine wp_mono (close_spec (S := S) w₃) (fun c w₄ h₄ => ?_) fun _ _ h => h
    obtain ⟨h₄, hfs₄, hc⟩ := h₄
    rw [wp_bind]
    refine wp_mono (close_spec (S := S) w₄) (fun c' w₅ h₅ => ?_) fun _ _ h => h
    obtain ⟨h₅, hfs₅, hc'⟩ := h₅
    have hf₅ : w₅.fs.HasFile p b := by rw [hfs₅, hfs₄]; exact hf₃
    have hlater := h₃.trans ((h₄ p).trans (h₅ p))
    refine ⟨.inr ⟨s, p, hs, hmade.trans hlater ⟨b, hf₅⟩, fun hfail => ?_⟩, fun hcalm _ _ => ?_⟩
    · simp only [Bool.or_eq_false_iff] at hfail
      rw [← hsource, ← hr.done hfail.1.1]
      exact hf₅
    · have hcalm₂ := h₂.calm ((h₁ p).calm hcalm)
      have hcalm₃ := h₃.calm hcalm₂
      simp [hr.ok hcalm₂, hc.ok hcalm₃, hc'.ok ((h₄ p).calm hcalm₃)]

/-! ## Links -/

theorem copyLink_spec {S : Loc} {w : World} {src dst : Path}
    (hS : ∀ s, w.fs.resolve w.cwd false src = .ok (.there s) → Above S s) :
    wp (copyLink src dst) (fun failed w' =>
      ((failed = true ∧ w'.fs = w.fs ∧ ∀ R, Within S R w w') ∨
        ∃ s t q n, w.stat false src = .ok s ∧ s.node.content = .lnk t ∧ t ≠ [] ∧
          w.fs.resolve w.cwd false dst = .ok (.absent q n false) ∧ Within S (n :: q) w w' ∧
          w'.fs = w.fs.put (n :: q) ⟨.lnk t, 0o777, w.env.now, w.env.now⟩ ∧
          .create (n :: q) ∈ w'.log) ∧
      (w.Calm → (∃ s t, w.stat false src = .ok s ∧ s.node.content = .lnk t) →
        (∃ q n, w.fs.resolve w.cwd false dst = .ok (.absent q n false)) → failed = false))
      (fun _ _ => False) w := by
  have hnext : ∀ R, Within S R w w.next := fun R => .next ..
  rw [copyLink, wp_bind]
  refine wp_readlink hS (fun e he => ⟨.inl ⟨rfl, rfl, hnext⟩, fun hc hl _ => ?_⟩) ?_
  · obtain ⟨s, t, hs, ht⟩ := hl
    have he' := he (hc _)
    simp [World.readlink, hs, ht] at he'
  intro s t w₁ hs ht h₁ hfs₁
  have hcwd₁ : w₁.cwd = w.cwd := (h₁ []).cwd
  have henv₁ : w₁.env = w.env := (h₁ []).env
  simp only [wp_bind]
  refine wp_symlink (S := S) (R := (w₁.fs.target w₁.cwd false dst).getD [])
    (fun p hp => by rw [hp]; exact .refl _) (fun e he => ?_) ?_
  · refine ⟨.inl ⟨rfl, hfs₁, fun R => (h₁ R).trans (.next ..)⟩, fun hc hl hd => ?_⟩
    have he' := he ((h₁ []).calm hc .symlink)
    have hne : t ≠ [] := fun h => FS.content_ne_of_node (World.stat_ok hs).2 (h ▸ ht)
    obtain ⟨q, n, hr⟩ := hd
    simp [World.symlink, hfs₁, hcwd₁, hr, hne] at he'
  · intro q n w₂ hne hr h₂ hfs₂ hlog₂
    rw [FS.target_of_absent hr, Option.getD_some] at h₂
    rw [hfs₁, hcwd₁] at hr
    rw [hfs₁, henv₁] at hfs₂
    exact ⟨.inr ⟨s, t, q, n, hs, ht, hne, hr, (h₁ _).trans h₂, hfs₂, by simp [hlog₂]⟩, fun _ _ _ => rfl⟩

/-! ## The destination -/

/-- Setting attributes of what a path names changes nothing else. -/
structure AttrSet (S p : Loc) (w w' : World) : Prop where
  within : Within S p w w'
  contents : w.fs.SameContents w'.fs
  out : ∀ q, q ≠ p → w'.fs.node q = w.fs.node q

namespace AttrSet

variable {S p : Loc} {w w' w'' : World} {dst : Path}

theorem refl (S p : Loc) (w : World) : AttrSet S p w w := ⟨.refl .., .refl _, fun _ _ => rfl⟩

theorem trans (h : AttrSet S p w w') (h' : AttrSet S p w' w'') : AttrSet S p w w'' :=
  ⟨h.within.trans h'.within, h.contents.trans h'.contents,
    fun q hq => (h'.out q hq).trans (h.out q hq)⟩

theorem resolve (h : AttrSet S p w w') {follow : Bool} {f : Except Errno Found}
    (hp : w.fs.resolve w.cwd follow dst = f) : w'.fs.resolve w'.cwd follow dst = f := by
  rw [h.within.cwd, FS.resolve_congr h.contents.sees, hp]

end AttrSet

@[simp] theorem wp_xstat {x : CpOptions} {t : Path} {Q : Except Errno Stat → World → Prop}
    {E : Stop → World → Prop} {w : World} :
    wp (x.xstat t) Q E w ↔ Q (w.stat x.dereference t) w := by
  unfold CpOptions.xstat
  cases x.dereference <;> simp

/-- How the destination is made ready. -/
inductive Ready (S : Loc) (x : CpOptions) (src : Stat) (dst : Path) (newDst : Bool)
    (w w' : World) : Option Dst → Prop
  /-- There is nothing. -/
  | new (hfs : w'.fs = w.fs) (hw : ∀ R, Within S R w w')
      (h : newDst = true ∨ w.stat x.dereference dst = .error .noent) :
      Ready S x src dst newDst w w' (some ⟨true, false, none⟩)
  /-- A directory for a directory. -/
  | kept {s : Stat} (hs : w.stat x.dereference dst = .ok s) (hd : s.node.isDir)
      (hsrc : src.node.isDir) (ha : AttrSet S s.ino w w') (fixMode : Option ℕ) : Ready S x src dst newDst w w' (some ⟨false, true, fixMode⟩)
  /-- An object was in the way. -/
  | removed {s : Stat} {p : Loc} (hs : w.stat x.dereference dst = .ok s) (hd : s.node.isDir = false)
      (hp : w.fs.resolve w.cwd false dst = .ok (.there p)) (hpd : w.fs.isDir p = false)
      (hw : Within S p w w') (hfs : w'.fs = w.fs.remove p) :
      Ready S x src dst newDst w w' (some ⟨true, false, none⟩)
  /-- An object is in the way and could not be removed. -/
  | stuck {s : Stat} (hs : w.stat x.dereference dst = .ok s) (hd : s.node.isDir = false)
      (hfree : ¬w.Free .unlink) (hfs : w'.fs = w.fs) (hw : ∀ R, Within S R w w') (newDst' : Bool) :
      Ready S x src dst newDst w w' (some ⟨newDst', false, none⟩)
  | refused (hfs : w'.fs = w.fs) (hw : ∀ R, Within S R w w') (hnew : newDst = false)
      (h : (∃ e, e ≠ .noent ∧ w.stat x.dereference dst = .error e) ∨
        (∃ s, w.stat x.dereference dst = .ok s ∧ s.node.isDir ∧ src.node.isDir = false) ∨
        ¬w.Calm) : Ready S x src dst newDst w w' none

theorem prepareDst_spec {S : Loc} {x : CpOptions} {src : Stat} {dst : Path} {newDst : Bool}
    {w : World} : wp (prepareDst x src dst newDst) (fun r w' => Ready S x src dst newDst w w' r)
      (fun _ _ => False) w := by
  have hnext : ∀ R, Within S R w w.next := fun R => .next ..
  unfold prepareDst
  by_cases hnew : newDst
  · rw [if_pos hnew]
    exact .new rfl (fun R => .refl ..) (.inl hnew)
  have hnew' : newDst = false := by simpa using hnew
  rw [if_neg hnew, wp_bind, wp_xstat]
  cases hs : w.stat x.dereference dst with
  | error e =>
    dsimp only
    split_ifs with he
    · exact .new rfl (fun R => .refl ..) (.inr (he ▸ hs))
    · exact .refused rfl (fun R => .refl ..) hnew' (.inl ⟨e, he, hs⟩)
  | ok s =>
    obtain ⟨hr, hn⟩ := World.stat_ok hs
    dsimp only
    split_ifs with hd hsrc
    · -- both are directories
      have hr' : w.fs.resolve w.cwd true dst = .ok (.there s.ino) := by
        cases hx : x.dereference with
        | true => rwa [hx] at hr
        | false =>
          rw [hx] at hr
          exact FS.resolve_of_plain (FS.plain_of_isDir (by rw [FS.isDir_of_node hn, hd])) hr
      rw [wp_bind]
      change wp (if _ then _ else _) _ _ w
      split_ifs with hacc
      · exact .kept hs hd hsrc (.refl ..) none
      · rw [wp_bind]
        have hst : w.stat true dst = .ok s := World.stat_of_there hr' hn
        refine wp_setAttr (S := S) (R := s.ino) (fun p hp => ?_)
          (fun e he => .refused rfl hnext hnew' (.inr (.inr fun hc => ?_))) ?_
        · rw [hr', Except.ok.injEq, Found.there.injEq] at hp
          exact hp ▸ .refl _
        · have he' := he (hc _)
          simp [World.setAttr, World.next_stat, hst] at he'
        · intro s' w' hs' hw hc hout _
          rw [hst, Except.ok.injEq] at hs'
          exact .kept hs hd hsrc ⟨hw, hc, hs' ▸ hout⟩ _
    · exact .refused rfl (fun R => .refl ..) hnew' (.inr (.inl ⟨s, hs, hd, by simpa using hsrc⟩))
    · -- an object in the way
      have hd' : s.node.isDir = false := by simpa using hd
      obtain ⟨p, hp, hpd⟩ : ∃ p, w.fs.resolve w.cwd false dst = .ok (.there p) ∧
          w.fs.isDir p = false := by
        have hsd : w.fs.isDir s.ino = false := by rw [FS.isDir_of_node hn, hd']
        cases hx : x.dereference with
        | false => exact ⟨s.ino, by rwa [hx] at hr, hsd⟩
        | true =>
          rw [hx] at hr
          obtain ⟨q, hq, rfl | ⟨j, u, hj, hc⟩⟩ := FS.exists_entry hr
          · exact ⟨_, hq, hsd⟩
          · exact ⟨q, hq, by rw [FS.isDir_of_node hj, Node.isDir, hc]; rfl⟩
      rw [wp_bind]
      refine wp_unlink (S := S) (R := p) (fun q hq => ?_) (fun e he => ?_) ?_
      · rw [hp, Except.ok.injEq, Found.there.injEq] at hq
        exact hq ▸ .refl _
      · change Ready S x src dst newDst w w.next (some ⟨decide (e = .noent), false, none⟩)
        refine .stuck hs hd' (fun hfree => ?_) w.next_fs hnext _
        have he' := he hfree
        simp [World.unlink, hp, hpd] at he'
      · intro q w' hq _ hw hfs
        rw [hp, Except.ok.injEq, Found.there.injEq] at hq
        subst hq
        exact .removed hs hd' hp hpd hw hfs

/-! ## Attributes -/

section Attributes

variable {S p : Loc} {w : World} {dst : Path}

theorem setAttr_spec (c : Sys) (f : Node → Node)
    (hp : w.fs.resolve w.cwd true dst = .ok (.there p)) :
    wp (call c (·.setAttr dst f)) (fun r w' => AttrSet S p w w' ∧ (w.Calm → r = .ok ()))
      (fun _ _ => False) w := by
  obtain ⟨k, hk, -⟩ := FS.plain_of_resolve hp
  refine wp_setAttr (S := S) (R := p) (fun q hq => ?_)
    (fun e he => ⟨⟨.next .., .refl _, fun _ _ => rfl⟩, fun hc => ?_⟩)
    (fun s w' hs hw hc hout _ => ⟨⟨hw, hc, ?_⟩, fun _ => rfl⟩)
  · rw [hp, Except.ok.injEq, Found.there.injEq] at hq
    exact hq ▸ .refl _
  · have he' := he (hc _)
    have hst : w.next.stat true dst = .ok ⟨p, k⟩ := World.stat_of_there hp hk
    simp [World.setAttr, hst] at he'
  · rw [World.stat_of_there hp hk, Except.ok.injEq] at hs
    exact fun q hq => hout q (by rwa [← hs])

theorem setMode_spec {x : CpOptions} {src : Stat} {d : Dst}
    (hp : w.fs.resolve w.cwd true dst = .ok (.there p)) :
    wp (setMode x src dst d) (fun failed w' => AttrSet S p w w' ∧ (w.Calm → failed = false))
      (fun _ _ => False) w := by
  have hchmod : ∀ m, wp (chmod dst m) (fun r w' => AttrSet S p w w' ∧ (w.Calm → r = .ok ()))
      (fun _ _ => False) w := fun m => setAttr_spec .chmod _ hp
  -- what is returned where the result of `chmod` is looked at
  have hmode : ∀ (k : Except Errno Unit → Prog Bool) (m : ℕ), (∀ e, k (.error e) = pure true) →
      k (.ok ()) = pure false → wp (chmod dst m >>= k)
      (fun failed w' => AttrSet S p w w' ∧ (w.Calm → failed = false)) (fun _ _ => False) w := by
    intro k m hke hko
    rw [wp_bind]
    refine wp_mono (hchmod m) (fun r w' h => ?_) fun _ _ h => h
    cases r with
    | error e =>
      rw [hke]
      exact ⟨h.1, fun hc => by simpa using h.2 hc⟩
    | ok u =>
      rw [hko]
      exact ⟨h.1, fun _ => rfl⟩
  unfold setMode
  split_ifs with h₁ h₂
  · exact hmode _ _ (fun _ => rfl) rfl
  · exact hmode _ _ (fun _ => rfl) rfl
  · rw [wp_bind, wp_discard]
    exact wp_mono (hchmod _) (fun r w' h => ⟨h.1, fun _ => rfl⟩) fun _ _ h => h
  · cases d.fixMode with
    | none => exact ⟨.refl .., fun _ => rfl⟩
    | some m => exact hmode _ m (fun _ => rfl) rfl

theorem setAttributes_spec {x : CpOptions} {src : Stat} {d : Dst}
    (hp : w.fs.resolve w.cwd true dst = .ok (.there p)) :
    wp (setAttributes x src dst d) (fun failed w' => AttrSet S p w w' ∧
      (w.Calm → failed = false)) (fun _ _ => False) w := by
  unfold setAttributes
  split_ifs
  · rw [wp_bind, wp_discard]
    refine wp_mono (setAttr_spec (S := S) .utime _ hp) (fun r w₁ h₁ => ?_) fun _ _ h => h
    refine wp_mono (setMode_spec (S := S) (h₁.1.resolve hp)) (fun failed w' h => ?_)
      fun _ _ h => h
    exact ⟨h₁.1.trans h.1, fun hc => h.2 (h₁.1.within.calm hc)⟩
  · exact setMode_spec hp

end Attributes

/-! ## Objects that are no directories -/

/-- An object has been copied to `p` : `dst` names the copy, and nothing has happened
anywhere else. A file copied onto itself is empty. -/
structure ObjectMade (S : Loc) (w w' : World) (src : Stat) (dst : Path) (p : Loc) : Prop where
  within : Within S p w w'
  resolve : w'.fs.resolve w'.cwd (!src.node.content.isLnk) dst = .ok (.there p)
  node : ∃ k, w'.fs.node p = some k ∧
    k.content.data = if src.ino = p then .reg [] false else src.node.content.data
  log : Effect.write p ∈ w'.log ∨ Effect.create p ∈ w'.log

theorem content_eq_reg {k : Node} {s : Loc} {fs : FS} (hn : fs.node s = some k)
    (hd : k.isDir = false) (hl : k.content.isLnk = false) :
    k.content.data = .reg (contentAt fs s) false := by
  obtain ⟨c, m, a, n⟩ := k
  cases c with
  | reg bytes sparse => simp [Content.data, contentAt, hn]
  | lnk t => simp [Content.isLnk] at hl
  | dir => simp [Node.isDir] at hd

theorem copyObject_spec {S : Loc} {x : CpOptions} {src : Stat} {srcPath dst : Path} {d : Dst}
    {w : World} (hS : Above S src.ino) (hd : src.node.isDir = false)
    (hn : ∀ s, w.fs.resolve w.cwd (!src.node.content.isLnk) srcPath = .ok (.there s) →
      s = src.ino ∧ w.fs.node s = some src.node) :
    wp (copyObject x src srcPath dst d) (fun failed w' =>
      ((failed = true ∧ w'.fs = w.fs ∧ ∀ R, Within S R w w') ∨
        ∃ p, w.fs.target w.cwd (!src.node.content.isLnk) dst = some p ∧ Within S p w w' ∧
          (failed = false → ObjectMade S w w' src dst p ∧ w.fs.node src.ino = some src.node)) ∧
      (w.Calm → w.fs.resolve w.cwd (!src.node.content.isLnk) srcPath = .ok (.there src.ino) →
        (∃ q n, w.fs.resolve w.cwd (!src.node.content.isLnk) dst = .ok (.absent q n false)) →
        failed = false)) (fun _ _ => False) w := by
  have hS' : ∀ s, w.fs.resolve w.cwd (!src.node.content.isLnk) srcPath = .ok (.there s) →
      Above S s := fun s hs => (hn s hs).1 ▸ hS
  unfold copyObject
  cases hl : src.node.content.isLnk with
  | true =>
    rw [hl] at hn hS'
    rw [if_pos rfl]
    refine wp_mono (copyLink_spec hS') (fun failed w' h => ⟨?_, ?_⟩) fun _ _ h => h
    · refine h.1.imp id ?_
      rintro ⟨s, t, q, n, hs, ht, hne', hr, hw, hfs, hlog⟩
      obtain ⟨hrs, hns⟩ := World.stat_ok hs
      obtain ⟨hq, hnone⟩ := FS.resolve_absent hr
      obtain ⟨hino, hsrc⟩ := hn _ hrs
      refine ⟨n :: q, FS.target_of_absent hr, hw,
        fun _ => ⟨⟨hw, ?_, ?_, .inr hlog⟩, hino ▸ hsrc⟩⟩
      · rw [hl, hw.cwd, hfs]
        exact FS.resolve_put hr (by simp) (by simp) (by simpa using hne')
      · refine ⟨_, by rw [hfs]; exact FS.node_put_self (FS.canPut_of_absent hq hnone (by simpa using hne')), ?_⟩
        have hne : src.ino ≠ n :: q := fun h => by
          rw [hino, h, hnone] at hsrc
          simp at hsrc
        rw [hsrc, Option.some.injEq] at hns
        rw [if_neg hne, hns, ht]
    · intro hc hr hd
      refine h.2 hc ?_ hd
      obtain ⟨-, hnode⟩ := hn _ hr
      cases hcont : src.node.content with
      | lnk t => exact ⟨_, t, World.stat_of_there hr hnode, hcont⟩
      | reg bytes sparse => simp [hcont, Content.isLnk] at hl
      | dir => simp [hcont, Content.isLnk] at hl
  | false =>
    rw [hl] at hn hS'
    rw [if_neg (by simp), wp_bind]
    refine wp_mono (copyReg_spec hS') (fun failed w₁ h => ?_) fun _ _ h => h
    have hok : w.Calm → w.fs.resolve w.cwd true srcPath = .ok (.there src.ino) →
        (∃ q n, w.fs.resolve w.cwd true dst = .ok (.absent q n false)) → failed = false := by
      intro hc hr hdst
      have hsd : w.fs.isDir src.ino = false := by rw [FS.isDir_of_node (hn _ hr).2, hd]
      exact h.2 hc ⟨_, _, hr, exists_hasFile hr hsd⟩ (.inr hdst)
    cases failed with
    | true =>
      rw [if_pos rfl]
      refine ⟨?_, fun hc hr hdst => hok hc hr hdst⟩
      rcases h.1 with h | ⟨s, p, -, hmade, -⟩
      · exact .inl h
      · exact .inr ⟨p, hmade.target, hmade.within, by simp⟩
    | false =>
      rw [if_neg (by simp)]
      rcases h.1 with h | ⟨s, p, hs, hmade, hcont⟩
      · simp at h
      obtain ⟨rfl, hsrc⟩ := hn _ hs
      refine wp_mono (setAttributes_spec (S := S) hmade.resolve) (fun failed w₂ h₂ => ?_)
        fun _ _ h => h
      obtain ⟨hattr, hcalm⟩ := h₂
      have hw := hmade.within.trans hattr.within
      refine ⟨.inr ⟨p, hmade.target, hw, fun _ => ⟨⟨hw, ?_, ?_, ?_⟩, hsrc⟩⟩,
        fun hc _ _ => hcalm (hmade.within.calm hc)⟩
      · rw [hl]
        exact hattr.resolve hmade.resolve
      · obtain ⟨k, sparse, hk, hkc⟩ := hattr.contents.hasFile (hcont rfl)
        refine ⟨k, hk, ?_⟩
        rw [hkc, Content.data, content_eq_reg hsrc hd hl]
        split_ifs <;> rfl
      · obtain ⟨l, hlog, -⟩ := hattr.within.log
        rw [hlog]
        exact hmade.log.imp (List.mem_append_left _) (List.mem_append_left _)

/-- `copy_internal` for an object that is no directory. -/
theorem wp_copyInternal_of_file {x : CpOptions} {depth : ℕ} {srcPath dst : Path} {newDst : Bool}
    {ancestors : List Loc} {h : HTab} {w : World} {src : Stat}
    (hsrc : w.stat x.dereference srcPath = .ok src) (hd : src.node.isDir = false)
    (hh : h.lookup src.ino ≠ some none) {Q : Bool × HTab → World → Prop}
    {E : Stop → World → Prop}
    (hwp : wp (prepareDst x src dst newDst) (fun r w' =>
      match r with
      | none => Q (true, (rememberCopied h dst src.ino).1) w'
      | some d => wp (copyObject x src srcPath dst d)
          (fun failed w'' => Q (failed, (rememberCopied h dst src.ino).1) w'') E w') E w) :
    wp (copyInternal x (depth + 1) srcPath dst newDst ancestors h) Q E w := by
  have hearlier : (rememberCopied h dst src.ino).2 ≠ some none := by
    unfold rememberCopied hashInsert
    cases hl : h.lookup src.ino with
    | none => simp
    | some e => simpa [hl] using hh
  rw [copyInternal, wp_bind, wp_xstat, hsrc]
  simp only [hearlier, if_false, hd, Bool.false_and, Bool.false_eq_true, wp_bind]
  refine wp_mono hwp (fun r w' hr => ?_) fun _ _ h => h
  cases r with
  | none => exact hr
  | some d =>
    rw [wp_bind]
    exact hr

/-- Where the copy of an object that is no directory goes. -/
inductive Lands (x : CpOptions) (src : Stat) (newDst : Bool) (w : World) (dst : Path) : Loc → Prop
  /-- In the place of what has been removed. -/
  | replaced {s : Stat} {p : Loc} (hs : w.stat x.dereference dst = .ok s)
      (hd : s.node.isDir = false) (hp : w.fs.resolve w.cwd false dst = .ok (.there p)) :
      Lands x src newDst w dst p
  | new {p : Loc} (hp : w.fs.target w.cwd (!src.node.content.isLnk) dst = some p)
      (h : newDst = true ∨ w.stat x.dereference dst = .error .noent) : Lands x src newDst w dst p
  /-- Over what could not be removed. -/
  | through {s : Stat} {p : Loc} (hp : w.fs.target w.cwd (!src.node.content.isLnk) dst = some p)
      (hs : w.stat x.dereference dst = .ok s) (hd : s.node.isDir = false)
      (hfree : ¬w.Free .unlink) : Lands x src newDst w dst p

section CopyInternal

variable {S : Loc} {x : CpOptions} {src : Stat} {srcPath dst : Path} {newDst : Bool}
  {w w' : World}

theorem dereference_of_isLnk (hsrc : w.stat x.dereference srcPath = .ok src)
    (hl : src.node.content.isLnk = true) : x.dereference = false := by
  cases hx : x.dereference with
  | false => rfl
  | true =>
    obtain ⟨hr, hn⟩ := World.stat_ok hsrc
    rw [hx] at hr
    obtain ⟨k, hk, hne⟩ := FS.plain_of_resolve hr
    rw [hn, Option.some.injEq] at hk
    cases hc : src.node.content with
    | lnk t => exact absurd (hk ▸ hc) (hne t)
    | reg bytes sparse => simp [hc, Content.isLnk] at hl
    | dir => simp [hc, Content.isLnk] at hl

/-- The object that `xstat` found is the one that is opened or read. -/
theorem resolve_of_xstat (hsrc : w.stat x.dereference srcPath = .ok src) :
    w.fs.resolve w.cwd (!src.node.content.isLnk) srcPath = .ok (.there src.ino) := by
  obtain ⟨hr, hn⟩ := World.stat_ok hsrc
  cases hl : src.node.content.isLnk with
  | true => rwa [dereference_of_isLnk hsrc hl] at hr
  | false =>
    cases hx : x.dereference with
    | true => rwa [hx] at hr
    | false =>
      rw [hx] at hr
      refine FS.resolve_of_plain ⟨src.node, hn, fun t ht => ?_⟩ hr
      simp [ht, Content.isLnk] at hl

/-- There is nothing where a copy goes if its path was found to be new. -/
theorem node_eq_none_of_noent {follow follow' : Bool} {p : Loc}
    (hf : follow' = false → follow = false) (hs : w.stat follow dst = .error .noent)
    (hp : w.fs.target w.cwd follow' dst = some p) : w.fs.node p = none := by
  have hthere : ∀ q, w.fs.resolve w.cwd follow dst ≠ .ok (.there q) := fun q hq => by
    obtain ⟨k, hk⟩ := FS.exists_node_of_resolve hq
    simp [World.stat_of_there hq hk] at hs
  unfold FS.target at hp
  split at hp
  · rename_i q hq
    exfalso
    cases follow' with
    | false => exact hthere q (hf rfl ▸ hq)
    | true =>
      cases follow with
      | true => exact hthere q hq
      | false =>
        obtain ⟨r, hr, -⟩ := FS.exists_entry hq
        exact hthere r hr
  · rename_i q n s hq
    rw [Option.some.injEq] at hp
    exact hp ▸ (FS.resolve_absent hq).2
  · simp at hp

/-- Nothing that is removed makes the source another object. -/
theorem source_of_remove {p : Loc} (hsrc : w.stat x.dereference srcPath = .ok src)
    (hpd : w.fs.isDir p = false) (hfs : w'.fs = w.fs.remove p) (hcwd : w'.cwd = w.cwd) (s : Loc)
    (hs : w'.fs.resolve w'.cwd (!src.node.content.isLnk) srcPath = .ok (.there s)) :
    s = src.ino ∧ w'.fs.node s = some src.node := by
  obtain ⟨k, hk⟩ := FS.exists_node_of_resolve hs
  rw [hfs, hcwd] at hs
  have hs' := FS.resolve_extends (FS.extends_remove p) hs
  rw [resolve_of_xstat hsrc, Except.ok.injEq, Found.there.injEq] at hs'
  subst hs'
  have hne : src.ino ≠ p := fun h => by
    rw [hfs, h, FS.node_remove_self hpd] at hk
    simp at hk
  exact ⟨rfl, by rw [hfs, FS.node_remove_of_ne hne, (World.stat_ok hsrc).2]⟩

/-- `copy_internal` for an object that is no directory. -/
theorem copyInternal_file {depth : ℕ} {ancestors : List Loc} {h : HTab}
    (hsrc : w.stat x.dereference srcPath = .ok src) (hd : src.node.isDir = false)
    (hh : h.lookup src.ino ≠ some none) (hS : Above S src.ino) :
    wp (copyInternal x (depth + 1) srcPath dst newDst ancestors h) (fun r w' =>
      r.2 = (rememberCopied h dst src.ino).1 ∧
      ((r.1 = true ∧ w'.fs = w.fs ∧ ∀ R, Within S R w w') ∨
        ∃ p, Lands x src newDst w dst p ∧ Within S p w w' ∧
          (r.1 = false → ObjectMade S w w' src dst p ∧
            (src.ino = p → newDst = true ∨ ¬w.Free .unlink)))) (fun _ _ => False) w := by
  have hr := resolve_of_xstat hsrc
  have hn := (World.stat_ok hsrc).2
  refine wp_copyInternal_of_file hsrc hd hh (wp_mono (prepareDst_spec (S := S))
    (fun r w₁ hready => ?_) fun _ _ h => h)
  -- where the file system is as it was, the copy goes to what the path names
  have hsame : w₁.fs = w.fs → (∀ R, Within S R w w₁) →
      (∀ p, w.fs.target w.cwd (!src.node.content.isLnk) dst = some p →
        Lands x src newDst w dst p ∧ (src.ino = p → newDst = true ∨ ¬w.Free .unlink)) →
      ∀ d, wp (copyObject x src srcPath dst d)
        (fun failed w'' => (failed, (rememberCopied h dst src.ino).1).2 =
            (rememberCopied h dst src.ino).1 ∧
          ((failed = true ∧ w''.fs = w.fs ∧ ∀ R, Within S R w w'') ∨
            ∃ p, Lands x src newDst w dst p ∧ Within S p w w'' ∧
              (failed = false → ObjectMade S w w'' src dst p ∧
                (src.ino = p → newDst = true ∨ ¬w.Free .unlink)))) (fun _ _ => False) w₁ := by
    intro hfs hw hlands d
    have hcwd := (hw []).cwd
    refine wp_mono (copyObject_spec hS hd fun s hs => ?_) (fun failed w₂ h₂ => ⟨rfl, ?_⟩)
      fun _ _ h => h
    · rw [hfs, hcwd, hr, Except.ok.injEq, Found.there.injEq] at hs
      exact ⟨hs.symm, by rw [hfs, ← hs, hn]⟩
    · rcases h₂.1 with ⟨hf, hfs₂, hw₂⟩ | ⟨p, hp, hw₂, hmade⟩
      · exact .inl ⟨hf, hfs₂.trans hfs, fun R => (hw R).trans (hw₂ R)⟩
      · rw [hfs, hcwd] at hp
        refine .inr ⟨p, (hlands p hp).1, (hw p).trans hw₂, fun hf => ?_⟩
        obtain ⟨hm, -⟩ := hmade hf
        exact ⟨⟨(hw p).trans hw₂, hm.resolve, hm.node, hm.log⟩, (hlands p hp).2⟩
  cases hready with
  | new hfs hw hnew =>
    refine hsame hfs hw (fun p hp => ⟨.new hp hnew, fun hsp => ?_⟩) _
    refine hnew.imp id fun hnoent => ?_
    have hnone := node_eq_none_of_noent (fun hl => dereference_of_isLnk hsrc (by simpa using hl))
      hnoent hp
    rw [← hsp, hn] at hnone
    simp at hnone
  | stuck hs hds hfree hfs hw d =>
    exact hsame hfs hw (fun p hp => ⟨.through hp hs hds hfree, fun _ => .inr hfree⟩) _
  | refused hfs hw => exact ⟨rfl, .inl ⟨rfl, hfs, hw⟩⟩
  | kept hs hds hsrc' => simp [hd] at hsrc'
  | removed hs hds hp hpd hw hfs =>
    rename_i s p
    have hcwd := hw.cwd
    refine wp_mono (copyObject_spec hS hd fun s hs => source_of_remove hsrc hpd hfs hcwd s hs)
      (fun failed w₂ h₂ => ⟨rfl, .inr ⟨p, .replaced hs hds hp, ?_⟩⟩) fun _ _ h => h
    rcases h₂.1 with ⟨hf, -, hw₂⟩ | ⟨q, hq, hw₂, hmade⟩
    · exact ⟨hw.trans (hw₂ p), by simp [hf]⟩
    · rw [hfs, hcwd] at hq
      obtain rfl := FS.target_remove hp hpd hq
      refine ⟨hw.trans hw₂, fun hf => ?_⟩
      obtain ⟨hm, hino⟩ := hmade hf
      refine ⟨⟨hw.trans hw₂, hm.resolve, hm.node, hm.log⟩, fun hsp => ?_⟩
      rw [hsp, hfs, FS.node_remove_self hpd] at hino
      simp at hino

end CopyInternal

end Makeroot
