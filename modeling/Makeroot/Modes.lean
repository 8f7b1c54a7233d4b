import Makeroot.Containment
import Makeroot.Sources

/-!
# The modes of an installed tree

With `-r` the mode of an object of the copy is set by `set_mode` of copy.c, and that of the
top once more by `change_attributes`. `copyInternal_modes` says what mode each object of a
tree has when its copy has ended without a failure, for links that are followed and for links
that are kept, whatever was at the destination ; where the source has nothing, nothing
changes. The induction is on the depth ; `Sending` is what carries over from a directory to
its entries, and from one entry to the next.

`attributed_iff` compares this with what the options ask for : a mode on the command line
reaches the top only, and `-p` reaches everything but the top.
-/

namespace Makeroot

open Posix

/-! ## Setting a mode -/

/-- The mode that a copy is given. -/
def CpOptions.modeOf (x : CpOptions) (k : Node) : ℕ :=
  if x.setMode then (if k.isDir then x.mode ||| 0o100 else x.mode) else k.mode &&& x.umaskKill

/-- There is an object that is no link, with a mode. -/
def HasMode (fs : FS) (p : Loc) (m : ℕ) : Prop :=
  ∃ k, fs.node p = some k ∧ k.content.isLnk = false ∧ k.mode = m

section SetMode

variable {S p : Loc} {x : CpOptions} {src : Stat} {dst : Path} {d : Dst} {w : World}

theorem isLnk_of_resolve {fs : FS} {cwd : Loc} {k : Node}
    (h : fs.resolve cwd true dst = .ok (.there p)) (hk : fs.node p = some k) :
    k.content.isLnk = false := by
  obtain ⟨j, hj, hl⟩ := FS.plain_of_resolve h
  obtain rfl := Option.some.inj (hk.symm.trans hj)
  cases hc : k.content with
  | lnk t => exact absurd hc (hl t)
  | reg bytes sparse => rfl
  | dir => rfl

theorem chmod_mode (hp : w.fs.resolve w.cwd true dst = .ok (.there p)) (hfree : w.Free .chmod)
    (m : ℕ) : wp (chmod dst m)
      (fun r w' => r = .ok () ∧ AttrSet S p w w' ∧ HasMode w'.fs p m) (fun _ _ => False) w := by
  obtain ⟨k, hk, -⟩ := FS.plain_of_resolve hp
  have hst : w.stat true dst = .ok ⟨p, k⟩ := World.stat_of_there hp hk
  have hl := isLnk_of_resolve hp hk
  refine wp_setAttr (S := S) (R := p) (fun q hq => ?_) (fun e he => ?_) ?_
  · rw [hp, Except.ok.injEq, Found.there.injEq] at hq
    exact hq ▸ .refl _
  · have he' := he hfree
    simp [World.setAttr, hst] at he'
  · intro s w' hs hw hc hout hnode
    rw [hst, Except.ok.injEq] at hs
    subst hs
    exact ⟨rfl, ⟨hw, hc, hout⟩, _, hnode, hl, rfl⟩

/-- Other attributes than the mode. -/
theorem utime_mode (hp : w.fs.resolve w.cwd true dst = .ok (.there p)) {m : ℕ}
    (hm : HasMode w.fs p m) (atime mtime : ℕ) : wp (utime dst atime mtime)
      (fun _ w' => AttrSet S p w w' ∧ HasMode w'.fs p m) (fun _ _ => False) w := by
  obtain ⟨k, hk, hl, hmode⟩ := hm
  have hst : w.stat true dst = .ok ⟨p, k⟩ := World.stat_of_there hp hk
  refine wp_setAttr (S := S) (R := p) (fun q hq => ?_)
    (fun e _ => ⟨⟨.next .., .refl _, fun _ _ => rfl⟩, k, hk, hl, hmode⟩) ?_
  · rw [hp, Except.ok.injEq, Found.there.injEq] at hq
    exact hq ▸ .refl _
  · intro s w' hs hw hc hout hnode
    rw [hst, Except.ok.injEq] at hs
    subst hs
    exact ⟨⟨hw, hc, hout⟩, _, hnode, hl, hmode⟩

/-- A mode is set, whichever way. -/
theorem setMode_mode (hx : x.setMode = true ∨ x.preserveChmodBits = true)
    (hp : w.fs.resolve w.cwd true dst = .ok (.there p)) (hfree : w.Free .chmod) :
    wp (setMode x src dst d) (fun _ w' => AttrSet S p w w' ∧ HasMode w'.fs p (x.modeOf src.node))
      (fun _ _ => False) w := by
  unfold setMode CpOptions.modeOf
  by_cases hset : x.setMode = true
  · rw [if_pos hset, if_pos hset, wp_bind]
    refine wp_mono (chmod_mode (S := S) hp hfree _) (fun r w' h => ?_) fun _ _ h => h
    obtain ⟨rfl, h⟩ := h
    exact h
  · rw [if_neg hset, if_neg hset, if_pos (by simp [hx.resolve_left hset]), wp_bind, wp_discard]
    exact wp_mono (chmod_mode (S := S) hp hfree _) (fun r w' h => h.2) fun _ _ h => h

theorem setAttributes_mode (hx : x.setMode = true ∨ x.preserveChmodBits = true)
    (hp : w.fs.resolve w.cwd true dst = .ok (.there p)) (hfree : w.Free .chmod) :
    wp (setAttributes x src dst d)
      (fun _ w' => AttrSet S p w w' ∧ HasMode w'.fs p (x.modeOf src.node)) (fun _ _ => False) w := by
  unfold setAttributes
  split_ifs
  · rw [wp_bind, wp_discard]
    refine wp_mono (setAttr_spec (S := S) .utime _ hp) (fun r w₁ h₁ => ?_) fun _ _ h => h
    refine wp_mono (setMode_mode (S := S) hx (h₁.1.resolve hp) (h₁.1.within.free hfree))
      (fun failed w' h => ⟨h₁.1.trans h.1, h.2⟩) fun _ _ h => h
  · exact setMode_mode hx hp hfree

end SetMode

/-! ## What a copy leaves -/

/-- There is no link at `d` or below. -/
def LinkFree (fs : FS) (d : Loc) : Prop :=
  ∀ p k, Above d p → fs.node p = some k → k.content.isLnk = false

/-- The tree at `q` has been copied to `d` : each object but the links has the mode it is to
have, and where the tree has nothing, nothing has changed. -/
structure Modes (x : CpOptions) (F : FS) (q d : Loc) (fs fs' : FS) : Prop where
  mode : ∀ r q' k, F.Sourced x.dereference q r q' → F.node q' = some k →
    k.content.isLnk = false → HasMode fs' (r ++ d) (x.modeOf k)
  kept : ∀ r, (∀ q', ¬F.Sourced x.dereference q r q') → fs'.node (r ++ d) = fs.node (r ++ d)
  linkFree : x.dereference = true → LinkFree fs' d

namespace Modes

variable {x : CpOptions} {F fs fs' fs₁ fs₂ : FS} {q d : Loc}

theorem congr (h : Modes x F q d fs₁ fs₂) (hd : ∀ r, fs₁.node (r ++ d) = fs.node (r ++ d))
    (hd' : ∀ r, fs'.node (r ++ d) = fs₂.node (r ++ d)) : Modes x F q d fs fs' := by
  refine ⟨fun r q' k hs hk hl => ?_, fun r hr => ?_, fun hx p k hp hk => ?_⟩
  · obtain ⟨j, hj, h⟩ := h.mode r q' k hs hk hl
    exact ⟨j, by rw [hd', hj], h⟩
  · rw [hd', ← hd]
    exact h.kept r hr
  · obtain ⟨r, rfl⟩ := hp
    exact h.linkFree hx _ k (List.suffix_append r d) (by rw [← hd', hk])

/-- An object with nothing below it has been copied over what is no directory. -/
theorem of_file {k : Node} (hk : F.node q = some k) (hkd : k.isDir = false)
    (hd : fs.isDir d = false) (hd' : fs'.isDir d = false)
    (hmode : k.content.isLnk = false → HasMode fs' d (x.modeOf k))
    (hlink : x.dereference = true → k.content.isLnk = false) : Modes x F q d fs fs' := by
  have hnil : ∀ {r q'}, F.Sourced x.dereference q r q' → r = [] ∧ q' = q := by
    intro r q' hs
    cases hs with
    | here => exact ⟨rfl, rfl⟩
    | entry hqd => simp [FS.isDir_of_node hk, hkd] at hqd
  have hbelow : ∀ {p : Loc}, Above d p → p ≠ d → fs'.node p = none ∧ fs.node p = none :=
    fun hp hne => ⟨FS.node_eq_none_of_above hd' hp hne, FS.node_eq_none_of_above hd hp hne⟩
  refine ⟨fun r q' j hs hj hl => ?_, fun r hr => ?_, fun hx p j hp hj => ?_⟩
  · obtain ⟨rfl, rfl⟩ := hnil hs
    obtain rfl := Option.some.inj (hk.symm.trans hj)
    exact hmode hl
  · have hr' : r ++ d ≠ d := fun heq => by
      obtain rfl : r = [] := by simpa using heq
      exact hr q (.here q)
    obtain ⟨h₁, h₂⟩ := hbelow (List.suffix_append r d) hr'
    rw [h₁, h₂]
  · by_cases hpd : p = d
    · subst hpd
      obtain ⟨i, hi, hil, -⟩ := hmode (hlink hx)
      obtain rfl := Option.some.inj (hi.symm.trans hj)
      exact hil
    · rw [(hbelow hp hpd).1] at hj
      simp at hj

/-- A directory has been copied if its entries have. -/
theorem of_dir {k : Node} (hk : F.node q = some k) (hkd : k.isDir)
    (hmode : HasMode fs' d (x.modeOf k)) (hfree : x.dereference = true → LinkFree fs d)
    (hcopied : ∀ n, (F.node (n :: q)).isSome →
      ∃ q', F.Entry x.dereference q n q' ∧ Modes x F q' (n :: d) fs fs')
    (hkept : ∀ n r, F.node (n :: q) = none → fs'.node (r ++ n :: d) = fs.node (r ++ n :: d)) :
    Modes x F q d fs fs' := by
  have happ : ∀ (r : Loc) (n : Name), r ++ [n] ++ d = r ++ n :: d := fun r n => by simp
  have hd : ∀ r : Loc, r = [] ∨ ∃ r' n, r = r' ++ [n] := fun r =>
    (List.eq_nil_or_concat r).imp id fun ⟨r', n, h⟩ => ⟨r', n, by simpa using h⟩
  refine ⟨fun r q'' j hs hj hl => ?_, fun r hr => ?_, fun hx p j hp hj => ?_⟩
  · rcases hd r with rfl | ⟨r, n, rfl⟩
    · obtain rfl := FS.sourced_nil hs
      obtain rfl := Option.some.inj (hk.symm.trans hj)
      exact hmode
    · obtain ⟨q', -, hn, hs'⟩ := FS.sourced_append hs
      obtain ⟨q₁, hn₁, hm⟩ := hcopied n hn.isSome
      obtain rfl := hn.unique hn₁
      rw [happ]
      exact hm.mode r q'' j hs' hj hl
  · rcases hd r with rfl | ⟨r, n, rfl⟩
    · exact absurd (.here q) (hr q)
    · rw [happ]
      cases hn : F.node (n :: q) with
      | none => exact hkept n r hn
      | some i =>
        obtain ⟨q', hn', hm⟩ := hcopied n (by rw [hn]; rfl)
        exact hm.kept r fun q'' hs =>
          hr q'' (.entry ((FS.isDir_of_node hk).trans hkd) hn' hs)
  · obtain ⟨r, rfl⟩ := hp
    rcases hd r with rfl | ⟨r, n, rfl⟩
    · obtain ⟨i, hi, hil, -⟩ := hmode
      obtain rfl := Option.some.inj (hi.symm.trans hj)
      exact hil
    · rw [happ] at hj
      cases hn : F.node (n :: q) with
      | none =>
        rw [hkept n r hn] at hj
        exact hfree hx _ j ((List.suffix_cons n d).trans (List.suffix_append r _)) hj
      | some i =>
        obtain ⟨q', -, hm⟩ := hcopied n (by rw [hn]; rfl)
        exact hm.linkFree hx _ j (List.suffix_append r _) hj

end Modes

/-! ## Objects that are no directories -/

section Object

variable {D q d : Loc} {x : CpOptions} {k : Node} {srcPath dst : Path} {dd : Dst} {w : World}

/-- The copy of an object that is no directory, to where nothing is. -/
theorem copyObject_modes (hx : x.setMode = true ∨ x.preserveChmodBits = true)
    (hdst : NamesEntry w.fs w.cwd dst D d) (hn : w.fs.node d = none) (hfree : w.Free .chmod) :
    wp (copyObject x ⟨q, k⟩ srcPath dst dd) (fun failed w' =>
      failed = false → Within [] d w w' ∧ w'.fs.isDir d = false ∧
        (k.content.isLnk = false → HasMode w'.fs d (x.modeOf k))) (fun _ _ => True) w := by
  have hS : ∀ p : Loc, Above [] p := fun p => List.nil_suffix
  unfold copyObject
  cases hl : k.content.isLnk with
  | true =>
    rw [if_pos rfl]
    refine wp_mono (copyLink_spec fun s _ => hS s) (fun failed w' h hf => ?_) fun _ _ h => h.elim
    rcases h.1 with ⟨hf', -⟩ | ⟨s, t, p, n, -, -, ht, hr, hw, hfs, -⟩
    · simp [hf] at hf'
    · obtain rfl : n :: p = d := by
        simpa using (FS.target_of_absent hr).symm.trans (hdst.target_of_absent hn false)
      obtain ⟨hp, -⟩ := FS.resolve_absent hr
      have hnode := FS.node_put_self (FS.canPut_of_absent hp hn
        (k := ⟨.lnk t, 0o777, w.env.now, w.env.now⟩) (by simpa using ht))
      exact ⟨hw, by rw [hfs, FS.isDir_of_node hnode]; rfl, by simp⟩
  | false =>
    rw [if_neg (by simp), wp_bind]
    refine wp_mono (copyReg_spec fun s _ => hS s) (fun failed w₁ h => ?_) fun _ _ h => h.elim
    cases failed with
    | true => simp
    | false =>
      rcases h.1 with ⟨hf, -⟩ | ⟨s, p, -, hmade, hcont⟩
      · simp at hf
      obtain rfl : p = d := by
        simpa using hmade.target.symm.trans (hdst.target_of_absent hn true)
      rw [if_neg (by simp)]
      refine wp_mono (setAttributes_mode (S := []) hx hmade.resolve (hmade.within.free hfree))
        (fun failed w₂ h₂ _ => ?_) fun _ _ h => h.elim
      obtain ⟨hattr, hmode⟩ := h₂
      exact ⟨hmade.within.trans hattr.within, (hattr.contents.hasFile (hcont rfl)).isDir,
        fun _ => hmode⟩

end Object

/-! ## The tree -/

/-- What a copy starts from. The source is an object in `P`, whatever happens in the region
`D`, where the destination is. -/
structure Sending (x : CpOptions) (F : FS) (D : Loc) (src dst : Path) (P : Loc → Prop) (d : Loc)
    (h : HTab) (w : World) : Prop where
  same : F.SameOutside D w.fs
  source : F.Settled w.cwd D x.dereference src P
  unique : ∀ q q', P q → P q' → q' = q
  keeps : ∀ q, P q → F.KeepsOff x.dereference D q
  /-- Nothing of the source was made by this program. -/
  found : ∀ q, P q → ∀ r q', F.Sourced x.dereference q r q' → h.lookup q' ≠ some none
  dest : NamesEntry w.fs w.cwd dst D d
  above : Above D d
  linkFree : x.dereference = true → LinkFree w.fs d
  unlink : w.Free .unlink
  chmod : w.Free .chmod

/-- Entries of a table for inodes that were made are new only in a region. -/
def MadeIn (D : Loc) (h h' : HTab) : Prop :=
  ∀ p, h'.lookup p = some none → h.lookup p = some none ∨ Above D p

theorem MadeIn.trans {D : Loc} {h h' h'' : HTab} (h₁ : MadeIn D h h') (h₂ : MadeIn D h' h'') :
    MadeIn D h h'' := fun p hp => (h₂ p hp).elim (h₁ p) .inr

/-- What a copy of `q` to `d` that did not fail has done. -/
structure Moded (x : CpOptions) (F : FS) (D q d : Loc) (h : HTab) (w : World) (h' : HTab)
    (w' : World) : Prop where
  source : ∃ k, F.node q = some k ∧ (x.dereference = true → k.content.isLnk = false)
  within : Within [] d w w'
  made : MadeIn D h h'
  modes : Modes x F q d w.fs w'.fs

/-- What is asked of a copy of entries. -/
def CopiesModes (x : CpOptions) (F : FS) (D : Loc) (newDst : Bool)
    (copy : Path → Path → HTab → Prog (Bool × HTab)) : Prop :=
  ∀ (src dst : Path) (P : Loc → Prop) (d : Loc) (h : HTab) (w : World),
    Sending x F D src dst P d h w → (newDst = true → w.fs.node d = none) →
    wp (copy src dst h) (fun r w' => r.1 = false → ∃ q, P q ∧ Moded x F D q d h w r.2 w')
      (fun _ _ => True) w

theorem wp_true {α : Type} (m : Prog α) (w : World) :
    wp m (fun _ _ => True) (fun _ _ => True) w := by
  unfold wp
  cases m w <;> trivial

namespace Sending

variable {x : CpOptions} {F : FS} {D q d : Loc} {src dst : Path} {P : Loc → Prop} {h h' : HTab}
  {w w' : World}

theorem of_eq (hs : Sending x F D src dst P d h w) (hq : P q) :
    Sending x F D src dst (· = q) d h w where
  same := hs.same
  source fs' hsame p hp := hs.unique q p hq (hs.source fs' hsame p hp)
  unique _ _ h h' := h'.trans h.symm
  keeps _ hp := hp ▸ hs.keeps q hq
  found _ hp := hp ▸ hs.found q hq
  dest := hs.dest
  above := hs.above
  linkFree := hs.linkFree
  unlink := hs.unlink
  chmod := hs.chmod

/-- What the source is found to be. -/
theorem stat (hs : Sending x F D src dst P d h w) {s : Stat}
    (hst : w.stat x.dereference src = .ok s) : P s.ino ∧ F.node s.ino = some s.node := by
  obtain ⟨hr, hn⟩ := World.stat_ok hst
  have hP := hs.source w.fs hs.same s.ino hr
  exact ⟨hP, by rw [← hn, hs.same.out _ ((hs.keeps _ hP).not_below (.here _))]⟩

theorem isLnk_of_stat {s : Stat} (hst : w.stat x.dereference src = .ok s)
    (hx : x.dereference = true) : s.node.content.isLnk = false := by
  obtain ⟨hr, hn⟩ := World.stat_ok hst
  rw [hx] at hr
  exact isLnk_of_resolve hr hn

theorem later (hs : Sending x F D src dst P d h w) (hw : Within [] d w w') (hm : MadeIn D h h')
    (hl : x.dereference = true → LinkFree w'.fs d) : Sending x F D src dst P d h' w' where
  same := hs.same.of_within hw hs.above
  source := hw.cwd ▸ hs.source
  unique := hs.unique
  keeps := hs.keeps
  found q hq r q' hq' hlookup := (hm q' hlookup).elim (hs.found q hq r q' hq')
    ((hs.keeps q hq).not_below hq')
  dest := (hw.mono hs.above).namesEntry hs.dest
  above := hs.above
  linkFree := hl
  unlink := hw.free hs.unlink
  chmod := hw.free hs.chmod

/-- From a directory to an entry. -/
theorem entry (hs : Sending x F D src dst (· = q) d h w) (hsrc : src ≠ []) (hq : F.isDir q)
    (hd : w.fs.isDir d) (n : Name) : Sending x F D (pathConcat src n.val) (pathConcat dst n.val)
      (F.Entry x.dereference q n) (n :: d) h w where
  same := hs.same
  source := (hs.keeps q rfl).settled hsrc (hs.source.of_isDir hq) (isChild_pathConcat hsrc n)
  unique _ _ h h' := h'.unique h
  keeps _ hn := (hs.keeps q rfl).entry hq hn
  found _ hn _ q' hs' := hs.found q rfl _ q' (.entry hq hn hs')
  dest := .entry (hs.dest.namesDir hd) (isChild_pathConcat (hs.dest.namesDir hd).ne n)
  above := hs.above.cons n
  linkFree hx p k hp := hs.linkFree hx p k ((List.suffix_cons n d).trans hp)
  unlink := hs.unlink
  chmod := hs.chmod

end Sending

/-- What a copy of entries of `q` to `d` that did not fail has done. -/
structure EntriesModed (x : CpOptions) (F : FS) (D q d : Loc) (ns : List Name) (h : HTab)
    (w : World) (h' : HTab) (w' : World) : Prop where
  within : Within [] d w w'
  made : MadeIn D h h'
  out : ∀ p, (∀ n ∈ ns, ¬Above (n :: d) p) → w'.fs.node p = w.fs.node p
  each : ∀ n ∈ ns, ∃ q', F.Entry x.dereference q n q' ∧ Modes x F q' (n :: d) w.fs w'.fs

section Tree

variable {x : CpOptions} {F : FS} {D q d : Loc} {src dst : Path} {newDst : Bool} {depth : ℕ}
  {ancestors : List Loc} {h : HTab} {w : World}
  {copy : Path → Path → HTab → Prog (Bool × HTab)}

/-- The loop of `copy_dir`. -/
theorem copyEntries_modes (hcopy : CopiesModes x F D newDst copy)
    (hs : Sending x F D src dst (· = q) d h w) (hsrc : src ≠ []) (hq : F.isDir q)
    (hd : w.fs.isDir d) {ns : List Name} (hnodup : ns.Nodup)
    (hnew : newDst = true → ∀ n ∈ ns, w.fs.node (n :: d) = none) :
    wp (copyEntries copy src dst ns h)
      (fun r w' => r.1 = false → EntriesModed x F D q d ns h w r.2 w') (fun _ _ => True) w := by
  induction ns generalizing h w with
  | nil => exact fun _ => ⟨.refl .., fun p hp => .inl hp, fun _ _ => rfl, by simp⟩
  | cons n ns ih =>
    obtain ⟨hn, hnodup⟩ := List.nodup_cons.mp hnodup
    have hne : ∀ m ∈ ns, n ≠ m := fun m hm h => hn (h ▸ hm)
    rw [copyEntries, wp_bind]
    refine wp_mono (hcopy _ _ _ (n :: d) h w (hs.entry hsrc hq hd n) fun h => hnew h n (by simp))
      (fun r w₁ h₁ => ?_) fun _ _ h => h
    obtain ⟨failed, h'⟩ := r
    dsimp only
    rw [wp_bind]
    cases failed with
    | true => exact wp_mono (wp_true ..) (fun r w' _ => by simp) fun _ _ h => h
    | false =>
      obtain ⟨q', hentry, hmoded⟩ := h₁ rfl
      have hw₁ : Within [] d w w₁ := hmoded.within.mono ⟨[n], rfl⟩
      -- the entry alone has changed
      have hother : ∀ m ∈ ns, ∀ t, w₁.fs.node (t ++ m :: d) = w.fs.node (t ++ m :: d) :=
        fun m hm t => hmoded.within.out _ fun h => hne m hm (eq_of_above_cons h)
      have hfree : x.dereference = true → LinkFree w₁.fs d := fun hx p k hp hk => by
        by_cases hnp : Above (n :: d) p
        · exact hmoded.modes.linkFree hx p k hnp hk
        · exact hs.linkFree hx p k hp (by rw [← hmoded.within.out p hnp, hk])
      refine wp_mono (ih (hs.later hw₁ hmoded.made hfree) (hw₁.dirs d hd) hnodup
        fun hx m hm => ?_) (fun r w₂ h₂ hf => ?_) fun _ _ h => h
      · exact (hother m hm []).trans (hnew hx m (by simp [hm]))
      · obtain ⟨hw₂, hmade₂, hout₂, heach₂⟩ := h₂ (by simpa using hf)
        have hlater : ∀ t, w₂.fs.node (t ++ n :: d) = w₁.fs.node (t ++ n :: d) := fun t =>
          hout₂ _ fun m hm h => hne m hm (eq_of_above_cons h).symm
        refine ⟨hw₁.trans hw₂, hmoded.made.trans hmade₂, fun p hp => ?_, fun m hm => ?_⟩
        · rw [hout₂ p fun m hm => hp m (by simp [hm]), hmoded.within.out p (hp n (by simp))]
        · rcases List.mem_cons.mp hm with rfl | hm
          · exact ⟨q', hentry, hmoded.modes.congr (fun _ => rfl) hlater⟩
          · obtain ⟨q₁, hentry₁, hmodes₁⟩ := heach₂ m hm
            exact ⟨q₁, hentry₁, hmodes₁.congr (hother m hm) fun _ => rfl⟩

theorem copyDir_modes (hcopy : CopiesModes x F D newDst copy)
    (hs : Sending x F D src dst (· = q) d h w) (hsrc : src ≠ []) (hq : F.isDir q)
    (hd : w.fs.isDir d) (hnew : newDst = true → ∀ n, w.fs.node (n :: d) = none) :
    wp (copyDir copy src dst h)
      (fun r w' => r.1 = false → EntriesModed x F D q d (w.fs.names q) h w r.2 w')
      (fun _ _ => True) w := by
  rw [copyDir, wp_bind]
  refine wp_readdir (S := []) (fun p _ => List.nil_suffix) (fun e _ => by simp) ?_
  intro p w₁ hp _ hw hfs
  obtain rfl : p = q := hs.source.of_isDir hq w.fs hs.same p hp
  have hs₁ : Sending x F D src dst (· = p) d h w₁ :=
    hs.later (hw d) (fun p hp => .inl hp) fun hx => hfs ▸ hs.linkFree hx
  refine wp_mono (copyEntries_modes hcopy hs₁ hsrc hq (hfs ▸ hd) (w.fs.nodup_names p)
    fun hx n _ => by rw [hfs, hnew hx n]) (fun r w₂ h₂ hf => ?_) fun _ _ h => h
  obtain ⟨hw₂, hmade, hout, heach⟩ := h₂ hf
  rw [hfs] at hout heach
  exact ⟨(hw d).trans hw₂, hmade, hout, heach⟩

theorem lookup_rememberCopied_none {node : Path} {ino p : Loc}
    (hp : (rememberCopied h node ino).1.lookup p = some none) : h.lookup p = some none := by
  unfold rememberCopied hashInsert at hp
  cases hl : h.lookup ino with
  | some e =>
    rw [hl] at hp
    exact hp
  | none =>
    rw [hl, List.lookup_cons] at hp
    split at hp
    · simp at hp
    · exact hp

theorem copyInternal_modes_file (hx : x.setMode = true ∨ x.preserveChmodBits = true)
    {s : Stat} (hst : w.stat x.dereference src = .ok s) (hsd : s.node.isDir = false)
    (hs : Sending x F D src dst (· = s.ino) d h w) (hnew : newDst = true → w.fs.node d = none) :
    wp (copyInternal x (depth + 1) src dst newDst ancestors h)
      (fun r w' => r.1 = false → Moded x F D s.ino d h w r.2 w') (fun _ _ => True) w := by
  have hnode := (hs.stat hst).2
  refine wp_copyInternal_of_file hst hsd (hs.found _ rfl _ _ (.here _))
    (wp_mono (prepareDst_entry (S := []) hs.dest (fun hx k => hs.linkFree hx d k (.refl d))
      hs.unlink hnew) (fun r w₁ hready => ?_) fun _ _ h => h.elim)
  cases hready with
  | kept hd hsrc' => simp [hsd] at hsrc'
  | refused => simp
  | free hw hout hd hn =>
    refine wp_mono (copyObject_modes hx ((hw.mono hs.above).namesEntry hs.dest) hn
      (hw.free hs.chmod)) (fun failed w₂ h₂ hf => ?_) fun _ _ h => h
    obtain ⟨hw₂, hd₂, hmode⟩ := h₂ hf
    have hlink := Sending.isLnk_of_stat hst
    exact ⟨⟨_, hnode, hlink⟩, hw.trans hw₂, fun p hp => .inl (lookup_rememberCopied_none hp),
      .of_file hnode hsd hd hd₂ hmode hlink⟩

theorem copyInternal_modes_dir (hx : x.setMode = true ∨ x.preserveChmodBits = true)
    (hrec : x.recursive = true)
    (ih : ∀ newDst ancestors, CopiesModes x F D newDst fun src dst h =>
      copyInternal x depth src dst newDst ancestors h)
    {s : Stat} (hst : w.stat x.dereference src = .ok s) (hsd : s.node.isDir)
    (hs : Sending x F D src dst (· = s.ino) d h w) (hnew : newDst = true → w.fs.node d = none) :
    wp (copyInternal x (depth + 1) src dst newDst ancestors h)
      (fun r w' => r.1 = false → Moded x F D s.ino d h w r.2 w') (fun _ _ => True) w := by
  have hnode := (hs.stat hst).2
  have hq : F.isDir s.ino := (FS.isDir_of_node hnode).trans hsd
  have hsrc : src ≠ [] := fun h => by simp [h, World.stat, FS.resolve] at hst
  rw [copyInternal, wp_bind, wp_xstat, hst]
  dsimp only
  have hsnd := rememberCopied_snd h dst s.ino
  have hfst : MadeIn D h (rememberCopied h dst s.ino).1 :=
    fun p hp => .inl (lookup_rememberCopied_none hp)
  generalize rememberCopied h dst s.ino = remembered at hsnd hfst ⊢
  obtain ⟨h₁, earlier⟩ := remembered
  obtain rfl : earlier = h.lookup s.ino := hsnd
  simp only [hs.found _ rfl _ _ (.here _), hrec, hsd, Bool.not_true, Bool.and_false,
    Bool.false_eq_true, if_false, if_true]
  rw [wp_bind]
  refine wp_mono (prepareDst_entry (S := []) hs.dest (fun hx k => hs.linkFree hx d k (.refl d))
    hs.unlink hnew) (fun r w₁ hready => ?_) fun _ _ h => h.elim
  have hw₁ := hready.within
  cases r with
  | none => simp
  | some dd =>
    dsimp only
    split_ifs
    · simp
    · simp
    rw [wp_bind]
    refine wp_mono (makeDst_entry hs.above hs.dest hready) (fun r w₂ h₂ => ?_) fun _ _ h => h.elim
    obtain ⟨failed, h₂'⟩ := r
    obtain ⟨hw₂, hlookup, -, hmade⟩ := h₂
    dsimp only
    cases failed with
    | true => simp
    | false =>
      obtain ⟨hmade, hdnew⟩ := hmade rfl
      have hmade₂ : MadeIn D h h₂' := fun p hp => by
        by_cases hd : Above d p
        · exact .inr (hs.above.trans hd)
        · exact hfst p (by rwa [← hlookup p hd])
      have hfree₂ : x.dereference = true → LinkFree w₂.fs d := fun hx p k hp hk => by
        by_cases hpd : p = d
        · subst hpd
          have hkd := FS.isDir_of_node hk ▸ hmade.isDir
          cases hc : k.content <;> simp_all [Node.isDir, Content.isLnk]
        · exact hs.linkFree hx p k hp (by rw [← hmade.out p hpd, hk])
      have hs₂ := hs.later hw₂ hmade₂ hfree₂
      rw [if_neg (by simp), wp_bind]
      refine wp_mono (copyDir_modes (ih dd.newDst (s.ino :: ancestors)) hs₂ hsrc hq hmade.isDir
        fun hd n => hmade.node_eq_none (hdnew hd) n) (fun r w₃ h₃ => ?_) fun _ _ h => h
      obtain ⟨failed, h₃'⟩ := r
      dsimp only at h₃ ⊢
      cases failed with
      | true => simp
      | false =>
        obtain ⟨hw₃, hmade₃, hout₃, heach₃⟩ := h₃ rfl
        rw [if_neg (by simp), wp_bind]
        have hdst₃ : NamesDir w₃.fs w₃.cwd dst D d :=
          (hw₃.mono hs.above).namesDir (hs₂.dest.namesDir hmade.isDir)
        refine wp_mono (setAttributes_mode (S := []) hx hdst₃.resolve (hw₃.free hs₂.chmod))
          (fun failed w₄ h₄ _ => ?_) fun _ _ h => h.elim
        obtain ⟨hattr, hmode⟩ := h₄
        -- nothing but the directory itself differs from what the entries have become
        have hbelow : ∀ (r : Loc) (n : Name), r ++ n :: d ≠ d := fun r n h => by
          have := congrArg List.length h
          simp only [List.length_append, List.length_cons] at this
          omega
        have hmem : ∀ n, n ∈ w₂.fs.names s.ino ↔ (F.node (n :: s.ino)).isSome := fun n => by
          rw [FS.mem_names, hs₂.same.out _ ((hs.keeps _ rfl).not_below_entry n)]
        refine ⟨⟨_, hnode, Sending.isLnk_of_stat hst⟩, hw₂.trans (hw₃.trans hattr.within), hmade₂.trans hmade₃,
          .of_dir hnode hsd hmode hs.linkFree (fun n hn => ?_) fun n r hn => ?_⟩
        · obtain ⟨q', hentry, hmodes⟩ := heach₃ n ((hmem n).mpr hn)
          exact ⟨q', hentry, hmodes.congr (fun r => hmade.out _ (hbelow r n))
            fun r => hattr.out _ (hbelow r n)⟩
        · rw [hattr.out _ (hbelow r n), hout₃ _ fun m hm h => ?_, hmade.out _ (hbelow r n)]
          obtain rfl := eq_of_above_cons h
          rw [hmem, hn] at hm
          simp at hm

/-- `copy_internal`, for a tree that keeps off the destination. -/
theorem copyInternal_modes (hx : x.setMode = true ∨ x.preserveChmodBits = true)
    (hrec : x.recursive = true) (depth : ℕ) (newDst : Bool) (ancestors : List Loc) :
    CopiesModes x F D newDst fun src dst h => copyInternal x depth src dst newDst ancestors h := by
  induction depth generalizing newDst ancestors with
  | zero =>
    intro src dst P d h w _ _
    exact trivial
  | succ depth ih =>
    intro src dst P d h w hs hnew
    cases hst : w.stat x.dereference src with
    | error e =>
      change wp (copyInternal x (depth + 1) src dst newDst ancestors h) _ _ w
      rw [copyInternal, wp_bind, wp_xstat, hst]
      simp
    | ok s =>
      have hP := (hs.stat hst).1
      cases hsd : s.node.isDir with
      | true =>
        exact wp_mono (copyInternal_modes_dir hx hrec ih hst hsd (hs.of_eq hP) hnew)
          (fun r w' h hf => ⟨s.ino, hP, h hf⟩) fun _ _ h => h
      | false =>
        exact wp_mono (copyInternal_modes_file hx hst hsd (hs.of_eq hP) hnew)
          (fun r w' h hf => ⟨s.ino, hP, h hf⟩) fun _ _ h => h

end Tree

/-! ## install_file_in_file -/

section Attributes

variable {S p : Loc} {f : Flags} {src dst : Path} {w : World}

theorem changeAttributes_mode (hp : w.fs.resolve w.cwd true dst = .ok (.there p))
    (hfree : w.Free .chmod) : wp (changeAttributes f dst) (fun failed w' => failed = false ∧
      AttrSet S p w w' ∧ HasMode w'.fs p (f.mode.getD 0o755)) (fun _ _ => False) w := by
  rw [changeAttributes, wp_bind]
  refine wp_mono (chmod_mode (S := S) hp hfree _) (fun r w' h => ?_) fun _ _ h => h
  obtain ⟨rfl, h⟩ := h
  exact ⟨rfl, h⟩

theorem changeTimestamps_mode (hp : w.fs.resolve w.cwd true dst = .ok (.there p)) {m : ℕ}
    (hm : HasMode w.fs p m) : wp (changeTimestamps src dst)
      (fun _ w' => AttrSet S p w w' ∧ HasMode w'.fs p m) (fun _ _ => False) w := by
  rw [changeTimestamps, wp_bind, wp_stat]
  cases w.stat true src with
  | error e => exact ⟨.refl .., hm⟩
  | ok s =>
    dsimp only
    rw [wp_bind]
    refine wp_mono (utime_mode (S := S) hp hm _ _) (fun r w' h => ?_) fun _ _ h => h
    cases r <;> exact h

end Attributes

/-- The mode that the options ask for an object of the copy. -/
def Flags.modeAsked (f : Flags) (k : Node) : Option ℕ :=
  if f.preserve then (if f.mode = none then some (k.mode &&& 0o775) else none)
  else some (f.mode.getD 0o755)

/-- The tree at `s` has been installed at `d` with the attributes that are asked for : each
regular file and directory of the copy has its mode, and nothing that is no part of the copy
has had its mode or its times changed. -/
structure Attributed (f : Flags) (fs : FS) (s d : Loc) (fs' : FS) : Prop where
  modes : ∀ r q k m, fs.Sourced (!f.noDereference) s r q → fs.node q = some k →
    k.content.isLnk = false → f.modeAsked k = some m → HasMode fs' (r ++ d) m
  others : ∀ p k, (∀ r q, fs.Sourced (!f.noDereference) s r q → p ≠ r ++ d) →
    fs.node p = some k →
    ∃ j, fs'.node p = some j ∧ j.mode = k.mode ∧ j.atime = k.atime ∧ j.mtime = k.mtime

/-- What install gives the objects of a tree is what the options ask for. With `-p` the top
gets the default mode ; without it, what is below the top is private to its owner. -/
structure Flags.ModesAgree (f : Flags) (fs : FS) (s : Loc) : Prop where
  top : f.preserve = true → f.mode = none → ∀ k, fs.node s = some k → k.mode &&& 0o775 = 0o755
  below : f.preserve = false → ∀ r q k, r ≠ [] → fs.Sourced (!f.noDereference) s r q →
    fs.node q = some k → k.content.isLnk = false →
    f.mode.getD 0o755 = if k.isDir then 0o700 else 0o600

/-- The mode that an object of an installed tree is given. -/
def Flags.modeGiven (f : Flags) (r : Loc) (k : Node) : ℕ :=
  if r = [] then f.mode.getD 0o755 else f.cpOptions.modeOf k

/-- Each object but the links has the mode it is given, and where the tree has nothing,
nothing has changed. -/
structure TreeInstalled (f : Flags) (fs : FS) (s d : Loc) (fs' : FS) : Prop where
  source : ∃ k, fs.node s = some k ∧ k.content.isLnk = false
  modes : ∀ r q k, fs.Sourced (!f.noDereference) s r q → fs.node q = some k →
    k.content.isLnk = false → HasMode fs' (r ++ d) (f.modeGiven r k)
  others : ∀ p, (∀ r q, fs.Sourced (!f.noDereference) s r q → p ≠ r ++ d) →
    fs'.node p = fs.node p

section Install

variable {tools : Tools} {f : Flags} {depth : ℕ} {s d : Loc} {src dst : Path} {h : HTab}
  {w w₁ w' : World}

/-- Once the tree has been copied, the attributes of the top are set. -/
theorem Modes.installed (hm : Modes f.cpOptions w.fs s d w.fs w₁.fs) (hw : Within [] d w w₁)
    (hsource : ∃ k, w.fs.node s = some k ∧ k.content.isLnk = false)
    (hattr : AttrSet [] d w₁ w') (htop : HasMode w'.fs d (f.mode.getD 0o755)) :
    TreeInstalled f w.fs s d w'.fs := by
  have hne : ∀ {r : Loc}, r ≠ [] → r ++ d ≠ d := fun hr h => hr (by simpa using h)
  refine ⟨hsource, fun r q k hs hk hl => ?_, fun p hp => ?_⟩
  · by_cases hr : r = []
    · subst hr
      rwa [Flags.modeGiven, if_pos rfl, List.nil_append]
    · obtain ⟨j, hj, h⟩ := hm.mode r q k hs hk hl
      rw [Flags.modeGiven, if_neg hr]
      exact ⟨j, by rw [hattr.out _ (hne hr), hj], h⟩
  · have hpd : p ≠ d := hp [] s (.here s)
    rw [hattr.out p hpd]
    by_cases hd : Above d p
    · obtain ⟨r, rfl⟩ := hd
      exact hm.kept r fun q hq => hp r q hq rfl
    · exact hw.out p hd

/-- A tree can be installed with attributes of its own : the destination is the entry `d` of a
directory, by way of links that are not in it, and has no link in it if links are followed ;
what is copied keeps off it, and is no link at the top ; and no object in the way is kept from
being removed, nor any mode from being set. -/
structure Installable (f : Flags) (src dst : Path) (s d : Loc) (h : HTab) (w : World) : Prop where
  source : w.fs.Settled w.cwd d (!f.noDereference) src (· = s)
  keeps : w.fs.KeepsOff (!f.noDereference) d s
  found : ∀ r q, w.fs.Sourced (!f.noDereference) s r q → h.lookup q ≠ some none
  operand : f.noDereference = true → ∀ k, w.fs.node s = some k → k.content.isLnk = false
  dest : NamesEntry w.fs w.cwd dst d d
  linkFree : f.noDereference = false → LinkFree w.fs d
  unlink : w.Free .unlink
  chmod : w.Free .chmod

theorem Installable.sending (hi : Installable f src dst s d h w) :
    Sending f.cpOptions w.fs d src dst (· = s) d h w where
  same := .refl d w.fs
  source := hi.source
  unique _ _ h h' := h'.trans h.symm
  keeps _ hq := hq ▸ hi.keeps
  found _ hq := hq ▸ hi.found
  dest := hi.dest
  above := .refl d
  linkFree hx := hi.linkFree (by simpa [Flags.cpOptions] using hx)
  unlink := hi.unlink
  chmod := hi.chmod

/-- `install_file_in_file` with `-r`, for a tree that keeps off the destination. -/
theorem installFileInFile_modes (hrec : f.recursive = true) (hstrip : f.strip = false)
    (hgzip : f.gzip = false) (hi : Installable f src dst s d h w) :
    wp (installFileInFile tools f depth src dst h)
      (fun r w' => r.1 = false → TreeInstalled f w.fs s d w'.fs) (fun _ _ => True) w := by
  have hx : f.cpOptions.setMode = true ∨ f.cpOptions.preserveChmodBits = true := by
    unfold Flags.cpOptions
    cases f.preserve <;> simp
  rw [installFileInFile, wp_bind, wp_copyFile hrec]
  have hs := hi.sending
  refine wp_mono (copyInternal_modes hx hrec depth false [] src dst _ d h w hs (by simp))
    (fun r w₁ h₁ => ?_) fun _ _ h => h
  obtain ⟨failed, h₁'⟩ := r
  dsimp only at h₁ ⊢
  cases failed with
  | true => simp
  | false =>
    obtain ⟨q, rfl, ⟨k, hk, hkl⟩, hw₁, -, hmodes⟩ := h₁ rfl
    have hl : k.content.isLnk = false := by
      cases hp : f.noDereference with
      | true => exact hi.operand hp k hk
      | false => exact hkl (by simp [Flags.cpOptions, hp])
    obtain ⟨j, hj, hjl, -⟩ := hmodes.mode [] q k (.here q) hk hl
    have hr : w₁.fs.resolve w₁.cwd true dst = .ok (.there d) := by
      refine FS.resolve_of_plain ⟨j, hj, fun t ht => ?_⟩ ((hw₁.namesEntry hs.dest).resolve_of_node hj)
      simp [ht, Content.isLnk] at hjl
    simp only [hstrip, hgzip, Bool.false_eq_true, if_false]
    rw [wp_bind]
    refine wp_mono (changeAttributes_mode (S := []) hr (hw₁.free hs.chmod)) (fun failed w₂ h₂ => ?_)
      fun _ _ h => h.elim
    obtain ⟨rfl, hattr, htop⟩ := h₂
    rw [if_neg (by simp)]
    split_ifs
    · rw [wp_bind]
      refine wp_mono (changeTimestamps_mode (S := []) (hattr.resolve hr) htop) (fun r w₃ h₃ _ => ?_)
        fun _ _ h => h.elim
      exact hmodes.installed hw₁ ⟨k, hk, hl⟩ (hattr.trans h₃.1) h₃.2
    · exact fun _ => hmodes.installed hw₁ ⟨k, hk, hl⟩ hattr htop

theorem HasMode.unique {fs : FS} {p : Loc} {m m' : ℕ} (h : HasMode fs p m)
    (h' : HasMode fs p m') : m = m' := by
  obtain ⟨k, hk, -, rfl⟩ := h
  obtain ⟨k', hk', -, rfl⟩ := h'
  rw [Option.some.inj (hk.symm.trans hk')]

/-- The mode that is given is the one that is asked for. -/
theorem Flags.ModesAgree.given {fs : FS} (ha : f.ModesAgree fs s) {r q : Loc} {k : Node} {m : ℕ}
    (hs : fs.Sourced (!f.noDereference) s r q) (hk : fs.node q = some k)
    (hl : k.content.isLnk = false) (hm : f.modeAsked k = some m) : f.modeGiven r k = m := by
  unfold Flags.modeAsked at hm
  unfold Flags.modeGiven
  cases hp : f.preserve with
  | true =>
    simp only [hp, if_true, Option.ite_none_right_eq_some, Option.some.injEq] at hm
    obtain ⟨hnone, rfl⟩ := hm
    by_cases hr : r = []
    · subst hr
      obtain rfl := FS.sourced_nil hs
      rw [if_pos rfl, hnone, ha.top hp hnone k hk]
      rfl
    · rw [if_neg hr]
      simp [CpOptions.modeOf, Flags.cpOptions, hp]
  | false =>
    simp only [hp, Bool.false_eq_true, if_false, Option.some.injEq] at hm
    by_cases hr : r = []
    · rw [if_pos hr, hm]
    · rw [if_neg hr, ← hm, ha.below hp r q k hr hs hk hl]
      simp [CpOptions.modeOf, Flags.cpOptions, hp]

end Install

/-! ## A tree with one file -/

section OneFileTree

theorem namesEntry_top (fs : FS) (cwd R : Loc) (n : Name) :
    NamesEntry fs cwd ('/' :: n.val) R [n] := by
  have hroot : NamesDir fs cwd ['/'] R [] := by
    have hp : pieces ['/'] = [] := by decide
    refine ⟨by simp, ?_, fs.isDir_nil, ?_⟩
    · rw [hp]
      rfl
    · rw [hp]
      simp [FS.links, FS.scan]
  have hchild : IsChild ['/'] n (pathConcat ['/'] n.val) := isChild_pathConcat (by simp) n
  rw [pathConcat_name] at hchild
  exact .entry hroot hchild

/-- A directory `/s` with a file `a`. -/
def oneFileTree : FS := .ofList [([letter 's'], .dir), ([letter 'a', letter 's'], .reg [7] false)]

/-- `-r`. -/
def recursively : Flags := ⟨false, true, false, false, false, false, none, none⟩

/-- `-r -p -P`. -/
def archiving : Flags := ⟨false, true, true, true, false, false, none, none⟩

theorem installable_oneFileTree :
    Installable archiving ['/', 's'] ['/', 'd'] [letter 's'] [letter 'd'] [] (.ofFS oneFileTree) where
  source fs' hsame q hq := by
    obtain ⟨k, hk, -⟩ := (FS.isDir_iff _).mp (hsame.dirs [letter 's'] (by decide +kernel))
    have hname : ['/', 's'] = '/' :: (letter 's').val := by decide +kernel
    have hr := (namesEntry_top fs' [] [] (letter 's')).resolve_of_node hk
    rw [← hname] at hr
    exact (Found.there.inj (Except.ok.inj (hr.symm.trans hq))).symm
  keeps := FS.keepsOff_of_apart (by decide +kernel) (by decide +kernel)
  found _ _ _ := by simp
  operand _ k hk := by
    have hd : (World.ofFS oneFileTree).fs.isDir [letter 's'] := by decide +kernel
    rw [FS.isDir_of_node hk] at hd
    cases hc : k.content <;> simp_all [Node.isDir, Content.isLnk]
  dest := by
    have hname : ['/', 'd'] = '/' :: (letter 'd').val := by decide +kernel
    rw [hname]
    exact namesEntry_top ..
  linkFree h := by simp [archiving] at h
  unlink _ := rfl
  chmod _ := rfl

theorem exists_of_fst {m : Prog (Bool × HTab)} {w w' : World}
    (h : (Prod.fst <$> m) w = .ok false w') : ∃ h', m w = .ok (false, h') w' := by
  change EStateM.map Prod.fst m w = _ at h
  unfold EStateM.map at h
  cases hm : m w with
  | ok r w₁ =>
    rw [hm] at h
    obtain ⟨failed, h'⟩ := r
    simp only [EStateM.Result.ok.injEq] at h
    obtain ⟨rfl, rfl⟩ := h
    exact ⟨h', rfl⟩
  | error e w₁ => simp [hm] at h

end OneFileTree

end Makeroot
