import Makeroot.CopyFile

/-!
# Copying a tree

With `-r` and `-P` a directory is copied with everything below it, and links as links.
`copyInternal_tree` says what becomes of a copy whose operands name entries by way of links
that the copy does not touch : nothing happens anywhere but at the destination, and if the
one tree can be laid over the other it is (`Overlaid`). The induction is on the depth ;
`Layable` is what carries over from a directory to its entries, and from one entry to the
next.
-/

namespace Makeroot

open Posix

/-! ## Two places that have nothing in common -/

section Apart

variable {s d : Loc}

theorem not_above_of_apart (hsd : ¬Above s d) (hds : ¬Above d s) {p : Loc} (hp : Above s p) :
    ¬Above d p := fun h => (hp.total h).elim hsd hds

/-- Entries of two directories that have nothing in common. -/
theorem not_above_cons (hsd : ¬Above s d) (n : Name) : ¬Above (n :: s) (n :: d) := fun h =>
  (above_cons_iff.mp h).elim
    (fun h => hsd (by rw [(List.cons.inj h).2]; exact .refl d))
    fun h => hsd (.trans (List.suffix_cons n s) h)

end Apart

/-! ## Overlays -/

/-- The objects at `s` and below have been laid over those at `d`. -/
structure Overlaid (s d : Loc) (fs fs' : FS) : Prop where
  copied : ∀ r k, fs.node (r ++ s) = some k →
    ∃ j, fs'.node (r ++ d) = some j ∧ j.content.data = k.content.data
  kept : ∀ r, fs.node (r ++ s) = none → fs'.node (r ++ d) = fs.node (r ++ d)

/-- The objects at `s` and below can be laid over those at `d` : no call fails without need,
there is no directory in the way of something else, and `copy_internal` has met none of them
before. -/
structure Layable (depth : ℕ) (ancestors : List Loc) (h : HTab) (s d : Loc) (w : World) :
    Prop where
  calm : w.Calm
  node : (w.fs.node s).isSome
  not_above : ¬Above s d
  not_below : ¬Above d s
  kinds : ∀ r k, w.fs.node (r ++ s) = some k → w.fs.isDir (r ++ d) → k.isDir
  depth : ∀ r, (w.fs.node (r ++ s)).isSome → r.length < depth
  unseen : ∀ p, Above s p → h.lookup p = none
  ancestors : ∀ a ∈ ancestors, ¬Above s a

/-- What a copy of `s` to `d` has done : nothing anywhere else, a directory of a directory
unless it failed, and an overlay if that could be. -/
structure Copied (S s d : Loc) (lays : Prop) (h : HTab) (w : World) (r : Bool × HTab)
    (w' : World) : Prop where
  within : Within S d w w'
  keys : ∀ p, r.2.lookup p ≠ none → h.lookup p ≠ none ∨ Above s p ∨ Above d p
  dir : r.1 = false → w.fs.isDir s → h.lookup s ≠ some none → w'.fs.isDir d
  laid : lays → r.1 = false ∧ Overlaid s d w.fs w'.fs

theorem isDir_congr {fs fs' : FS} {p : Loc} (h : fs'.node p = fs.node p) :
    fs'.isDir p = fs.isDir p := by
  cases hn : fs.node p with
  | none => rw [FS.isDir_of_absent hn, FS.isDir_of_absent (h.trans hn)]
  | some k => rw [FS.isDir_of_node hn, FS.isDir_of_node (h.trans hn)]

namespace Layable

variable {S s d : Loc} {depth : ℕ} {ancestors : List Loc} {h h' : HTab} {w w' : World}

/-- What can be laid over can be in a later world too, if nothing has happened to either
tree. -/
theorem of_same (hl : Layable depth ancestors h s d w) (hcalm : w'.Calm)
    (hs : ∀ r, w'.fs.node (r ++ s) = w.fs.node (r ++ s))
    (hd : ∀ r, w'.fs.isDir (r ++ d) → w.fs.isDir (r ++ d))
    (hh : ∀ p, Above s p → h'.lookup p = none) : Layable depth ancestors h' s d w' where
  calm := hcalm
  node := by
    have := hs []
    rw [List.nil_append] at this
    rw [this]
    exact hl.node
  not_above := hl.not_above
  not_below := hl.not_below
  kinds := fun r k hk hr => hl.kinds r k (by rw [← hs, hk]) (hd r hr)
  depth := fun r hr => hl.depth r (by rwa [← hs])
  unseen := hh
  ancestors := hl.ancestors

/-- The next entry can be laid over when one has been copied. -/
theorem sibling {m n : Name} {lays : Prop} {r : Bool × HTab}
    (hl : Layable depth ancestors h (m :: s) (m :: d) w) (hmn : n ≠ m) (hsd : ¬Above s d)
    (hds : ¬Above d s) (hc : Copied S (n :: s) (n :: d) lays h w r w') :
    Layable depth ancestors r.2 (m :: s) (m :: d) w' := by
  have hout := hc.within.out
  have hs : ∀ {p : Loc}, Above (m :: s) p → Above s p := fun h => .trans (List.suffix_cons m s) h
  have hd : ∀ {n : Name} {p : Loc}, Above (n :: d) p → Above d p :=
    fun h => .trans (List.suffix_cons _ d) h
  refine hl.of_same (hc.within.calm hl.calm) (fun r => hout _ fun h => ?_)
    (fun r hr => ?_) fun p hp => ?_
  · exact not_above_of_apart hsd hds (hs (List.suffix_append r (m :: s))) (hd h)
  · rwa [isDir_congr (hout _ fun h => hmn (eq_of_above_cons h))] at hr
  · by_contra hne
    rcases hc.keys p hne with h | h | h
    · exact h (hl.unseen p hp)
    · obtain ⟨t, rfl⟩ := hp
      exact hmn (eq_of_above_cons h)
    · exact not_above_of_apart hsd hds (hs hp) (hd h)

end Layable

/-! ## The destination of an entry -/

/-- How the destination at `d` is made ready. -/
inductive EntryReady (S d : Loc) (src : Stat) (w w' : World) : Option Dst → Prop
  /-- There is nothing, or no longer. -/
  | free (hw : Within S d w w') (hout : ∀ q, q ≠ d → w'.fs.node q = w.fs.node q)
      (hd : w.fs.isDir d = false) (hn : w'.fs.node d = none) :
      EntryReady S d src w w' (some ⟨true, false, none⟩)
  /-- A directory for a directory. -/
  | kept (hd : w.fs.isDir d) (hsrc : src.node.isDir) (ha : AttrSet S d w w')
      (fixMode : Option ℕ) : EntryReady S d src w w' (some ⟨false, true, fixMode⟩)
  | refused (hw : Within S d w w') (h : w.Calm → w.fs.isDir d ∧ src.node.isDir = false) :
      EntryReady S d src w w' none

section Entry

variable {S R s d : Loc} {x : CpOptions} {src : Stat} {srcPath dst : Path} {newDst : Bool}
  {w : World}

theorem stat_of_namesEntry (hdst : NamesEntry w.fs w.cwd dst R d) :
    w.stat false dst = match w.fs.node d with
      | some k => .ok ⟨d, k⟩
      | none => .error .noent := by
  cases hn : w.fs.node d with
  | some k => exact World.stat_of_there (hdst.resolve_of_node hn) hn
  | none =>
    obtain ⟨q, n, -, hr⟩ := hdst.resolve_of_absent hn
    simp [World.stat, hr false]

/-- Links at the end make no difference where there is none. -/
theorem stat_of_unlinked {follow : Bool} (hdst : NamesEntry w.fs w.cwd dst R d)
    (hl : follow = true → ∀ k, w.fs.node d = some k → k.content.isLnk = false) :
    w.stat follow dst = match w.fs.node d with
      | some k => .ok ⟨d, k⟩
      | none => .error .noent := by
  cases follow with
  | false => exact stat_of_namesEntry hdst
  | true =>
    cases hn : w.fs.node d with
    | some k =>
      refine World.stat_of_there (FS.resolve_of_plain ⟨k, hn, fun t ht => ?_⟩
        (hdst.resolve_of_node hn)) hn
      simpa [ht, Content.isLnk] using hl rfl k hn
    | none =>
      obtain ⟨q, n, -, hr⟩ := hdst.resolve_of_absent hn
      simp [World.stat, hr true]

theorem prepareDst_entry (hdst : NamesEntry w.fs w.cwd dst R d)
    (hl : x.dereference = true → ∀ k, w.fs.node d = some k → k.content.isLnk = false)
    (hfree : w.Free .unlink) (hnew : newDst = true → w.fs.node d = none) :
    wp (prepareDst x src dst newDst) (fun r w' => EntryReady S d src w w' r) (fun _ _ => False)
      w := by
  have hstat := stat_of_unlinked hdst hl
  refine wp_mono (prepareDst_spec (S := S)) (fun r w' hready => ?_) fun _ _ h => h
  cases hready with
  | new hfs hw h =>
    have hn : w.fs.node d = none := by
      rcases h with h | h
      · exact hnew h
      · rw [hstat] at h
        cases hd : w.fs.node d with
        | none => rfl
        | some k => simp [hd] at h
    exact .free (hw d) (fun q _ => by rw [hfs]) (FS.isDir_of_absent hn) (by rw [hfs, hn])
  | kept hs hsd hsrc ha m =>
    rename_i st
    rw [hstat] at hs
    cases hd : w.fs.node d with
    | none => simp [hd] at hs
    | some k =>
      rw [hd, Except.ok.injEq] at hs
      subst hs
      exact .kept ((FS.isDir_of_node hd).trans hsd) hsrc ha m
  | removed hs hsd hp hpd hw hfs =>
    rename_i st p
    have htarget := hdst.target
    rw [FS.target_of_there hp, Option.some.injEq] at htarget
    subst htarget
    exact .free hw (fun q hq => by rw [hfs, FS.node_remove_of_ne hq]) hpd
      (by rw [hfs, FS.node_remove_self hpd])
  | stuck hs hsd hnot => exact absurd hfree hnot
  | refused hfs hw hnew' h =>
    refine .refused (hw d) fun hc => ?_
    rw [hstat] at h
    rcases h with ⟨e, he, h⟩ | ⟨st, h, hsd, hsrc⟩ | h
    · cases hd : w.fs.node d with
      | none => exact absurd (by simpa [hd] using h.symm) he
      | some k => simp [hd] at h
    · cases hd : w.fs.node d with
      | none => simp [hd] at h
      | some k =>
        rw [hd, Except.ok.injEq] at h
        subst h
        exact ⟨(FS.isDir_of_node hd).trans hsd, hsrc⟩
    · exact absurd hc h

/-! ## Objects that are no directories -/

theorem lookup_rememberCopied {h : HTab} {node : Path} {ino p : Loc}
    (hp : (rememberCopied h node ino).1.lookup p ≠ none) : h.lookup p ≠ none ∨ p = ino := by
  unfold rememberCopied hashInsert at hp
  cases hl : h.lookup ino with
  | some e =>
    rw [hl] at hp
    exact .inl hp
  | none =>
    rw [hl, List.lookup_cons] at hp
    by_cases hpi : p = ino
    · exact .inr hpi
    · rw [show (p == ino) = false by simpa using hpi] at hp
      exact .inl hp

/-- What is read of an entry that is no directory, once the destination is ready, is what was
found there. -/
theorem source_of_namesEntry {k : Node} {w' : World}
    (hsrc : NamesEntry w'.fs w'.cwd srcPath R s) (hk : w.fs.node s = some k)
    (hout : ∀ q, q ≠ d → w'.fs.node q = w.fs.node q) (hn : w'.fs.node d = none) :
    (∀ q, w'.fs.resolve w'.cwd (!k.content.isLnk) srcPath = .ok (.there q) →
      q = s ∧ w'.fs.node q = some k) ∧
    (s ≠ d → w'.fs.resolve w'.cwd (!k.content.isLnk) srcPath = .ok (.there s)) := by
  by_cases hsd : s = d
  · subst hsd
    obtain ⟨p, n, -, hr⟩ := hsrc.resolve_of_absent hn
    exact ⟨fun q hq => by simp [hr] at hq, fun h => absurd rfl h⟩
  · have hk' : w'.fs.node s = some k := by rw [hout s hsd, hk]
    have hr := hsrc.resolve_of_node hk'
    have hr' : w'.fs.resolve w'.cwd (!k.content.isLnk) srcPath = .ok (.there s) := by
      cases hl : k.content.isLnk with
      | true => exact hr
      | false =>
        refine FS.resolve_of_plain ⟨k, hk', fun t ht => ?_⟩ hr
        simp [ht, Content.isLnk] at hl
    refine ⟨fun q hq => ?_, fun _ => hr'⟩
    rw [hr', Except.ok.injEq, Found.there.injEq] at hq
    exact ⟨hq.symm, hq ▸ hk'⟩

/-- An object with nothing below it is laid over what is no directory. -/
theorem Overlaid.of_file {fs fs' : FS} {k : Node} (hk : fs.node s = some k)
    (hkd : k.isDir = false) (hd : fs.isDir d = false) {j : Node} (hj : fs'.node d = some j)
    (hc : j.content.data = k.content.data) : Overlaid s d fs fs' := by
  have hjd : j.isDir = false := by
    unfold Node.isDir at hkd ⊢
    cases hjc : j.content <;> cases hkc : k.content <;> simp_all [Content.data]
  have hne : ∀ {r : Loc} {p : Loc}, r ≠ [] → r ++ p ≠ p := fun hr h => by
    simpa [hr] using congrArg List.length h
  refine ⟨fun r i hi => ?_, fun r hr => ?_⟩
  · by_cases hr : r = []
    · subst hr
      rw [List.nil_append, hk, Option.some.injEq] at hi
      exact ⟨j, hj, hi ▸ hc⟩
    · rw [FS.node_eq_none_of_above ((FS.isDir_of_node hk).trans hkd) (List.suffix_append r s)
        (hne hr)] at hi
      simp at hi
  · have hr' : r ≠ [] := fun h => by simp [h, hk] at hr
    rw [FS.node_eq_none_of_above hd (List.suffix_append r d) (hne hr'),
      FS.node_eq_none_of_above ((FS.isDir_of_node hj).trans hjd) (List.suffix_append r d) (hne hr')]

theorem copyInternal_entry_file {depth : ℕ} {ancestors : List Loc} {h : HTab} {k : Node}
    (hx : x.dereference = false) (hS : Above S s) (hR : Above R d)
    (hsrc : NamesEntry w.fs w.cwd srcPath R s) (hdst : NamesEntry w.fs w.cwd dst R d)
    (hfree : w.Free .unlink) (hnew : newDst = true → w.fs.node d = none)
    (hk : w.fs.node s = some k) (hkd : k.isDir = false) :
    wp (copyInternal x (depth + 1) srcPath dst newDst ancestors h) (fun r w' =>
      Copied S s d (Layable (depth + 1) ancestors h s d w) h w r w') (fun _ _ => False) w := by
  have hstat : w.stat x.dereference srcPath = .ok ⟨s, k⟩ := by
    rw [hx, stat_of_namesEntry hsrc, hk]
  by_cases hh : h.lookup s = some none
  · rw [copyInternal, wp_bind, wp_xstat, hstat]
    simp only [rememberCopied, hashInsert, hh, if_true, wp_pure]
    exact ⟨.refl .., fun p hp => .inl hp, fun _ _ h => absurd hh h,
      fun hl => by simp [hl.unseen s (.refl s)] at hh⟩
  have hnd : w.fs.isDir s ≠ true := by rw [FS.isDir_of_node hk, hkd]; simp
  have hkeys : ∀ p, (rememberCopied h dst s).1.lookup p ≠ none →
      h.lookup p ≠ none ∨ Above s p ∨ Above d p := fun p hp =>
    (lookup_rememberCopied hp).imp id fun hps : p = s => .inl (hps ▸ .refl s)
  refine wp_copyInternal_of_file hstat hkd hh (wp_mono (prepareDst_entry (S := S) hdst (by simp [hx]) hfree
    hnew) (fun r w₁ hready => ?_) fun _ _ h => h)
  cases hready with
  | kept hd hsrc' => simp [hkd] at hsrc'
  | refused hw h =>
    refine ⟨hw, hkeys, fun _ h => absurd h hnd, fun hl => ?_⟩
    have := hl.kinds [] k hk (h hl.calm).1
    simp [hkd] at this
  | free hw hout hd hn =>
    have hsrc₁ := (hw.mono hR).namesEntry hsrc
    have hdst₁ := (hw.mono hR).namesEntry hdst
    obtain ⟨hsource, hthere⟩ := source_of_namesEntry hsrc₁ hk hout hn
    refine wp_mono (copyObject_spec hS hkd hsource) (fun failed w₂ h₂ => ?_) fun _ _ h => h
    obtain ⟨h₂, hcalm⟩ := h₂
    refine ⟨?_, hkeys, fun _ h => absurd h hnd, fun hl => ?_⟩
    · rcases h₂ with ⟨-, -, hw₂⟩ | ⟨p, hp, hw₂, -⟩
      · exact hw.trans (hw₂ d)
      · rw [hdst₁.target_of_absent hn, Option.some.injEq] at hp
        exact hw.trans (hp ▸ hw₂)
    · have hne : s ≠ d := fun h => hl.not_above (h ▸ .refl s)
      obtain ⟨q, n, -, hr⟩ := hdst₁.resolve_of_absent hn
      have hfail := hcalm (hw.calm hl.calm) (hthere hne) ⟨q, n, hr _⟩
      refine ⟨hfail, ?_⟩
      rcases h₂ with ⟨hf, -, -⟩ | ⟨p, hp, -, hmade⟩
      · simp [hfail] at hf
      · rw [hdst₁.target_of_absent hn, Option.some.injEq] at hp
        subst hp
        obtain ⟨j, hj, hc⟩ := (hmade hfail).1.node
        rw [if_neg hne] at hc
        exact .of_file hk hkd hd hj hc

end Entry

/-! ## Directories -/

theorem Overlaid.congr {s d : Loc} {fs fs₁ fs₂ fs' : FS} (h : Overlaid s d fs₁ fs₂)
    (hs : ∀ r, fs₁.node (r ++ s) = fs.node (r ++ s)) (hd : ∀ r, fs₁.node (r ++ d) = fs.node (r ++ d))
    (hd' : ∀ r, fs'.node (r ++ d) = fs₂.node (r ++ d)) : Overlaid s d fs fs' := by
  refine ⟨fun r k hk => ?_, fun r hr => ?_⟩
  · rw [hd']
    exact h.copied r k (by rw [hs, hk])
  · rw [hd', ← hd]
    exact h.kept r (by rw [hs, hr])

/-- A directory is laid over a directory if each of its entries is. -/
theorem Overlaid.of_dir {s d : Loc} {fs fs' : FS} (hs : fs.isDir s) (hd : fs'.isDir d)
    (hcopied : ∀ n, (fs.node (n :: s)).isSome → Overlaid (n :: s) (n :: d) fs fs')
    (hkept : ∀ n r, fs.node (n :: s) = none → fs'.node (r ++ n :: d) = fs.node (r ++ n :: d)) :
    Overlaid s d fs fs' := by
  obtain ⟨k, hk, hkc⟩ := FS.content_of_isDir hs
  obtain ⟨j, hj, hjc⟩ := FS.content_of_isDir hd
  have happ : ∀ (r : Loc) (n : Name) (p : Loc), r.concat n ++ p = r ++ n :: p := fun r n p => by
    simp
  refine ⟨fun r i hi => ?_, fun r hr => ?_⟩
  · rcases List.eq_nil_or_concat r with rfl | ⟨r, n, rfl⟩
    · rw [List.nil_append, hk, Option.some.injEq] at hi
      exact ⟨j, hj, by rw [← hi, hkc, hjc]⟩
    · rw [happ] at hi ⊢
      -- what has something at it or below it is there
      have hn : (fs.node (n :: s)).isSome := by
        rcases FS.isDir_of_above hi (List.suffix_append r (n :: s)) with h | h
        · rw [h, hi]
          rfl
        · obtain ⟨i', hi', -⟩ := fs.isDir_iff.mp h
          rw [hi']
          rfl
      exact (hcopied n hn).copied r i hi
  · rcases List.eq_nil_or_concat r with rfl | ⟨r, n, rfl⟩
    · simp [hk] at hr
    · rw [happ] at hr ⊢
      cases hn : fs.node (n :: s) with
      | none => exact hkept n r hn
      | some i => exact (hcopied n (by rw [hn]; rfl)).kept r hr

/-- What is asked of a copy of entries to a depth. -/
def CopiesEntries (S R : Loc) (newDst : Bool) (depth : ℕ) (ancestors : List Loc)
    (copy : Path → Path → HTab → Prog (Bool × HTab)) : Prop :=
  ∀ (src dst : Path) (s d : Loc) (h : HTab) (w : World), Above S s → Above R d →
    NamesEntry w.fs w.cwd src R s → NamesEntry w.fs w.cwd dst R d → w.Free .unlink →
    (newDst = true → w.fs.node d = none) →
    wp (copy src dst h) (fun r w' => Copied S s d (Layable depth ancestors h s d w) h w r w')
      (fun _ w' => Within S d w w' ∧ ¬Layable depth ancestors h s d w) w

/-- Entries of two directories can each be laid over its namesake. -/
structure EntriesLayable (depth : ℕ) (ancestors : List Loc) (h : HTab) (s d : Loc)
    (ns : List Name) (w : World) : Prop where
  not_above : ¬Above s d
  not_below : ¬Above d s
  each : ∀ n ∈ ns, Layable depth ancestors h (n :: s) (n :: d) w

/-- What a copy of entries of `s` to `d` has done. -/
structure EntriesCopied (S s d : Loc) (ns : List Name) (lays : Prop) (h : HTab) (w : World)
    (r : Bool × HTab) (w' : World) : Prop where
  within : Within S d w w'
  out : ∀ p, (∀ n ∈ ns, ¬Above (n :: d) p) → w'.fs.node p = w.fs.node p
  keys : ∀ p, r.2.lookup p ≠ none → h.lookup p ≠ none ∨ Above s p ∨ Above d p
  laid : lays → r.1 = false ∧ ∀ n ∈ ns, Overlaid (n :: s) (n :: d) w.fs w'.fs

section Directory

variable {S R s d : Loc} {x : CpOptions} {src : Stat} {srcPath dst : Path} {newDst : Bool}
  {depth : ℕ} {ancestors : List Loc} {h : HTab} {w : World}
  {copy : Path → Path → HTab → Prog (Bool × HTab)}

/-- The loop of `copy_dir` : what each copy does, they do together. -/
theorem copyEntries_spec (hcopy : CopiesEntries S R newDst depth ancestors copy) (hS : Above S s)
    (hR : Above R d) (hsrc : NamesDir w.fs w.cwd srcPath R s)
    (hdst : NamesDir w.fs w.cwd dst R d) (hfree : w.Free .unlink) {ns : List Name}
    (hnodup : ns.Nodup) (hnew : newDst = true → ∀ n ∈ ns, w.fs.node (n :: d) = none) :
    wp (copyEntries copy srcPath dst ns h) (fun r w' =>
      EntriesCopied S s d ns (EntriesLayable depth ancestors h s d ns w) h w r w')
      (fun _ w' => Within S d w w' ∧ ¬EntriesLayable depth ancestors h s d ns w) w := by
  induction ns generalizing h w with
  | nil => exact ⟨.refl .., fun _ _ => rfl, fun p hp => .inl hp, fun _ => ⟨rfl, by simp⟩⟩
  | cons n ns ih =>
    obtain ⟨hn, hnodup⟩ := List.nodup_cons.mp hnodup
    have hne : ∀ m ∈ ns, n ≠ m := fun m hm h => hn (h ▸ hm)
    have hs : ∀ {m : Name} {p : Loc}, Above (m :: s) p → Above s p :=
      fun h => .trans (List.suffix_cons _ s) h
    have hd : ∀ {m : Name} {p : Loc}, Above (m :: d) p → Above d p :=
      fun h => .trans (List.suffix_cons _ d) h
    rw [copyEntries, wp_bind]
    refine wp_mono (hcopy _ _ (n :: s) (n :: d) h w (hS.cons n) (hR.cons n)
      (.entry hsrc (isChild_pathConcat hsrc.ne n)) (.entry hdst (isChild_pathConcat hdst.ne n))
      hfree fun h => hnew h n (by simp)) (fun r w₁ h₁ => ?_) fun _ w' hw => ?_
    · have hw₁ := h₁.within.mono (hR.cons n)
      have hother : ∀ m ∈ ns, ∀ t, w₁.fs.node (t ++ m :: d) = w.fs.node (t ++ m :: d) :=
        fun m hm t => h₁.within.out _ fun h => hne m hm (eq_of_above_cons h)
      obtain ⟨failed, h'⟩ := r
      dsimp only
      rw [wp_bind]
      have hlays : EntriesLayable depth ancestors h s d (n :: ns) w →
          EntriesLayable depth ancestors h' s d ns w₁ := fun hl =>
        ⟨hl.not_above, hl.not_below, fun m hm =>
          (hl.each m (by simp [hm])).sibling (hne m hm) hl.not_above hl.not_below h₁⟩
      refine wp_mono (ih (hw₁.namesDir hsrc) (hw₁.namesDir hdst) (hw₁.free hfree) hnodup
        fun h m hm => ?_) (fun r w₂ h₂ => ?_) fun _ w' hw => ?_
      · have := hother m hm []
        rw [List.nil_append] at this
        rw [this]
        exact hnew h m (by simp [hm])
      · have hlater : ∀ t, w₂.fs.node (t ++ n :: d) = w₁.fs.node (t ++ n :: d) := fun t =>
          h₂.out _ fun m hm h => hne m hm (eq_of_above_cons h).symm
        refine ⟨(h₁.within.mono ⟨[n], rfl⟩).trans h₂.within, fun p hp => ?_, fun p hp => ?_,
          fun hl => ?_⟩
        · rw [h₂.out p fun m hm => hp m (by simp [hm]), h₁.within.out p (hp n (by simp))]
        · rcases h₂.keys p hp with h | h
          · exact (h₁.keys p h).imp id (Or.imp hs hd)
          · exact .inr h
        · obtain ⟨hf, ho⟩ := h₁.laid (hl.each n (by simp))
          obtain ⟨hf', ho'⟩ := h₂.laid (hlays hl)
          have hf : failed = false := hf
          refine ⟨by simp [hf, hf'], fun m hm => ?_⟩
          rcases List.mem_cons.mp hm with rfl | hm
          · exact ho.congr (fun _ => rfl) (fun _ => rfl) hlater
          · refine (ho' m hm).congr (fun t => ?_) (hother m hm) fun _ => rfl
            exact h₁.within.out _ fun h =>
              not_above_of_apart hl.not_above hl.not_below (hs (List.suffix_append t (m :: s))) (hd h)
      · exact ⟨(h₁.within.mono ⟨[n], rfl⟩).trans hw.1, fun hl => hw.2 (hlays hl)⟩
    · exact ⟨hw.1.mono ⟨[n], rfl⟩, fun hl => hw.2 (hl.each n (by simp))⟩

/-- The destination directory is there : it was made, or it has been there. -/
structure DirMade (S d : Loc) (w w' : World) : Prop where
  within : Within S d w w'
  isDir : w'.fs.isDir d
  out : ∀ q, q ≠ d → w'.fs.node q = w.fs.node q

theorem lookup_hashInsert_none {h : HTab} {ino p : Loc} (hp : p ≠ ino) :
    (hashInsert h ino none).1.lookup p = h.lookup p := by
  unfold hashInsert
  cases hl : h.lookup ino with
  | some e => rfl
  | none => rw [List.lookup_cons, show (p == ino) = false by simpa using hp]

theorem makeDst_entry {dd : Dst} {w₁ : World} (hR : Above R d)
    (hdst : NamesEntry w.fs w.cwd dst R d) (hready : EntryReady S d src w w₁ (some dd)) :
    wp (makeDst x src dst dd h) (fun r w' => Within S d w w' ∧
      (∀ p, ¬Above d p → r.2.lookup p = h.lookup p) ∧
      (w.Calm → r.1 = false) ∧
      (r.1 = false → DirMade S d w w' ∧ (dd.newDst = true → w.fs.isDir d = false)))
      (fun _ _ => False) w₁ := by
  cases hready with
  | kept hd hsrc ha m =>
    exact ⟨ha.within, fun _ _ => rfl, fun _ => rfl, fun _ =>
      ⟨⟨ha.within, ha.within.dirs d hd, ha.out⟩, by simp⟩⟩
  | free hw hout hd hn =>
    have hdst₁ := (hw.mono hR).namesEntry hdst
    obtain ⟨q, n, rfl, hr⟩ := hdst₁.resolve_of_absent hn
    simp only [makeDst, Bool.true_or, if_true, wp_bind]
    refine wp_mkdir (S := S) (R := n :: q) (fun p hp => ?_) (fun e he => ?_) ?_
    · rw [hdst₁.target, Option.some.injEq] at hp
      exact hp ▸ .refl _
    · refine ⟨hw.trans (.next ..), fun _ _ => rfl, fun hc => ?_, by simp⟩
      have he' := he (hw.calm hc .mkdir)
      simp [World.mkdir, hr false] at he'
    · intro p m sl w' hr' hw' hfs _
      rw [hr false, Except.ok.injEq, Found.absent.injEq] at hr'
      obtain ⟨rfl, rfl, -⟩ := hr'
      obtain ⟨hq, -⟩ := FS.resolve_absent (hr false)
      have hdir : w'.fs.isDir (n :: q) := by
        rw [hfs]
        exact FS.isDir_of_node (FS.node_put_self (FS.canPut_of_absent hq hn (by simp)))
      have hname := ((hw'.mono hR).namesEntry hdst₁).namesDir hdir
      obtain ⟨k, hk, -⟩ := (FS.isDir_iff _).mp hdir
      simp only [rememberCreated, wp_bind, wp_stat, World.stat_of_there hname.resolve hk]
      refine ⟨hw.trans hw', fun p hp => ?_, fun _ => rfl, fun _ =>
        ⟨⟨hw.trans hw', hdir, fun p hp => ?_⟩, fun _ => hd⟩⟩
      · exact lookup_hashInsert_none fun heq : p = n :: q => hp (heq ▸ .refl _)
      · rw [hfs, FS.node_put_of_ne hp, hout p hp]

/-- Everything below a directory that is made is new. -/
theorem DirMade.node_eq_none {w' : World} (hm : DirMade S d w w') (hd : w.fs.isDir d = false)
    (n : Name) : w'.fs.node (n :: d) = none := by
  have hne : n :: d ≠ d := fun h => by simpa using congrArg List.length h
  rw [hm.out _ hne]
  exact FS.node_eq_none_of_above hd (List.suffix_cons n d) hne

/-- The entries of a directory can be laid over if the directory can. -/
theorem Layable.entries {h' : HTab} {w' : World}
    (hl : Layable (depth + 1) ancestors h s d w) (hm : DirMade S d w w')
    (hh : ∀ p, h'.lookup p ≠ none → h.lookup p ≠ none ∨ p = s ∨ Above d p) :
    EntriesLayable depth (s :: ancestors) h' s d (w'.fs.names s) w' := by
  have hsame : ∀ r, w'.fs.node (r ++ s) = w.fs.node (r ++ s) := fun r =>
    hm.out _ fun h => hl.not_above (h ▸ List.suffix_append r s)
  have happ : ∀ (r : Loc) (n : Name) (p : Loc), r ++ n :: p = r.concat n ++ p := fun r n p => by
    simp
  have hne : ∀ (r : Loc) (n : Name), r ++ n :: d ≠ d := fun r n h => by
    have := congrArg List.length h
    simp only [List.length_append, List.length_cons] at this
    omega
  refine ⟨hl.not_above, hl.not_below, fun n hn => ⟨hm.within.calm hl.calm, ?_,
    not_above_cons hl.not_above n, not_above_cons hl.not_below n, fun r k hk hr => ?_,
    fun r hr => ?_, fun p hp => ?_, fun a ha hna => ?_⟩⟩
  · exact (FS.mem_names _).mp hn
  · rw [happ, hsame] at hk
    rw [isDir_congr (hm.out _ (hne r n)), happ] at hr
    exact hl.kinds _ k hk hr
  · rw [happ, hsame] at hr
    have := hl.depth _ hr
    rw [List.length_concat] at this
    omega
  · have hp' : Above s p := .trans (List.suffix_cons n s) hp
    by_contra hnone
    rcases hh p hnone with h | rfl | h
    · exact h (hl.unseen p hp')
    · exact not_above_of_cons p n hp
    · exact not_above_of_apart hl.not_above hl.not_below hp' h
  · rcases List.mem_cons.mp ha with rfl | ha
    · exact not_above_of_cons a n hna
    · exact hl.ancestors a ha (.trans (List.suffix_cons n s) hna)

theorem rememberCopied_snd (h : HTab) (node : Path) (ino : Loc) :
    (rememberCopied h node ino).2 = h.lookup ino := by
  unfold rememberCopied hashInsert
  cases h.lookup ino <;> rfl

/-- `copy_dir` : the directory cannot be read, or its entries are copied. -/
theorem copyDir_spec (hcopy : CopiesEntries S R newDst depth ancestors copy) (hS : Above S s)
    (hR : Above R d) (hsrc : NamesDir w.fs w.cwd srcPath R s)
    (hdst : NamesDir w.fs w.cwd dst R d) (hfree : w.Free .unlink)
    (hnew : newDst = true → ∀ n, w.fs.node (n :: d) = none) :
    wp (copyDir copy srcPath dst h) (fun r w' => EntriesCopied S s d (w.fs.names s)
      (w.Calm ∧ EntriesLayable depth ancestors h s d (w.fs.names s) w) h w r w')
      (fun _ w' => Within S d w w' ∧ ¬EntriesLayable depth ancestors h s d (w.fs.names s) w) w := by
  obtain ⟨k, hk, hkd⟩ := w.fs.isDir_iff.mp hsrc.isDir
  rw [copyDir, wp_bind]
  refine wp_readdir (S := S) (fun p hp => ?_) (fun e he => ?_) ?_
  · rw [hsrc.resolve, Except.ok.injEq, Found.there.injEq] at hp
    exact hp ▸ hS
  · refine ⟨.next .., fun _ _ => rfl, fun p hp => .inl hp, fun ⟨hc, _⟩ => ?_⟩
    have he' := he (hc _)
    have hst : w.next.stat true srcPath = .ok ⟨s, k⟩ := World.stat_of_there hsrc.resolve hk
    simp [World.readdir, hst, hkd] at he'
  · intro p w₁ hp _ hw hfs
    rw [hsrc.resolve, Except.ok.injEq, Found.there.injEq] at hp
    subst hp
    have hlays : EntriesLayable depth ancestors h s d (w.fs.names s) w →
        EntriesLayable depth ancestors h s d (w.fs.names s) w₁ := fun hl =>
      ⟨hl.not_above, hl.not_below, fun n hn => (hl.each n hn).of_same
        ((hw d).calm (hl.each n hn).calm) (fun _ => by rw [hfs]) (fun r hr => by rwa [hfs] at hr)
        (hl.each n hn).unseen⟩
    refine wp_mono (copyEntries_spec hcopy hS hR ((hw R).namesDir hsrc) ((hw R).namesDir hdst)
      ((hw R).free hfree) (w.fs.nodup_names s) fun h n _ => by rw [hfs]; exact hnew h n)
      (fun r w₂ h₂ => ?_) fun _ w₂ h₂ => ⟨(hw d).trans h₂.1, fun hl => h₂.2 (hlays hl)⟩
    refine ⟨(hw d).trans h₂.within, fun p hp => by rw [h₂.out p hp, hfs], h₂.keys, fun hl => ?_⟩
    have := h₂.laid (hlays hl.2)
    rwa [hfs] at this

theorem EntryReady.within {src : Stat} {w' : World} {r : Option Dst}
    (h : EntryReady S d src w w' r) : Within S d w w' := by
  cases h with
  | free hw hout hd hn => exact hw
  | kept hd hsrc ha m => exact ha.within
  | refused hw h => exact hw

/-- `copy_internal` for a directory, if its entries are copied as they should be. -/
theorem copyInternal_entry_dir (hx : x.dereference = false) (hrec : x.recursive = true)
    (ih : ∀ newDst ancestors, CopiesEntries S R newDst depth ancestors fun src dst h =>
      copyInternal x depth src dst newDst ancestors h)
    (hS : Above S s) (hR : Above R d)
    (hsrc : NamesEntry w.fs w.cwd srcPath R s) (hdst : NamesEntry w.fs w.cwd dst R d)
    (hfree : w.Free .unlink) (hnew : newDst = true → w.fs.node d = none) {k : Node}
    (hk : w.fs.node s = some k) (hkd : k.isDir) :
    wp (copyInternal x (depth + 1) srcPath dst newDst ancestors h) (fun r w' =>
      Copied S s d (Layable (depth + 1) ancestors h s d w) h w r w')
      (fun _ w' => Within S d w w' ∧ ¬Layable (depth + 1) ancestors h s d w) w := by
  have hsd : w.fs.isDir s := (FS.isDir_of_node hk).trans hkd
  have hstat : w.stat x.dereference srcPath = .ok ⟨s, k⟩ := by
    rw [hx, stat_of_namesEntry hsrc, hk]
  rw [copyInternal, wp_bind, wp_xstat, hstat]
  dsimp only
  have hsnd := rememberCopied_snd h dst s
  have hfst := @lookup_rememberCopied h dst s
  generalize rememberCopied h dst s = remembered at hsnd hfst ⊢
  obtain ⟨h₁, earlier⟩ := remembered
  obtain rfl : earlier = h.lookup s := hsnd
  have hkeys : ∀ p, h₁.lookup p ≠ none → h.lookup p ≠ none ∨ Above s p ∨ Above d p :=
    fun p hp => (hfst hp).imp id fun hps : p = s => .inl (hps ▸ .refl s)
  -- the copy has ended, and for a reason
  have hstop : ∀ {w' : World} {h' : HTab}, Within S d w w' →
      (∀ p, h'.lookup p ≠ none → h.lookup p ≠ none ∨ Above s p ∨ Above d p) →
      ¬Layable (depth + 1) ancestors h s d w →
      Copied S s d (Layable (depth + 1) ancestors h s d w) h w (true, h') w' :=
    fun hw hh hl => ⟨hw, hh, by simp, fun h => absurd h hl⟩
  simp only [hrec, hkd, Bool.not_true, Bool.and_false, Bool.false_eq_true, if_false, if_true, hx,
    Bool.not_false, Bool.true_and]
  by_cases hcreated : h.lookup s = some none
  · rw [if_pos hcreated]
    exact ⟨.refl .., hkeys, fun _ _ h => absurd hcreated h,
      fun hl => by simp [hl.unseen s (.refl s)] at hcreated⟩
  rw [if_neg hcreated, wp_bind]
  refine wp_mono (prepareDst_entry (S := S) hdst (by simp [hx]) hfree hnew) (fun r w₁ hready => ?_)
    fun _ _ h => h.elim
  have hw₁ := hready.within
  cases r with
  | none =>
    cases hready with
    | refused hw h => exact hstop hw hkeys fun hl => by simpa [hkd] using (h hl.calm).2
  | some dd =>
    dsimp only
    by_cases hseen : (h.lookup s).isSome
    · rw [if_pos hseen]
      exact hstop hw₁ hkeys fun hl => by simp [hl.unseen s (.refl s)] at hseen
    by_cases hanc : s ∈ ancestors
    · rw [if_neg hseen, if_pos hanc]
      exact hstop hw₁ hkeys fun hl => hl.ancestors s hanc (.refl s)
    rw [if_neg hseen, if_neg hanc, wp_bind]
    refine wp_mono (makeDst_entry hR hdst hready) (fun r w₂ h₂ => ?_) fun _ _ h => h.elim
    obtain ⟨failed, h₂'⟩ := r
    obtain ⟨hw₂, hlookup, hcalm, hmade⟩ := h₂
    have hkeys₂ : ∀ p, h₂'.lookup p ≠ none → h₁.lookup p ≠ none ∨ Above d p := fun p hp => by
      by_cases hd : Above d p
      · exact .inr hd
      · exact .inl (hlookup p hd ▸ hp)
    have hkeys₂' : ∀ p, h₂'.lookup p ≠ none → h.lookup p ≠ none ∨ Above s p ∨ Above d p :=
      fun p hp => (hkeys₂ p hp).elim (hkeys p) fun h => .inr (.inr h)
    dsimp only
    cases failed with
    | true =>
      rw [if_pos rfl]
      exact hstop hw₂ hkeys₂' fun hl => by simpa using hcalm hl.calm
    | false =>
      obtain ⟨hmade, hdnew⟩ := hmade rfl
      rw [if_neg (by simp), wp_bind]
      have hsrc₂ := ((hw₂.mono hR).namesEntry hsrc).namesDir (hw₂.dirs s hsd)
      have hdst₂ := ((hw₂.mono hR).namesEntry hdst).namesDir hmade.isDir
      have hlays : Layable (depth + 1) ancestors h s d w →
          EntriesLayable depth (s :: ancestors) h₂' s d (w₂.fs.names s) w₂ := fun hl =>
        hl.entries hmade fun p hp => (hkeys₂ p hp).elim
          (fun h => (hfst h).imp id .inl) fun h => .inr (.inr h)
      refine wp_mono (copyDir_spec (ih dd.newDst (s :: ancestors)) hS hR hsrc₂ hdst₂
        (hw₂.free hfree) fun hd n => hmade.node_eq_none (hdnew hd) n) (fun r w₃ h₃ => ?_)
        fun _ w₃ h₃ => ⟨hw₂.trans h₃.1, fun hl => h₃.2 (hlays hl)⟩
      obtain ⟨failed, h₃'⟩ := r
      have hw₃ := hw₂.trans h₃.within
      have hkeys₃ : ∀ p, h₃'.lookup p ≠ none → h.lookup p ≠ none ∨ Above s p ∨ Above d p :=
        fun p hp => (h₃.keys p hp).elim (hkeys₂' p) .inr
      dsimp only
      cases failed with
      | true =>
        rw [if_pos rfl]
        exact hstop hw₃ hkeys₃ fun hl => by
          simpa using (h₃.laid ⟨hw₂.calm hl.calm, hlays hl⟩).1
      | false =>
        rw [if_neg (by simp), wp_bind]
        have hdst₃ := (h₃.within.mono hR).namesDir hdst₂
        refine wp_mono (setAttributes_spec (S := S) hdst₃.resolve) (fun failed w₄ h₄ => ?_)
          fun _ _ h => h.elim
        obtain ⟨hattr, hcalm₄⟩ := h₄
        refine ⟨hw₃.trans hattr.within, hkeys₃, fun _ _ _ => hattr.within.dirs d hdst₃.isDir,
          fun hl => ⟨hcalm₄ (hw₃.calm hl.calm), ?_⟩⟩
        -- nothing but the directory itself differs from what the entries have become
        have hbelow : ∀ (r : Loc) (n : Name), r ++ n :: d ≠ d := fun r n h => by
          have := congrArg List.length h
          simp only [List.length_append, List.length_cons] at this
          omega
        have hs₂ : ∀ r, w₂.fs.node (r ++ s) = w.fs.node (r ++ s) := fun r =>
          hmade.out _ fun h => hl.not_above (h ▸ List.suffix_append r s)
        have hmem : ∀ n, n ∈ w₂.fs.names s ↔ (w.fs.node (n :: s)).isSome := fun n => by
          have := hs₂ [n]
          rw [FS.mem_names]
          simpa using congrArg (fun o => o.isSome = true) this
        refine .of_dir hsd (hattr.within.dirs d hdst₃.isDir) (fun n hn => ?_) fun n r hn => ?_
        · refine ((h₃.laid ⟨hw₂.calm hl.calm, hlays hl⟩).2 n ((hmem n).mpr hn)).congr (fun r => ?_)
            (fun r => hmade.out _ (hbelow r n)) fun r => hattr.out _ (hbelow r n)
          simpa using hs₂ (r.concat n)
        · rw [hattr.out _ (hbelow r n), h₃.out _ fun m hm h => ?_, hmade.out _ (hbelow r n)]
          obtain rfl := eq_of_above_cons h
          rw [hmem, hn] at hm
          simp at hm

/-- `copy_internal` for what two paths name. -/
theorem copyInternal_tree (hx : x.dereference = false) (hrec : x.recursive = true) (depth : ℕ)
    (newDst : Bool) (ancestors : List Loc) : CopiesEntries S R newDst depth ancestors
      fun src dst h => copyInternal x depth src dst newDst ancestors h := by
  induction depth generalizing newDst ancestors with
  | zero =>
    intro src dst s d h w _ _ _ _ _ _
    exact ⟨.refl .., fun hl => absurd (hl.depth [] hl.node) (by simp)⟩
  | succ depth ih =>
    intro src dst s d h w hS hR hsrc hdst hfree hnew
    cases hk : w.fs.node s with
    | none =>
      have hstat : w.stat x.dereference src = .error .noent := by
        rw [hx, stat_of_namesEntry hsrc, hk]
      change wp (copyInternal x (depth + 1) src dst newDst ancestors h) _ _ w
      rw [copyInternal, wp_bind, wp_xstat, hstat]
      exact ⟨.refl .., fun p hp => .inl hp, by simp, fun hl => by simpa [hk] using hl.node⟩
    | some k =>
      cases hkd : k.isDir with
      | true => exact copyInternal_entry_dir hx hrec ih hS hR hsrc hdst hfree hnew hk hkd
      | false =>
        exact wp_mono (copyInternal_entry_file hx hS hR hsrc hdst hfree hnew hk hkd)
          (fun _ _ h => h) fun _ _ h => h.elim

end Directory

end Makeroot
