import Makeroot.Containment
import Makeroot.Items

/-!
# What a line of an item does

The lines of `cmd_install` that put something in place all go to one entry. `Deed` is what such
a line does to it, given what is there, and `Does.run` that the line does so and changes
nothing else. One after another the lines do their deeds (`runCommands_deeds`), as long as each
can do something about what those before it have left (`FitAll`).
-/

namespace Makeroot

open Posix GnuMake

/-! ## Running lines -/

section Run

variable {c : Command} {cs ds : List Command} {Q : Bool → World → Prop}
  {E : Stop → World → Prop} {w : World}

/-- A line that does not fail, and leaves the current directory as it is. -/
theorem wp_runCommands_cons {P : World → Prop}
    (hc : wp c.run (fun failed w' => failed = false ∧ P { w' with cwd := w.cwd })
      (fun _ _ => False) w) (hcs : ∀ w', P w' → wp (runCommands cs) Q E w') :
    wp (runCommands (c :: cs)) Q E w := by
  rw [runCommands, wp_bind]
  refine wp_inShell (wp_mono hc (fun failed w' h => ?_) fun _ _ h => h.elim)
  obtain ⟨rfl, hP⟩ := h
  rw [if_neg (by simp)]
  exact hcs _ hP

theorem wp_runCommands_one {P : World → Prop}
    (hc : wp c.run (fun failed w' => failed = false ∧ P { w' with cwd := w.cwd })
      (fun _ _ => False) w) :
    wp (runCommands [c]) (fun failed w' => failed = false ∧ P w') (fun _ _ => False) w :=
  wp_runCommands_cons hc fun _ h => ⟨rfl, h⟩

/-- Lines after lines that do not fail. -/
theorem wp_runCommands_append {P : World → Prop}
    (hcs : wp (runCommands cs) (fun failed w' => failed = false ∧ P w') (fun _ _ => False) w)
    (hds : ∀ w', P w' → wp (runCommands ds) Q E w') : wp (runCommands (cs ++ ds)) Q E w := by
  induction cs generalizing w with
  | nil => exact hds w hcs.2
  | cons c cs ih =>
    rw [runCommands, wp_bind] at hcs
    rw [List.cons_append, runCommands, wp_bind]
    refine wp_mono hcs (fun failed w' h => ?_) fun _ _ h => h.elim
    cases failed with
    | true => simp at h
    | false =>
      rw [if_neg (by simp)] at h ⊢
      exact ih h

end Run

/-! ## Paths along a way -/

section Ways

variable {fs : FS} {cwd q R : Loc} {t : Path} {us : List Comp} {n : Name}

/-- A path that goes on with one name is that of an entry. -/
theorem namesEntry_of_way (h : fs.Way (start cwd t) us R q) (hp : pieces t = us ++ [.name n])
    (hs : t.getLast? ≠ some '/') : NamesEntry fs cwd t R (n :: q) := by
  have hb : baseName t = n.val := baseName_of_pieces hs hp
  refine .entry (u := dirname t) ?_ (isChild_dirname hb)
  by_cases hslash : '/' ∈ t
  · obtain ⟨hpieces, habs⟩ := pieces_dirname hslash
    rw [hb, pieces_name, hp] at hpieces
    obtain rfl := List.append_cancel_right hpieces
    rw [start, ← habs] at h
    exact .of_way h (dirname_ne_nil t)
  · -- a dot stands for the directory
    have ht : t = n.val := (baseName_of_notMem hslash).symm.trans hb
    rw [ht, pieces_name] at hp
    obtain rfl : us = [] := List.append_cancel_right (hp.symm.trans (List.nil_append _).symm)
    obtain rfl := h.eq_of_nil
    have habs : isAbs t = false := by
      rw [ht, isAbs, decide_eq_false_iff_not]
      exact head?_name n
    rw [dirname, if_neg hslash]
    refine .of_way (.of_scan ?_ h.isDir) (by simp)
    have hd : fs.isDir cwd := by simpa [start, habs] using h.isDir
    have hdot : pieces ['.'] = [.cur] := by decide +kernel
    rw [hdot, start, start, habs, FS.scan, if_pos (by simpa [isAbs] using hd)]
    simp [FS.scan, isAbs]

theorem namesEntry_of_names {ns : List Name} (h : fs.Way (start cwd t) us R q)
    (hp : pieces t = us ++ ns.map .name) (hne : ns ≠ [])
    (hs : t.getLast? = some '/' → fs.isDir (ns.reverse ++ q))
    (hd : fs.isDir (ns.dropLast.reverse ++ q)) : NamesEntry fs cwd t R (ns.reverse ++ q) := by
  have ht : t ≠ [] := fun ht => by
    rw [ht, pieces_nil] at hp
    exact hne (List.map_eq_nil_iff.mp (List.append_eq_nil_iff.mp hp.symm).2)
  by_cases hslash : t.getLast? = some '/'
  · refine .dir (.of_way ?_ ht) hslash
    rw [hp]
    exact h.down (hs hslash)
  · obtain ⟨ms, n, rfl⟩ : ∃ ms n, ns = ms ++ [n] :=
      ⟨_, _, (List.dropLast_append_getLast hne).symm⟩
    rw [List.dropLast_concat] at hd
    rw [List.reverse_append, List.reverse_singleton, List.singleton_append, List.cons_append]
    refine namesEntry_of_way (h.down hd) ?_ hslash
    rw [hp]
    simp

end Ways

/-! ## Where an item goes -/

/-- The target leads from the directory of a tree to the directory `q`, and on along names. No
link on the way is at `R` or below. -/
structure Spot (fs : FS) (cwd : Loc) (x : Path) (target : Text) (R r : Loc) (cs : List Comp)
    (q : Loc) (ns : List Name) : Prop where
  tree : NamesDir fs cwd x R r
  way : fs.Way (start cwd x) (pieces x ++ cs) R q
  names : pieces target = cs ++ ns.map .name
  ne : ns ≠ []

namespace Spot

variable {fs fs' : FS} {cwd R R' r q : Loc} {x : Path} {target : Text} {cs : List Comp}
  {ns : List Name}

theorem keepWays (h : Spot fs cwd x target R r cs q ns) (h' : Spot fs cwd x target R' r cs q ns)
    (hw : fs.KeepsWays R fs') : Spot fs' cwd x target R' r cs q ns :=
  ⟨h.tree.keepWays h'.tree hw, h.way.keepWays h'.way hw, h.names, h.ne⟩

theorem target_ne (h : Spot fs cwd x target R r cs q ns) : target ≠ [] := fun ht => by
  have hp := h.names
  rw [ht, pieces_nil] at hp
  exact h.ne (List.map_eq_nil_iff.mp (List.append_eq_nil_iff.mp hp.symm).2)

theorem start_path (h : Spot fs cwd x target R r cs q ns) (t : Path) :
    start cwd (x ++ t) = start cwd x := by
  rw [start, isAbs_append h.tree.ne, ← start]

theorem pieces_path (h : Spot fs cwd x target R r cs q ns) :
    pieces (x ++ '/' :: target) = (pieces x ++ cs) ++ ns.map .name := by
  rw [pieces_append_slash, h.names, List.append_assoc]

theorem getLast_path (h : Spot fs cwd x target R r cs q ns) :
    (x ++ '/' :: target).getLast? = target.getLast? := by
  rw [List.getLast?_append_of_ne_nil _ (by simp), List.getLast?_cons_of_ne_nil h.target_ne]

/-- The item's path, once the directory it goes to is there. -/
theorem entry (h : Spot fs cwd x target R r cs q ns)
    (hs : target.getLast? = some '/' → fs.isDir (ns.reverse ++ q))
    (hp : fs.isDir (ns.dropLast.reverse ++ q)) :
    NamesEntry fs cwd (x ++ '/' :: target) R (ns.reverse ++ q) := by
  refine namesEntry_of_names ?_ h.pieces_path h.ne (fun hslash => hs ?_) hp
  · rw [h.start_path]
    exact h.way
  · rwa [h.getLast_path] at hslash

/-- The target from the directory of the tree. -/
theorem inner (h : Spot fs cwd x target R r cs q ns) (habs : isAbs target = false)
    (hs : target.getLast? = some '/' → fs.isDir (ns.reverse ++ q))
    (hp : fs.isDir (ns.dropLast.reverse ++ q)) : NamesEntry fs r target R (ns.reverse ++ q) := by
  refine namesEntry_of_names ?_ h.names h.ne hs hp
  rw [start, habs]
  exact h.tree.way.rest h.way

end Spot

/-! ## Deeds -/

/-- What is at a location, but for the blocks it occupies. -/
def dataAt (fs : FS) (p : Loc) : Option Content := (fs.node p).map (·.content.data)

/-- What a line of an item does to the item's entry. -/
inductive Deed
  /-- Copy the regular file at `s`. -/
  | copy (s : Loc) (bytes : Bytes)
  /-- Move the regular file at `s` there. -/
  | move (s : Loc) (bytes : Bytes)
  | link (text : Path)
  | touch
  | chmod
deriving DecidableEq

namespace Deed

/-- What is there after it. -/
def after : Deed → Option Content → Option Content
  | .copy _ bytes, _ => some (.reg bytes false)
  | .move _ bytes, _ => some (.reg bytes false)
  | .link text, _ => some (.lnk text)
  | .touch, none => some (.reg [] false)
  | .touch, some c => some c
  | .chmod, c => c

/-- What it can do something about. `Blind` is for the texts of links that lead to no
directory from there. -/
def Fits (Blind : Path → Prop) : Deed → Option Content → Prop
  | .copy _ _, c => ∀ k, c = some k → ∃ bytes, k = .reg bytes false
  | .move _ _, c => c ≠ some .dir ∧ ∀ text, c = some (.lnk text) → Blind text
  | .link _, c => c ≠ some .dir ∧ ∀ text, c = some (.lnk text) → Blind text
  | .touch, c => ∀ text, c ≠ some (.lnk text)
  | .chmod, c => c ≠ none ∧ ∀ text, c ≠ some (.lnk text)

/-- The file it reads. -/
def source : Deed → Option Loc
  | .copy s _ => some s
  | .move s _ => some s
  | _ => none

/-- The file it takes away. -/
def gone : Deed → Option Loc
  | .move s _ => some s
  | _ => none

end Deed

/-- What is there after all of them. -/
def afterAll (es : List Deed) (c : Option Content) : Option Content :=
  es.foldl (fun c e => e.after c) c

/-- Each can do something about what those before it have left. -/
def FitAll (Blind : Path → Prop) : List Deed → Option Content → Prop
  | [], _ => True
  | e :: es, c => e.Fits Blind c ∧ (∀ s ∈ e.gone, ∀ f ∈ es, s ∉ f.source) ∧
      FitAll Blind es (e.after c)

section DataAt

variable {fs fs' : FS} {p : Loc} {bytes : Bytes} {text : Path} {k : Node}

theorem dataAt_of_node (h : fs.node p = some k) : dataAt fs p = some k.content.data := by
  rw [dataAt, h]
  rfl

theorem dataAt_of_hasFile (h : fs.HasFile p bytes) : dataAt fs p = some (.reg bytes false) := by
  obtain ⟨k, sparse, hk, hc⟩ := h
  rw [dataAt_of_node hk, hc]
  rfl

theorem dataAt_eq_none : dataAt fs p = none ↔ fs.node p = none := by simp [dataAt]

theorem hasFile_of_dataAt (h : dataAt fs p = some (.reg bytes false)) : fs.HasFile p bytes := by
  obtain ⟨k, hk, hc⟩ := Option.map_eq_some_iff.mp h
  cases hkc : k.content with
  | reg b sparse =>
    rw [hkc, Content.data, Content.reg.injEq] at hc
    exact ⟨k, sparse, hk, by rw [hkc, hc.1]⟩
  | lnk t => simp [hkc, Content.data] at hc
  | dir => simp [hkc, Content.data] at hc

theorem dataAt_eq_lnk : dataAt fs p = some (.lnk text) ↔
    ∃ k, fs.node p = some k ∧ k.content = .lnk text := by
  rw [dataAt, Option.map_eq_some_iff]
  refine exists_congr fun k => and_congr_right fun _ => ?_
  cases k.content <;> simp [Content.data]

theorem dataAt_eq_dir : dataAt fs p = some .dir ↔ fs.isDir p := by
  rw [dataAt, Option.map_eq_some_iff, FS.isDir_iff]
  refine exists_congr fun k => and_congr_right fun _ => ?_
  rw [Node.isDir]
  cases k.content <;> simp [Content.data]

theorem isLnk_of_dataAt (h : ∀ text, dataAt fs p ≠ some (.lnk text)) (hk : fs.node p = some k) :
    k.content.isLnk = false := by
  cases hc : k.content with
  | lnk t => exact absurd (dataAt_eq_lnk.mpr ⟨k, hk, hc⟩) (h t)
  | _ => rfl

theorem dataAt_congr (h : fs.SameContents fs') : dataAt fs' p = dataAt fs p := by
  have hp := congrArg (Option.map Content.data) (h p)
  rw [Option.map_map, Option.map_map] at hp
  exact hp

end DataAt

/-! ## One line -/

/-- From the directory `p` the text of a link leads to no directory. -/
def NoDir (fs : FS) (p : Loc) (text : Path) : Prop :=
  ∀ q, fs.Leads (start p text) (comps text) q → fs.isDir q = false

/-- An entry that is no directory, nor a link to one. -/
theorem isdir_of_noDir {w : World} {t : Path} {R d : Loc} (ht : NamesEntry w.fs w.cwd t R d)
    (hd : dataAt w.fs d ≠ some .dir)
    (hl : ∀ text, dataAt w.fs d = some (.lnk text) → NoDir w.fs d.tail text) :
    World.isdir w t = false := by
  by_contra hdir
  obtain ⟨p, hr, hp⟩ := isdir_iff.mp (by simpa using hdir)
  cases ht with
  | dir hq _ => exact hd (dataAt_eq_dir.mpr hq.isDir)
  | @entry u n q hu hch =>
    obtain ⟨k, hk, -⟩ := hu.walk_child hch
    rw [FS.resolve, if_neg hch.ne, hk] at hr
    cases hn : w.fs.node (n :: q) with
    | none =>
      rw [FS.walk_name hu.isDir (.inr fun j t hj => by simp [hn] at hj), hn] at hr
      simp at hr
    | some j =>
      cases hj : j.content with
      | lnk text =>
        have hscan : w.fs.scan q [.name n] = .jump q n text [] := by
          simp [FS.scan, hu.isDir, hn, hj]
        rcases FS.walk_eq_there hr with hs | ⟨k', r, m, t', rest, -, -, hs, hw⟩
        · simp [hscan] at hs
        · rw [hscan, Scan.jump.injEq] at hs
          obtain ⟨rfl, rfl, rfl, rfl⟩ := hs
          rw [List.append_nil] at hw
          have := hl text (dataAt_eq_lnk.mpr ⟨j, hn, hj⟩) p ⟨k', hw⟩
          simp [hp] at this
      | _ =>
        rw [FS.walk_name hu.isDir (.inr fun i t hi => ?_), hn] at hr
        · obtain rfl : n :: q = p := by simpa using hr
          exact hd (dataAt_eq_dir.mpr hp)
        · rw [hn, Option.some.injEq] at hi
          simp [← hi, hj]

/-! ## What else changes -/

/-- The objects of `D` may be anything afterwards. Elsewhere only directories on the way to `d`
are new. -/
structure Entered (D : Loc → Prop) (d : Loc) (w w' : World) : Prop where
  cwd : w'.cwd = w.cwd
  env : w'.env = w.env
  dirs : ∀ p, w.fs.isDir p → w'.fs.isDir p
  others : ∀ p, ¬D p → w'.fs.node p = w.fs.node p ∨
    w.fs.node p = none ∧ w'.fs.isDir p ∧ Above p d

namespace Entered

variable {D D' : Loc → Prop} {R r d p : Loc} {w w' w'' : World}

theorem refl (D : Loc → Prop) (d : Loc) (w : World) : Entered D d w w :=
  ⟨rfl, rfl, fun _ h => h, fun _ _ => .inl rfl⟩

theorem mono (h : Entered D d w w') (hD : ∀ p, D p → D' p) : Entered D' d w w' :=
  ⟨h.cwd, h.env, h.dirs, fun p hp => h.others p fun hDp => hp (hD p hDp)⟩

theorem trans (h : Entered D d w w') (h' : Entered D d w' w'') : Entered D d w w'' := by
  refine ⟨h'.cwd.trans h.cwd, h'.env.trans h.env, fun p hp => h'.dirs p (h.dirs p hp),
    fun p hp => ?_⟩
  rcases h.others p hp with h₁ | ⟨hn, hd, ha⟩
  · rcases h'.others p hp with h₂ | ⟨hn, hd, ha⟩
    · exact .inl (h₂.trans h₁)
    · exact .inr ⟨h₁ ▸ hn, hd, ha⟩
  · exact .inr ⟨hn, h'.dirs p hd, ha⟩

theorem of_dirs {ns : List Name} (h : DirsThere R ns w w') (hd : Above (ns.reverse ++ R) d) :
    Entered D d w w' := by
  refine ⟨h.within.cwd, h.within.env, h.within.dirs, fun p _ => ?_⟩
  cases hp : w.fs.node p with
  | some k => exact .inl (h.ext p k hp)
  | none =>
    cases hp' : w'.fs.node p with
    | none => exact .inl rfl
    | some k =>
      obtain ⟨hk, ha⟩ := h.new p k hp hp'
      exact .inr ⟨rfl, (FS.isDir_of_node hp').trans hk, ha.trans hd⟩

/-- An entry that is and was no directory. -/
theorem of_file (hw : Within [] d w w') (hd : w.fs.isDir d = false) (hd' : w'.fs.isDir d = false) :
    Entered (· = d) d w w' := by
  refine ⟨hw.cwd, hw.env, hw.dirs, fun p hp => .inl ?_⟩
  by_cases ha : Above d p
  · rw [FS.node_eq_none_of_above hd ha hp, FS.node_eq_none_of_above hd' ha hp]
  · exact hw.out p ha

theorem of_attrSet (h : AttrSet [] d w w') : Entered (· = d) d w w' :=
  ⟨h.within.cwd, h.within.env, h.within.dirs, fun p hp => .inl (h.out p hp)⟩

theorem calm (h : Entered D d w w') (hc : w.Calm) : w'.Calm := fun c i => by
  rw [h.env]
  exact hc c i

theorem node_of_some (h : Entered D d w w') (hp : ¬D p) {k : Node} (hk : w.fs.node p = some k) :
    w'.fs.node p = some k := by
  rcases h.others p hp with h₁ | ⟨hn, -, -⟩
  · exact h₁.trans hk
  · simp [hk] at hn

theorem hasFile (h : Entered D d w w') (hp : ¬D p) {bytes : Bytes} (hf : w.fs.HasFile p bytes) :
    w'.fs.HasFile p bytes := by
  obtain ⟨k, sparse, hk, hc⟩ := hf
  exact ⟨k, sparse, h.node_of_some hp hk, hc⟩

/-- Ways that keep out of a region stay, if there are links of `D` in the region only. -/
theorem keepWays (h : Entered D d w w')
    (hD : ∀ l text, D l → dataAt w.fs l = some (.lnk text) → Above R l) :
    w.fs.KeepsWays R w'.fs :=
  ⟨h.dirs, fun l k t hl hk hc => h.node_of_some
    (fun hDl => hl (hD l t hDl (dataAt_eq_lnk.mpr ⟨k, hk, hc⟩))) hk⟩

end Entered

/-! ## One deed -/

/-- The path names a regular file, and no link on the way is at `R` or below. -/
structure Source (fs : FS) (cwd : Loc) (src : Path) (R s : Loc) (bytes : Bytes) : Prop where
  resolve : fs.resolve cwd true src = .ok (.there s)
  file : fs.HasFile s bytes
  links : ∀ l ∈ fs.links FS.maxLinks (start cwd src) (comps src), ¬Above R l

theorem Source.keep {fs fs' : FS} {cwd R R' s : Loc} {src : Path} {bytes : Bytes}
    (h : Source fs cwd src R s bytes) (h' : Source fs cwd src R' s bytes)
    (hw : fs.KeepsWays R fs') (hs : fs'.HasFile s bytes) : Source fs' cwd src R' s bytes := by
  obtain ⟨k, sparse, hk, hc⟩ := hs
  have hr := h.resolve
  rw [FS.resolve] at hr
  split_ifs at hr with ht
  obtain ⟨h₁, h₂⟩ := FS.walk_mono hw.dirs hr ⟨k, hk, by simp [hc]⟩ (hw.links_eq h.links)
  exact ⟨by rw [FS.resolve, if_neg ht, h₁], ⟨k, sparse, hk, hc⟩, h₂ ▸ h'.links⟩

/-- The item's entry `d` can be reached in every way the lines go to it. -/
structure Reached (x : Path) (target : Text) (r d : Loc) (w : World) : Prop where
  calm : w.Calm
  tree : NamesDir w.fs w.cwd x d r
  entry : NamesEntry w.fs w.cwd (x ++ '/' :: target) d d
  inner : isAbs target = false → NamesEntry w.fs r target d d

theorem Reached.of_entered {x : Path} {target : Text} {D : Loc → Prop} {r d d' : Loc}
    {w w' : World} (h : Reached x target r d w) (he : Entered D d' w w')
    (hw : w.fs.KeepsWays d w'.fs) : Reached x target r d w' := by
  refine ⟨he.calm h.calm, ?_, ?_, fun habs => (h.inner habs).keepWays hw⟩
  · rw [he.cwd]
    exact h.tree.keepWays h.tree hw
  · rw [he.cwd]
    exact h.entry.keepWays hw

/-- The line `c` of the item does the deed `e`. -/
inductive Does (x : Path) (target : Text) (d : Loc) (w : World) : Command → Deed → Prop
  | copy {src : Path} {s : Loc} {bytes : Bytes} (h : Source w.fs w.cwd src d s bytes)
      (hs : s ≠ d) : Does x target d w (.cp src (x ++ '/' :: target)) (.copy s bytes)
  | move {src : Path} {s : Loc} {bytes : Bytes} (h : NamesEntry w.fs w.cwd src d s)
      (hf : w.fs.HasFile s bytes) (hs : s ≠ d) :
      Does x target d w (.mv src (x ++ '/' :: target)) (.move s bytes)
  | link {text : Path} (ht : text ≠ []) (habs : isAbs target = false) :
      Does x target d w (.ln x text target) (.link text)
  | touch : Does x target d w (.touch (x ++ '/' :: target)) .touch
  | chmod {mode : ℕ} (habs : isAbs target = false) :
      Does x target d w (.chmod x mode target) .chmod

section Step

variable {x : Path} {target : Text} {r d d' : Loc} {D : Loc → Prop} {w w' : World} {c : Command}
  {e : Deed} {Blind : Path → Prop}

theorem Does.keep (h : Does x target d w c e) (he : Entered D d' w w')
    (hw : w.fs.KeepsWays d w'.fs) (hs : ∀ s ∈ e.source, ¬D s) : Does x target d w' c e := by
  cases h with
  | copy h hsd =>
    exact .copy (he.cwd ▸ h.keep h hw (he.hasFile (hs _ rfl) h.file)) hsd
  | move h hf hsd => exact .move (he.cwd ▸ h.keepWays hw) (he.hasFile (hs _ rfl) hf) hsd
  | link ht habs => exact .link ht habs
  | touch => exact .touch
  | chmod habs => exact .chmod habs

/-- What a deed leaves : the entry, and nothing else but for the file that it takes away. -/
structure Done (x : Path) (target : Text) (r d : Loc) (e : Deed) (w w' : World) : Prop where
  entered : Entered (fun p => p = d ∨ p ∈ e.gone) d w w'
  ways : w.fs.KeepsWays d w'.fs
  reached : Reached x target r d w'
  data : dataAt w'.fs d = e.after (dataAt w.fs d)

theorem Done.of_within (hr : Reached x target r d w) (hw : Within [] d w w')
    (he : Entered (· = d) d w w') (hdata : dataAt w'.fs d = e.after (dataAt w.fs d)) :
    Done x target r d e w w' :=
  ⟨he.mono fun _ hp => .inl hp, .of_out hw.dirs hw.out, hr.of_entered he (.of_out hw.dirs hw.out),
    hdata⟩

/-- `cd dir && …`. -/
theorem wp_inDir {m : Prog Bool} {Q : Bool → World → Prop} {E : Stop → World → Prop}
    (hcalm : w.Calm) (ht : NamesDir w.fs w.cwd x d r) (h : wp m Q E { w.next with cwd := r }) :
    wp (inDir x m) Q E w := by
  rw [inDir, wp_bind]
  refine wp_chdir (fun e he => ?_) fun q hq _ => ?_
  · obtain ⟨k, hk, hkd⟩ := w.fs.isDir_iff.mp ht.isDir
    have he' := he (hcalm .chdir)
    simp [World.chdir, World.stat, World.next, ht.resolve, hk, hkd] at he'
  · rw [ht.resolve, Except.ok.injEq, Found.there.injEq] at hq
    exact hq ▸ h

/-- A line does its deed. -/
theorem Does.run (h : Does x target d w c e) (hr : Reached x target r d w)
    (hfit : e.Fits Blind (dataAt w.fs d))
    (hB : ∀ text, Blind text → dataAt w.fs d = some (.lnk text) → NoDir w.fs d.tail text) :
    wp c.run (fun failed w' => failed = false ∧ Done x target r d e w { w' with cwd := w.cwd })
      (fun _ _ => False) w := by
  have hentry := hr.entry
  cases h with
  | @copy src s bytes h hsd =>
    -- over nothing, or over a regular file
    have hd : w.fs.node d = none ∨ ∃ b, w.fs.HasFile d b := by
      cases hn : dataAt w.fs d with
      | none => exact .inl (dataAt_eq_none.mp hn)
      | some k =>
        obtain ⟨b, rfl⟩ := hfit k hn
        exact .inr ⟨b, hasFile_of_dataAt hn⟩
    have hnot : w.fs.isDir d = false := by
      rcases hd with hn | ⟨b, hf⟩
      · exact FS.isDir_of_absent hn
      · exact hf.isDir
    refine wp_mono (cp_spec hr.calm h.resolve h.file hentry hsd hd) (fun failed w' hq => ?_)
      fun _ _ hq => hq
    obtain ⟨rfl, hw, hf⟩ := hq
    rw [← hw.cwd]
    exact ⟨rfl, .of_within hr hw (.of_file hw hnot hf.isDir) (dataAt_of_hasFile hf)⟩
  | @move src s bytes h hf hsd =>
    obtain ⟨k, sparse, hk, hkc⟩ := hf
    have hf : w.fs.HasFile s bytes := ⟨k, sparse, hk, hkc⟩
    have hisdir := isdir_of_noDir hentry hfit.1 fun text ht => hB text (hfit.2 text ht) ht
    refine wp_mono (mv_spec hr.calm (h.resolve_of_node hk) hf hentry hsd hisdir)
      (fun failed w' hq => ?_) fun _ _ hq => hq
    obtain ⟨rfl, hcwd, henv, hdirs, hout, -, hfd⟩ := hq
    rw [← hcwd]
    have hent : Entered (fun p => p = d ∨ p ∈ (Deed.move s bytes).gone) d w w' :=
      ⟨hcwd, henv, hdirs, fun p hp => .inl (hout p (fun hps => hp (.inr (by simp [Deed.gone, hps])))
        fun hpd => hp (.inl hpd))⟩
    have hways : w.fs.KeepsWays d w'.fs := hent.keepWays fun l text hl hlt => by
      rcases hl with rfl | hl
      · exact .refl _
      · obtain rfl : s = l := by simpa [Deed.gone] using hl
        rw [dataAt_of_hasFile hf] at hlt
        simp at hlt
    exact ⟨rfl, hent, hways, hr.of_entered hent hways, dataAt_of_hasFile hfd⟩
  | @link text htext habs =>
    have hinner := hr.inner habs
    refine wp_inDir hr.calm hr.tree ?_
    have hisdir : World.isdir { w.next with cwd := r } target = false :=
      isdir_of_noDir hinner hfit.1 fun text ht => hB text (hfit.2 text ht) ht
    refine wp_mono (lnSf_spec hr.calm hinner (.refl d) hisdir htext) (fun failed w' hq => ?_)
      fun _ _ hq => hq
    obtain ⟨rfl, hw, k, hk, hkc⟩ := hq
    have hw : Within [] d w { w' with cwd := w.cwd } := hw.back.of_next
    have hd' : w'.fs.isDir d = false := by rw [FS.isDir_of_node hk, Node.isDir, hkc]; rfl
    exact ⟨rfl, .of_within hr hw (.of_file hw (by simpa [dataAt_eq_dir] using hfit.1) hd')
      (dataAt_eq_lnk.mpr ⟨k, hk, hkc⟩)⟩
  | touch =>
    change wp (Makeroot.touch (x ++ '/' :: target) w.env.now) _ _ w
    cases hn : w.fs.node d with
    | none =>
      refine wp_mono (touch_absent hr.calm hentry hn _) (fun failed w' hq => ?_) fun _ _ hq => hq
      obtain ⟨rfl, hw, hf⟩ := hq
      rw [← hw.cwd]
      refine ⟨rfl, .of_within hr hw (.of_file hw (FS.isDir_of_absent hn) hf.isDir) ?_⟩
      rw [dataAt_of_hasFile hf, dataAt_eq_none.mpr hn]
      rfl
    | some k =>
      have hl := isLnk_of_dataAt hfit hn
      refine wp_mono (touch_there hr.calm hentry hn hl _) (fun failed w' hq => ?_) fun _ _ hq => hq
      obtain ⟨rfl, ha⟩ := hq
      rw [← ha.within.cwd]
      refine ⟨rfl, .of_within hr ha.within (.of_attrSet ha) ?_⟩
      rw [dataAt_congr ha.contents, dataAt_of_node hn]
      rfl
  | @chmod mode habs =>
    obtain ⟨hne, hl⟩ := hfit
    obtain ⟨k, hk⟩ : ∃ k, w.fs.node d = some k := by
      cases hn : w.fs.node d with
      | none => exact absurd (dataAt_eq_none.mpr hn) hne
      | some k => exact ⟨k, rfl⟩
    refine wp_inDir hr.calm hr.tree ?_
    have hcalm : World.Calm { w.next with cwd := r } := hr.calm
    refine wp_mono (chmodCommand_there hcalm (hr.inner habs) hk (isLnk_of_dataAt hl hk) mode)
      (fun failed w' hq => ?_) fun _ _ hq => hq
    obtain ⟨rfl, ha⟩ := hq
    have ha : AttrSet [] d w { w' with cwd := w.cwd } :=
      ⟨ha.within.back.of_next, ha.contents, ha.out⟩
    exact ⟨rfl, .of_within hr ha.within (.of_attrSet ha) (dataAt_congr ha.contents)⟩

theorem Does.source_ne (h : Does x target d w c e) : ∀ s ∈ e.source, s ≠ d := by
  intro s hs
  cases h with
  | copy _ hsd => exact Option.some.inj hs ▸ hsd
  | move _ _ hsd => exact Option.some.inj hs ▸ hsd
  | _ => simp [Deed.source] at hs

theorem forall₂_keep {cs : List Command} {es : List Deed}
    (h : List.Forall₂ (Does x target d w) cs es) (he : Entered D d' w w')
    (hw : w.fs.KeepsWays d w'.fs) (hs : ∀ e ∈ es, ∀ s ∈ e.source, ¬D s) :
    List.Forall₂ (Does x target d w') cs es := by
  induction h with
  | nil => exact .nil
  | cons hc _ ih =>
    exact .cons (hc.keep he hw (hs _ (by simp))) (ih fun e he' => hs e (by simp [he']))

theorem exists_does {cs : List Command} {es : List Deed}
    (h : List.Forall₂ (Does x target d w) cs es) (he : e ∈ es) :
    ∃ c ∈ cs, Does x target d w c e := by
  induction h with
  | nil => simp at he
  | cons hc _ ih =>
    rcases List.mem_cons.mp he with rfl | he
    · exact ⟨_, by simp, hc⟩
    · obtain ⟨c, hc, hdoes⟩ := ih he
      exact ⟨c, by simp [hc], hdoes⟩

/-- The lines do their deeds one after another. -/
theorem runCommands_deeds {cs : List Command} {es : List Deed}
    (h : List.Forall₂ (Does x target d w) cs es) (hr : Reached x target r d w)
    (hfit : FitAll Blind es (dataAt w.fs d)) (hD : D d) (hgone : ∀ e ∈ es, ∀ s ∈ e.gone, D s)
    (hB : ∀ w', Entered D d w w' → ∀ text, Blind text → dataAt w'.fs d = some (.lnk text) →
      NoDir w'.fs d.tail text) :
    wp (runCommands cs) (fun failed w' => failed = false ∧ Entered D d w w' ∧
      Reached x target r d w' ∧ dataAt w'.fs d = afterAll es (dataAt w.fs d)) (fun _ _ => False)
      w := by
  induction es generalizing cs w with
  | nil =>
    cases h
    exact ⟨rfl, .refl .., hr, rfl⟩
  | cons e es ih =>
    cases h with
    | @cons c _ cs _ hc hcs =>
      obtain ⟨hfit, hsource, hrest⟩ := hfit
      refine wp_runCommands_cons (hc.run hr hfit (hB w (.refl ..))) fun w₁ hdone => ?_
      have hent : Entered D d w w₁ := hdone.entered.mono fun p hp => by
        rcases hp with rfl | hp
        · exact hD
        · exact hgone e (by simp) p hp
      -- the files of the others have not been touched
      have hkeep := forall₂_keep hcs hdone.entered hdone.ways fun f hf s hs hDs => by
        rcases hDs with rfl | hDs
        · obtain ⟨c', -, hdoes⟩ := exists_does hcs hf
          exact hdoes.source_ne _ hs rfl
        · exact hsource s hDs f hf hs
      refine wp_mono (ih hkeep hdone.reached (hdone.data ▸ hrest)
        (fun f hf => hgone f (by simp [hf])) fun w' hw' => hB w' (hent.trans hw'))
        (fun failed w' hq => ?_) fun _ _ hq => hq
      obtain ⟨rfl, hent', hr', hdata⟩ := hq
      exact ⟨rfl, hent.trans hent', hr', by rw [hdata, hdone.data]; rfl⟩

end Step

end Makeroot
