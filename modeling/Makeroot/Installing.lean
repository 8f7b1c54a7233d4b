import Makeroot.Deeds

/-!
# cmd_install for one tree

The lines for one tree make the directories on the way to the item, and then do its deeds. The
way is as long as links take part in it, from there on the names are those of directories as
far as there is anything (`Clear`). The expansion has looked at an earlier world than the lines
find, but one in which those directories were the same.
-/

namespace Makeroot

open Posix GnuMake

/-! ## The directories -/

section Dirs

variable {fs : FS} {R r q d : Loc} {x t : Path} {target : Text} {cs us : List Comp}
  {ns ms : List Name} {w w₀ w' : World}

theorem isSome_of_walk_name {follow : Bool} {k : ℕ} {p : Loc} {n : Name} {ds : List Comp}
    (h : fs.walk follow k p (.name n :: ds) = .ok (.there q)) : (fs.node (n :: p)).isSome := by
  by_contra hn
  have hn : fs.node (n :: p) = none := by simpa using hn
  have hs := FS.walk_there h
  by_cases hp : fs.isDir p
  · simp [FS.scan, hp, hn] at hs
  · simp [FS.scan, hp] at hs

/-- What is found along clear names is a directory. -/
theorem isDir_of_wildcard (h : w.fs.Way (start w.cwd t) us R q) (hp : pieces t = us ++ ns.map .name)
    (hclear : Clear w.fs q ns) (hwild : World.wildcard w t = true) :
    w.fs.isDir (ns.reverse ++ q) := by
  rcases List.eq_nil_or_concat ns with rfl | ⟨ms, n, rfl⟩
  · exact h.isDir
  · obtain ⟨p, hr⟩ : ∃ p, w.fs.resolve w.cwd false (stripTrailingSlashes t) = .ok (.there p) := by
      unfold World.wildcard at hwild
      cases hs : w.stat false (stripTrailingSlashes t) with
      | ok s => exact ⟨_, (World.stat_ok hs).1⟩
      | error e => simp [hs] at hwild
    rw [FS.resolve] at hr
    split_ifs at hr with ht
    rw [start, isAbs_stripTrailingSlashes, ← start, comps, pieces_stripTrailingSlashes, hp] at hr
    rw [List.concat_eq_append, List.map_append, List.map_singleton, ← List.append_assoc,
      List.append_assoc _ [_], List.singleton_append] at hr
    -- all but the last of the names lead down
    obtain ⟨p', hp', hd⟩ := FS.walk_prefix hr
    have hms : ms <+: ms.concat n := by simp
    obtain ⟨rfl, -⟩ := hclear.eq_of_leads h.isDir hms (.of_append ⟨_, h.walk⟩ ⟨_, hp'⟩)
    obtain ⟨k, -, hk⟩ := FS.walk_append hp'
    rw [(hk _ (by simp)).1] at hr
    refine hclear _ (List.prefix_refl _) ?_
    rw [List.concat_eq_append, List.reverse_append, List.reverse_singleton,
      List.singleton_append, List.cons_append]
    exact isSome_of_walk_name hr

/-- `$(dir t)` is what is before the last slash, with that slash. -/
theorem exists_dirPart (h : '/' ∈ t) :
    ∃ u, t = u ++ '/' :: baseName t ∧ dirPart t = u ++ ['/'] := by
  obtain ⟨u, hu, -⟩ := exists_dirname h
  refine ⟨u, hu, ?_⟩
  have hrev : t.reverse = (baseName t).reverse ++ '/' :: u.reverse := by
    conv_lhs => rw [hu]
    simp
  have hbase : ∀ c ∈ (baseName t).reverse, decide (c ≠ '/') = true := fun c hc => by
    have hc' : c ≠ '/' := fun hslash => slash_notMem_baseName t (hslash ▸ List.mem_reverse.mp hc)
    simpa using hc'
  rw [dirPart, if_pos h, hrev, List.dropWhile_append_of_pos hbase]
  simp

theorem dirPart_ne_nil (h : '/' ∈ t) : dirPart t ≠ [] := by
  obtain ⟨u, -, hd⟩ := exists_dirPart h
  simp [hd]

theorem isAbs_dirPart (h : '/' ∈ t) : isAbs (dirPart t) = isAbs t := by
  obtain ⟨u, hu, hd⟩ := exists_dirPart h
  rw [hd, hu]
  cases u <;> rfl

theorem Spot.pieces_dirPart {cwd : Loc} (h : Spot fs cwd x target R r cs q ns) :
    pieces (dirPart (x ++ '/' :: target)) = (pieces x ++ cs) ++ (stem target ns).map .name := by
  obtain ⟨u, hu, hd⟩ := exists_dirPart (t := x ++ '/' :: target) (by simp)
  have hpieces : pieces (dirPart (x ++ '/' :: target)) = pieces u := by
    rw [hd, pieces_append_slash, pieces_nil, List.append_nil]
  have hpath := h.pieces_path
  rw [hu, pieces_append_slash, ← hpieces] at hpath
  unfold stem
  split_ifs with hs
  · rw [baseName_of_slash (h.getLast_path.trans hs), pieces_nil, List.append_nil] at hpath
    exact hpath
  · obtain ⟨ms, n, rfl⟩ : ∃ ms n, ns = ms ++ [n] :=
      ⟨_, _, (List.dropLast_append_getLast h.ne).symm⟩
    have hlast : (x ++ '/' :: target).getLast? ≠ some '/' := by rwa [h.getLast_path]
    have hlastp : pieces (x ++ '/' :: target) =
        ((pieces x ++ cs) ++ ms.map .name) ++ [.name n] := by
      rw [h.pieces_path]
      simp
    rw [baseName_of_pieces hlast hlastp, pieces_name, List.map_append, List.map_singleton,
      ← List.append_assoc] at hpath
    rw [List.dropLast_concat]
    exact List.append_cancel_right hpath

/-- The directories on a way that is clear, unless they were there before. -/
theorem mkdirs_run (h : w.fs.Way (start w.cwd t) us R q) (ht : t ≠ [])
    (hp : pieces t = us ++ ns.map .name) (hclear : Clear w.fs q ns) (hcalm : w.Calm)
    (hseen : World.wildcard w₀ t = true → w.fs.isDir (ns.reverse ++ q)) :
    wp (runCommands (if World.wildcard w₀ t then [] else [.mkdirP t]))
      (fun failed w' => failed = false ∧ DirsThere q ns w w') (fun _ _ => False) w := by
  split_ifs with hwild
  · exact ⟨rfl, .of_isDir (hseen hwild)⟩
  · refine wp_runCommands_one (wp_mono (mkdirP_spec ht hp h.walk h.isDir hclear hcalm)
      (fun failed w' hq => ?_) fun _ _ hq => hq)
    obtain ⟨rfl, hdirs, hcwd⟩ := hq
    rw [← hcwd]
    exact ⟨rfl, hdirs⟩

theorem above_reverse (h : ms <+: ns) : Above (ms.reverse ++ q) (ns.reverse ++ q) := by
  obtain ⟨ls, rfl⟩ := h
  rw [List.reverse_append, List.append_assoc]
  exact List.suffix_append ..

/-- Where only directories are new, names are clear as before. -/
theorem Clear.of_entered {D : Loc → Prop} (h : Clear w.fs q ns) (he : Entered D d w w')
    (hD : ∀ ms, ms <+: ns → ¬D (ms.reverse ++ q)) : Clear w'.fs q ns := by
  intro ms hms hsome
  rcases he.others _ (hD ms hms) with heq | ⟨-, hd, -⟩
  · rw [heq] at hsome
    exact he.dirs _ (h ms hms hsome)
  · exact hd

/-- Directories on the way to an entry leave it as it is. -/
theorem DirsThere.dataAt_eq (h : DirsThere q ms w w') (hd : ¬Above d (ms.reverse ++ q)) :
    dataAt w'.fs d = dataAt w.fs d := by
  cases hn : w.fs.node d with
  | some k => rw [dataAt_of_node hn, dataAt_of_node (h.ext d k hn)]
  | none =>
    cases hn' : w'.fs.node d with
    | none => rw [dataAt_eq_none.mpr hn, dataAt_eq_none.mpr hn']
    | some k => exact absurd (h.new d k hn hn').2 hd

end Dirs

/-! ## One tree -/

/-- The names of an item that are those of directories, as far as there is anything. -/
def Item.lead (i : Item) (ns : List Name) : List Name := if i.dir = [] then ns.dropLast else ns

theorem Item.stem_prefix {i : Item} {ns : List Name}
    (hslash : i.target.getLast? = some '/' → i.dir ≠ []) : stem i.target ns <+: i.lead ns := by
  unfold stem Item.lead
  split_ifs with h₁ h₂ h₂
  · exact absurd h₂ (hslash h₁)
  · exact List.prefix_refl _
  · exact List.prefix_refl _
  · exact ns.dropLast_prefix

/-- What an item finds at its entry once the directories are there. -/
def Item.found (i : Item) (c : Option Content) : Option Content :=
  if i.dir = [] then c else some .dir

section Tree

variable {fuel : ℕ} {T : Trees} {i : Item} {x : Path} {lines : List Command} {D : Loc → Prop}
  {r q d : Loc} {cs : List Comp} {ns : List Name} {es : List Deed} {Blind : Path → Prop}
  {w w₀ : World}

/-- The item's own directory, if it is one. -/
theorem cmdDir_run (hlines : cmdDir fuel T i w₀ x = some lines) (hdir : i.dir = [] ∨ hasY i.dir)
    (h : Spot w.fs w.cwd x i.target d r cs q ns) (hd : d = ns.reverse ++ q)
    (hclear : Clear w.fs q (i.lead ns)) (hcalm : w.Calm)
    (hseen : World.wildcard w₀ (i.path x) = true → i.dir ≠ [] → w.fs.isDir d) :
    wp (runCommands lines) (fun failed w' => failed = false ∧ Entered (fun _ => False) d w w' ∧
      (i.dir ≠ [] → w'.fs.isDir d) ∧ dataAt w'.fs d = i.found (dataAt w.fs d)) (fun _ _ => False)
      w := by
  unfold cmdDir at hlines
  unfold Item.found
  split_ifs at hlines ⊢ with hno hy
  · obtain rfl := Option.some.inj hlines
    exact ⟨rfl, .refl .., fun h => absurd hno h, rfl⟩
  · obtain rfl := Option.some.inj hlines
    rw [Item.lead, if_neg hno] at hclear
    subst hd
    have hway : w.fs.Way (start w.cwd (i.path x)) (pieces x ++ cs) (ns.reverse ++ q) q := by
      rw [Item.path, h.start_path]
      exact h.way
    refine wp_mono (mkdirs_run hway (by simp [Item.path]) h.pieces_path hclear hcalm fun hw =>
      hseen hw hno) (fun failed w' hq => ?_) fun _ _ hq => hq
    obtain ⟨rfl, hdirs⟩ := hq
    exact ⟨rfl, .of_dirs hdirs (.refl _), fun _ => hdirs.isDir, dataAt_eq_dir.mpr hdirs.isDir⟩
  · exact absurd (hdir.resolve_left hno) hy

/-- The item's entry can be reached once the directories are there. -/
theorem Spot.reached (h : Spot w.fs w.cwd x i.target d r cs q ns) (hd : d = ns.reverse ++ q)
    (hcalm : w.Calm) (hslash : i.target.getLast? = some '/' → w.fs.isDir d)
    (hparent : w.fs.isDir ((stem i.target ns).reverse ++ q)) : Reached x i.target r d w := by
  have hp : w.fs.isDir (ns.dropLast.reverse ++ q) := by
    unfold stem at hparent
    split_ifs at hparent
    · obtain ⟨k, hk, -⟩ := w.fs.isDir_iff.mp hparent
      rcases FS.isDir_of_above hk (above_reverse (q := q) ns.dropLast_prefix) with heq | hd
      · rw [heq]
        exact hparent
      · exact hd
    · exact hparent
  subst hd
  exact ⟨hcalm, h.tree, h.entry hslash hp, fun habs => h.inner habs hslash hp⟩

/-- The directory that the item goes to. -/
theorem cmdParent_run (h : Spot w.fs w.cwd x i.target d r cs q ns) (hd : d = ns.reverse ++ q)
    (hclear : Clear w.fs q (i.lead ns)) (hcalm : w.Calm)
    (hslash : i.target.getLast? = some '/' → i.dir ≠ []) (hdir : i.dir ≠ [] → w.fs.isDir d)
    (hseen : World.wildcard w₀ (dirPart (i.path x)) = true →
      w.fs.isDir ((stem i.target ns).reverse ++ q)) :
    wp (runCommands (cmdParent i w₀ x)) (fun failed w' => failed = false ∧
      Entered (fun _ => False) d w w' ∧ Reached x i.target r d w' ∧
      dataAt w'.fs d = dataAt w.fs d) (fun _ _ => False) w := by
  have habs : isAbs (dirPart (i.path x)) = isAbs x := by
    rw [isAbs_dirPart (by simp [Item.path]), Item.path, isAbs_append h.tree.ne]
  have hway : w.fs.Way (start w.cwd (dirPart (i.path x))) (pieces x ++ cs) d q := by
    rw [start, habs]
    exact h.way
  have hprefix : stem i.target ns <+: i.lead ns := Item.stem_prefix hslash
  have hstem : Clear w.fs q (stem i.target ns) := hclear.of_prefix hprefix
  refine wp_mono (mkdirs_run hway (dirPart_ne_nil (by simp [Item.path])) h.pieces_dirPart hstem
    hcalm hseen) (fun failed w' hq => ?_) fun _ _ hq => hq
  obtain ⟨rfl, hdirs⟩ := hq
  have hent : Entered (fun _ => False) d w w' :=
    .of_dirs hdirs (hd ▸ above_reverse (isPrefix_stem _ _))
  have hways : w.fs.KeepsWays d w'.fs := hent.keepWays fun _ _ h => h.elim
  refine ⟨rfl, hent, ?_, ?_⟩
  · exact Spot.reached (by rw [hent.cwd]; exact h.keepWays h hways) hd (hent.calm hcalm)
      (fun hs => hent.dirs d (hdir (hslash hs))) hdirs.isDir
  · by_cases hno : i.dir = []
    · refine hdirs.dataAt_eq fun ha => ?_
      have hlen := ha.length_le
      rw [stem, if_neg fun hs => hslash hs hno, hd] at hlen
      have hpos := List.length_pos_iff.mpr h.ne
      simp only [List.length_append, List.length_reverse, List.length_dropLast] at hlen
      omega
    · rw [dataAt_eq_dir.mpr (hdir hno), dataAt_eq_dir.mpr (hent.dirs d (hdir hno))]

/-- `cmd_install` for one tree. -/
theorem cmdInstall_run (hlines : cmdInstall fuel T i w₀ x = some lines)
    (hdir : i.dir = [] ∨ hasY i.dir) (hslash : i.target.getLast? = some '/' → i.dir ≠ [])
    (h : Spot w.fs w.cwd x i.target d r cs q ns) (hd : d = ns.reverse ++ q)
    (hclear : Clear w.fs q (i.lead ns)) (hcalm : w.Calm)
    (hseen : World.wildcard w₀ (i.path x) = true → i.dir ≠ [] → w.fs.isDir d)
    (hseen' : World.wildcard w₀ (dirPart (i.path x)) = true →
      w.fs.isDir ((stem i.target ns).reverse ++ q))
    (hdeeds : List.Forall₂ (Does x i.target d w) (cmdContent T i w₀ x) es)
    (hfit : FitAll Blind es (i.found (dataAt w.fs d))) (hD : D d)
    (hgone : ∀ e ∈ es, ∀ s ∈ e.gone, D s)
    (hB : ∀ w', Entered D d w w' → ∀ text, Blind text → dataAt w'.fs d = some (.lnk text) →
      NoDir w'.fs d.tail text) :
    wp (runCommands lines) (fun failed w' => failed = false ∧ Entered D d w w' ∧
      Reached x i.target r d w' ∧ dataAt w'.fs d = afterAll es (i.found (dataAt w.fs d)))
      (fun _ _ => False) w := by
  obtain ⟨dirs, hdirs, rfl⟩ := Option.map_eq_some_iff.mp hlines
  rw [List.append_assoc]
  refine wp_runCommands_append (cmdDir_run hdirs hdir h hd hclear hcalm hseen) fun w₁ h₁ => ?_
  obtain ⟨hent₁, hmade, hdata₁⟩ := h₁
  have hways₁ : w.fs.KeepsWays d w₁.fs := hent₁.keepWays fun _ _ h => h.elim
  have hspot₁ : Spot w₁.fs w₁.cwd x i.target d r cs q ns := by
    rw [hent₁.cwd]
    exact h.keepWays h hways₁
  refine wp_runCommands_append (cmdParent_run hspot₁ hd
    (hclear.of_entered hent₁ fun _ _ => not_false) (hent₁.calm hcalm) hslash hmade fun hw =>
      hent₁.dirs _ (hseen' hw)) fun w₂ h₂ => ?_
  obtain ⟨hent₂, hreached, hdata₂⟩ := h₂
  have hent := hent₁.trans hent₂
  have hways : w.fs.KeepsWays d w₂.fs := hent.keepWays fun _ _ h => h.elim
  have hentD : Entered D d w w₂ := hent.mono fun _ hF => hF.elim
  have hfound : dataAt w₂.fs d = i.found (dataAt w.fs d) := hdata₂.trans hdata₁
  refine wp_mono (runCommands_deeds (forall₂_keep hdeeds hent hways fun _ _ _ _ => not_false)
    hreached (hfound ▸ hfit) hD hgone fun w' hw' => hB w' (hentD.trans hw'))
    (fun failed w' hq => ?_) fun _ _ hq => hq
  obtain ⟨rfl, hent', hr', hdata⟩ := hq
  exact ⟨rfl, hentD.trans hent', hr', by rw [hdata, hfound]⟩

end Tree

/-! ## The deeds of an item -/

section ItemDeeds

variable (files : Text → Loc × Bytes) (i : Item)

/-- The deeds of the lines of an item, given the files that its variables name. -/
def Item.deeds : List Deed :=
  (if i.copy = [] then [] else [.copy (files i.copy).1 (files i.copy).2]) ++
  (if i.move = [] then [] else [.move (files i.move).1 (files i.move).2]) ++
  (if i.link = [] then [] else [.link i.link]) ++
  (if hasY i.touch then [.touch] else []) ++
  (if i.generate = [] then [] else [.move (files i.generate).1 (files i.generate).2]) ++
  match i.chmod with
  | none => []
  | some _ => [.chmod]

/-- What an item puts in place where nothing is. -/
def Item.result : Option Content := afterAll (i.deeds files) (i.found none)

/-- What was there makes no difference to what the item puts in place. -/
def Item.Settles (c : Option Content) : Prop :=
  i.dir ≠ [] ∨ i.copy ≠ [] ∨ i.move ≠ [] ∨ i.link ≠ [] ∨ i.generate ≠ [] ∨
    hasY i.touch ∧ (c = none ∨ c = some (.reg [] false))

/-- The files of an item are there, and are not where it goes. -/
structure Item.Sources (T : Trees) (w₀ w : World) (d : Loc) : Prop where
  copy : i.copy ≠ [] → Source w.fs w.cwd (sourceOf T w₀ i.copy) d (files i.copy).1
    (files i.copy).2 ∧ (files i.copy).1 ≠ d
  move : i.move ≠ [] → NamesEntry w.fs w.cwd (sourceOf T w₀ i.move) d (files i.move).1 ∧
    w.fs.HasFile (files i.move).1 (files i.move).2 ∧ (files i.move).1 ≠ d
  generate : i.generate ≠ [] → NamesEntry w.fs w.cwd i.generate d (files i.generate).1 ∧
    w.fs.HasFile (files i.generate).1 (files i.generate).2 ∧ (files i.generate).1 ≠ d

variable {files i} {T : Trees} {w₀ w : World} {x : Path} {d : Loc}

theorem forall₂_ite {α β : Type*} {R : α → β → Prop} {p : Prop} [Decidable p] {a : α} {b : β}
    (h : ¬p → R a b) : List.Forall₂ R (if p then [] else [a]) (if p then [] else [b]) := by
  split_ifs with hp
  · exact .nil
  · exact .cons (h hp) .nil

/-- Each line of an item does a deed of it. -/
theorem does_content (h : i.Sources files T w₀ w d)
    (habs : isAbs i.target = true → i.link = [] ∧ i.chmod = none) :
    List.Forall₂ (Does x i.target d w) (cmdContent T i w₀ x) (i.deeds files) := by
  have hrel : i.link ≠ [] ∨ i.chmod ≠ none → isAbs i.target = false := fun hne => by
    by_contra ha
    obtain ⟨hl, hc⟩ := habs (by simpa using ha)
    simp [hl, hc] at hne
  refine List.rel_append (List.rel_append (List.rel_append (List.rel_append (List.rel_append ?_ ?_)
    ?_) ?_) ?_) ?_
  · exact forall₂_ite fun hc => .copy (h.copy hc).1 (h.copy hc).2
  · exact forall₂_ite fun hm => .move (h.move hm).1 (h.move hm).2.1 (h.move hm).2.2
  · exact forall₂_ite fun hl => .link hl (hrel (.inl hl))
  · split_ifs
    · exact .cons .touch .nil
    · exact .nil
  · exact forall₂_ite fun hg => .move (h.generate hg).1 (h.generate hg).2.1 (h.generate hg).2.2
  · cases hc : i.chmod with
    | none => exact .nil
    | some mode => exact .cons (.chmod (hrel (.inr (by simp [hc])))) .nil

/-- What an item takes away is what it moves. -/
theorem Item.gone_cases {e : Deed} {s : Loc} (he : e ∈ i.deeds files) (hs : s ∈ e.gone) :
    i.move ≠ [] ∧ s = (files i.move).1 ∨ i.generate ≠ [] ∧ s = (files i.generate).1 := by
  simp only [Item.deeds, List.mem_append, List.mem_ite_nil_left, List.mem_ite_nil_right,
    List.mem_singleton] at he
  rcases he with ((((⟨-, rfl⟩ | ⟨hm, rfl⟩) | ⟨-, rfl⟩) | ⟨-, rfl⟩) | ⟨hg, rfl⟩) | he
  · simp [Deed.gone] at hs
  · exact .inl ⟨hm, (Option.some.inj hs).symm⟩
  · simp [Deed.gone] at hs
  · simp [Deed.gone] at hs
  · exact .inr ⟨hg, (Option.some.inj hs).symm⟩
  · cases hc : i.chmod with
    | none => simp [hc] at he
    | some mode =>
      rw [hc, List.mem_singleton] at he
      simp [he, Deed.gone] at hs

/-! ### What was there before -/

theorem afterAll_cons (e : Deed) (es : List Deed) (c : Option Content) :
    afterAll (e :: es) c = afterAll es (e.after c) := rfl

/-- A deed that puts something in place makes up for what was there. -/
theorem afterAll_congr {es : List Deed} {e : Deed} (he : e ∈ es)
    (hcongr : ∀ c c', e.after c = e.after c') (c c' : Option Content) :
    afterAll es c = afterAll es c' := by
  induction es generalizing c c' with
  | nil => simp at he
  | cons f es ih =>
    rw [afterAll_cons, afterAll_cons]
    rcases List.mem_cons.mp he with rfl | he
    · rw [hcongr c c']
    · exact ih he _ _

/-- To touch an empty file is to make one. -/
theorem afterAll_touch {es : List Deed} (he : .touch ∈ es) :
    afterAll es (some (.reg [] false)) = afterAll es none := by
  induction es with
  | nil => simp at he
  | cons f es ih =>
    rw [afterAll_cons, afterAll_cons]
    cases f with
    | chmod => exact ih (by simpa using he)
    | _ => rfl

theorem isSome_afterAll {es : List Deed} {c : Option Content} (hc : c.isSome) :
    (afterAll es c).isSome := by
  induction es generalizing c with
  | nil => exact hc
  | cons e es ih =>
    obtain ⟨k, rfl⟩ := Option.isSome_iff_exists.mp hc
    exact ih (by cases e <;> rfl)

theorem isSome_afterAll_of_mem {es : List Deed} {e : Deed} {c : Option Content} (he : e ∈ es)
    (hsome : ∀ c, (e.after c).isSome) : (afterAll es c).isSome := by
  induction es generalizing c with
  | nil => simp at he
  | cons f es ih =>
    rw [afterAll_cons]
    rcases List.mem_cons.mp he with rfl | he
    · exact isSome_afterAll (hsome c)
    · exact ih he

theorem isSome_touch (c : Option Content) : (Deed.touch.after c).isSome := by
  cases c <;> rfl

/-- An item that settles what is there puts the same in place whatever was there. -/
theorem Item.Settles.afterAll_eq {c : Option Content} (h : i.Settles c) :
    afterAll (i.deeds files) (i.found c) = i.result files ∧ (i.result files).isSome := by
  have hcongr : ∀ e ∈ i.deeds files, (∀ c c', e.after c = e.after c') →
      (∀ c, (e.after c).isSome) →
      afterAll (i.deeds files) (i.found c) = i.result files ∧ (i.result files).isSome :=
    fun e he heq hsome => ⟨afterAll_congr he heq _ _, isSome_afterAll_of_mem he hsome⟩
  rcases h with hd | hcp | hm | hl | hg | ⟨ht, hc⟩
  · rw [Item.result, Item.found, Item.found, if_neg hd, if_neg hd]
    exact ⟨rfl, isSome_afterAll rfl⟩
  · exact hcongr (.copy (files i.copy).1 (files i.copy).2) (by simp [Item.deeds, hcp])
      (fun _ _ => rfl) fun _ => rfl
  · exact hcongr (.move (files i.move).1 (files i.move).2) (by simp [Item.deeds, hm])
      (fun _ _ => rfl) fun _ => rfl
  · exact hcongr (.link i.link) (by simp [Item.deeds, hl]) (fun _ _ => rfl) fun _ => rfl
  · exact hcongr (.move (files i.generate).1 (files i.generate).2) (by simp [Item.deeds, hg])
      (fun _ _ => rfl) fun _ => rfl
  · have hmem : Deed.touch ∈ i.deeds files := by simp [Item.deeds, ht]
    refine ⟨?_, isSome_afterAll_of_mem hmem isSome_touch⟩
    rw [Item.result]
    unfold Item.found
    split_ifs with hd
    · rcases hc with rfl | rfl
      · rfl
      · exact afterAll_touch hmem
    · rfl

end ItemDeeds

end Makeroot
