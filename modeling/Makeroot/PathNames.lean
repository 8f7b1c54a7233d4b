import Makeroot.Paths

/-!
# The path functions of tools/install/lib

`base_name`, `dirname`, `strip_trailing_slashes` and `path_concat` work on the text of a
path. Here is what they do to the components it is resolved by : `isChild_pathConcat`
and `isChild_dirname` say that a path put together by `path_concat`, or taken apart by
`dirname` and `base_name`, leads through the directory to the entry.
-/

namespace Makeroot

open Posix

/-- `base_name` : what is behind the last slash. -/
def baseName (name : Path) : Path := (name.reverse.takeWhile (· ≠ '/')).reverse

/-- `strip_trailing_slashes`. The first character stays. -/
def stripTrailingSlashes (path : Path) : Path :=
  match (path.reverse.dropWhile (· = '/')).reverse with
  | [] => path.take 1
  | c :: cs => c :: cs

/-- `dirname` : what is before the last slash, without slashes at its end. -/
def dirname (path : Path) : Path :=
  if '/' ∈ path then stripTrailingSlashes (path.reverse.dropWhile (· ≠ '/')).reverse else ['.']

/-- `path_concat`. The directory is not empty. -/
def pathConcat (dir base : Path) : Path :=
  if dir.getLast? = some '/' ∧ base.head? = some '/' then dir.dropLast ++ base
  else if dir.getLast? ≠ some '/' ∧ base.head? ≠ some '/' then dir ++ '/' :: base
  else dir ++ base

/-! ## Slashes -/

theorem pieces_append_slashes (t : Path) (k : ℕ) :
    pieces (t ++ List.replicate k '/') = pieces t := by
  induction k generalizing t with
  | zero => simp
  | succ k ih =>
    have h := pieces_append_slash t (List.replicate k '/')
    have hk := ih []
    rw [List.nil_append, pieces_nil] at hk
    rw [List.replicate_succ, h, hk, List.append_nil]

/-- A path is what is left of it, and slashes. -/
theorem exists_stripTrailingSlashes (t : Path) :
    ∃ k, t = stripTrailingSlashes t ++ List.replicate k '/' := by
  have hsplit : t = (t.reverse.dropWhile (· = '/')).reverse ++
      (t.reverse.takeWhile (· = '/')).reverse := by
    rw [← List.reverse_append, List.takeWhile_append_dropWhile, List.reverse_reverse]
  have hslash : (t.reverse.takeWhile (· = '/')).reverse =
      List.replicate (t.reverse.takeWhile (· = '/')).length '/' := by
    rw [List.eq_replicate_iff]
    refine ⟨List.length_reverse, fun c hc => ?_⟩
    simpa using List.mem_takeWhile_imp (List.mem_reverse.mp hc)
  generalize hk : (t.reverse.takeWhile (· = '/')).length = k at hslash
  rw [hslash] at hsplit
  unfold stripTrailingSlashes
  split
  · rename_i h
    rw [h, List.nil_append] at hsplit
    cases k with
    | zero => exact ⟨0, by simp [hsplit]⟩
    | succ k => exact ⟨k, by rw [hsplit, List.replicate_succ]; rfl⟩
  · rename_i c cs h
    exact ⟨k, by rw [← h]; exact hsplit⟩

theorem pieces_stripTrailingSlashes (t : Path) : pieces (stripTrailingSlashes t) = pieces t := by
  obtain ⟨k, hk⟩ := exists_stripTrailingSlashes t
  conv_rhs => rw [hk, pieces_append_slashes]

theorem stripTrailingSlashes_ne_nil {t : Path} (h : t ≠ []) : stripTrailingSlashes t ≠ [] := by
  unfold stripTrailingSlashes
  split
  · cases t with
    | nil => exact absurd rfl h
    | cons c t => simp
  · simp

theorem isAbs_append {t : Path} (h : t ≠ []) (u : Path) : isAbs (t ++ u) = isAbs t := by
  cases t with
  | nil => exact absurd rfl h
  | cons c t => rfl

theorem isAbs_stripTrailingSlashes (t : Path) : isAbs (stripTrailingSlashes t) = isAbs t := by
  by_cases ht : t = []
  · simp [ht, stripTrailingSlashes]
  · obtain ⟨k, hk⟩ := exists_stripTrailingSlashes t
    conv_rhs => rw [hk, isAbs_append (stripTrailingSlashes_ne_nil ht)]

/-! ## Components -/

theorem comps_of_pieces {t : Path} (h : t.getLast? ≠ some '/') : comps t = pieces t := by
  simp [comps, h]

theorem getLast?_append_name (t : Path) (n : Name) : (t ++ n.val).getLast? ≠ some '/' := by
  rw [List.getLast?_append_of_ne_nil _ n.2.1]
  exact fun h => n.2.2.1 (List.mem_of_getLast? h)

theorem head?_name (n : Name) : n.val.head? ≠ some '/' :=
  fun h => n.2.2.1 (List.mem_of_mem_head? h)

/-- The components of a concatenation are those of its parts. -/
theorem pieces_pathConcat {dir : Path} (hd : dir ≠ []) (base : Path) :
    pieces (pathConcat dir base) = pieces dir ++ pieces base := by
  have hlast : ∀ {t : Path}, t.getLast? = some '/' → ∃ d, t = d ++ ['/'] := fun h =>
    ⟨_, (List.dropLast_append_getLast? _ h).symm⟩
  unfold pathConcat
  split_ifs with h₁ h₂
  · obtain ⟨d, rfl⟩ := hlast h₁.1
    obtain ⟨b, rfl⟩ : ∃ b, base = '/' :: b := by
      cases base with
      | nil => simp at h₁
      | cons c b => exact ⟨b, by simpa using h₁.2⟩
    have hb := pieces_append_slash [] b
    rw [List.nil_append, pieces_nil, List.nil_append] at hb
    rw [List.dropLast_concat, pieces_append_slash, hb, pieces_append_slash, pieces_nil,
      List.append_nil]
  · exact pieces_append_slash dir base
  · by_cases h : dir.getLast? = some '/'
    · obtain ⟨d, rfl⟩ := hlast h
      rw [List.append_assoc, List.singleton_append, pieces_append_slash, pieces_append_slash,
        pieces_nil, List.append_nil]
    · have hb : base.head? = some '/' := by
        by_contra hb
        exact h₂ ⟨h, hb⟩
      obtain ⟨b, rfl⟩ : ∃ b, base = '/' :: b := by
        cases base with
        | nil => simp at hb
        | cons c b => exact ⟨b, by simpa using hb⟩
      have hb := pieces_append_slash [] b
      rw [List.nil_append, pieces_nil, List.nil_append] at hb
      rw [pieces_append_slash, hb]

theorem pathConcat_ne_nil {dir : Path} (hd : dir ≠ []) (base : Path) :
    pathConcat dir base ≠ [] := by
  unfold pathConcat
  split_ifs with h₁ h₂
  · intro h
    rw [List.append_eq_nil_iff] at h
    rw [h.2] at h₁
    simp at h₁
  · simp
  · simp [hd]

theorem isAbs_pathConcat {dir : Path} (hd : dir ≠ []) (base : Path) :
    isAbs (pathConcat dir base) = isAbs dir := by
  unfold pathConcat
  split_ifs with h₁ h₂
  · cases dir with
    | nil => exact absurd rfl hd
    | cons c dir =>
      cases dir with
      | nil =>
        have hc : c = '/' := by simpa using h₁.1
        simpa [isAbs, hc] using h₁.2
      | cons c' dir => rfl
  · exact isAbs_append hd _
  · exact isAbs_append hd _

theorem pathConcat_name (dir : Path) (n : Name) : pathConcat dir n.val =
    if dir.getLast? = some '/' then dir ++ n.val else dir ++ '/' :: n.val := by
  unfold pathConcat
  simp only [head?_name n, and_false, if_false, not_false_eq_true, and_true, ne_eq]
  split_ifs <;> simp_all

/-- `path_concat` of a directory and a name is the path of the entry. -/
theorem isChild_pathConcat {dir : Path} (hd : dir ≠ []) (n : Name) :
    IsChild dir n (pathConcat dir n.val) := by
  refine ⟨pathConcat_ne_nil hd _, isAbs_pathConcat hd _, .inl ?_⟩
  have hlast : (pathConcat dir n.val).getLast? ≠ some '/' := by
    rw [pathConcat_name]
    split_ifs
    · exact getLast?_append_name dir n
    · have h := getLast?_append_name (dir ++ ['/']) n
      rwa [List.append_assoc, List.singleton_append] at h
  rw [comps_of_pieces hlast, pieces_pathConcat hd, pieces_name]

/-! ## Taking a path apart -/

/-- A path with a slash in it is a directory, a slash and a base name. -/
theorem exists_dirname {t : Path} (h : '/' ∈ t) :
    ∃ d, t = d ++ '/' :: baseName t ∧ dirname t = stripTrailingSlashes (d ++ ['/']) := by
  have hne : t.reverse.dropWhile (· ≠ '/') ≠ [] := by
    rw [Ne, List.dropWhile_eq_nil_iff]
    intro hall
    simpa using hall '/' (List.mem_reverse.mpr h)
  obtain ⟨c, r, hr⟩ := List.exists_cons_of_ne_nil hne
  have hc : c = '/' := by
    have := List.head_dropWhile_not (· ≠ '/') hne
    simp only [hr, List.head_cons] at this
    simpa using this
  refine ⟨r.reverse, ?_, ?_⟩
  · have hsplit := congrArg List.reverse
      (List.takeWhile_append_dropWhile (p := (· ≠ '/')) (l := t.reverse))
    rw [List.reverse_append, List.reverse_reverse, hr, hc, List.reverse_cons] at hsplit
    rw [List.append_assoc, List.singleton_append] at hsplit
    exact hsplit.symm
  · rw [dirname, if_pos h, hr, hc, List.reverse_cons]

theorem baseName_of_notMem {t : Path} (h : '/' ∉ t) : baseName t = t := by
  have hall : t.reverse.takeWhile (· ≠ '/') = t.reverse := by
    rw [List.takeWhile_eq_self_iff]
    intro c hc
    simpa using fun hc' : c = '/' => h (hc' ▸ List.mem_reverse.mp hc)
  rw [baseName, hall, List.reverse_reverse]

/-- A path that ends in a name is the path of an entry of its `dirname`. -/
theorem isChild_dirname {t : Path} {n : Name} (hn : baseName t = n.val) :
    IsChild (dirname t) n t := by
  by_cases h : '/' ∈ t
  · obtain ⟨d, ht, hd⟩ := exists_dirname h
    rw [hn] at ht
    have hdir : isAbs (dirname t) = isAbs t := by
      rw [hd, isAbs_stripTrailingSlashes, ht]
      cases d <;> rfl
    refine ⟨by simp [ht], hdir.symm, .inl ?_⟩
    have hlast : t.getLast? ≠ some '/' := by
      have h' := getLast?_append_name (d ++ ['/']) n
      rwa [List.append_assoc, List.singleton_append, ← ht] at h'
    rw [comps_of_pieces hlast, hd, pieces_stripTrailingSlashes, pieces_append_slash, pieces_nil,
      List.append_nil]
    conv_lhs => rw [ht, pieces_append_slash, pieces_name]
  · have ht : t = n.val := by
      rw [← hn, baseName]
      have hall : t.reverse.takeWhile (· ≠ '/') = t.reverse := by
        rw [List.takeWhile_eq_self_iff]
        intro c hc
        simpa using fun hc' : c = '/' => h (hc' ▸ List.mem_reverse.mp hc)
      rw [hall, List.reverse_reverse]
    have hdot : dirname t = ['.'] := by rw [dirname, if_neg h]
    have habs : isAbs t = false := by
      have := head?_name n
      simpa [isAbs, ht] using this
    refine ⟨by simpa [ht] using n.2.1, by rw [habs, hdot]; rfl, .inr ⟨?_, ?_⟩⟩
    · rw [hdot]
      decide +kernel
    · have hlast := getLast?_append_name [] n
      rw [List.nil_append] at hlast
      rw [ht, comps_of_pieces hlast, pieces_name]

/-- Only the root has a slash left at its end. -/
theorem stripTrailingSlashes_getLast {t : Path}
    (h : (stripTrailingSlashes t).getLast? = some '/') : stripTrailingSlashes t = ['/'] := by
  unfold stripTrailingSlashes at h ⊢
  split at h
  · cases t with
    | nil => simp at h
    | cons c t => simpa using h
  · rename_i c cs hcs
    rw [← hcs, List.getLast?_reverse] at h
    have hne : t.reverse.dropWhile (· = '/') ≠ [] := fun hnil => by simp [hnil] at hcs
    have hhead := List.head_dropWhile_not (· = '/') hne
    rw [List.head?_eq_some_head hne, Option.some.injEq] at h
    simp [h] at hhead

theorem dirname_ne_nil (t : Path) : dirname t ≠ [] := by
  by_cases h : '/' ∈ t
  · obtain ⟨d, -, hd⟩ := exists_dirname h
    rw [hd]
    exact stripTrailingSlashes_ne_nil (by simp)
  · simp [dirname, h]

/-- What is before the last slash is the `dirname`, and more slashes. -/
theorem exists_dirname_append {t d : Path} (hd : dirname t = stripTrailingSlashes (d ++ ['/']))
    (hroot : dirname t ≠ ['/']) : ∃ k, d = dirname t ++ List.replicate k '/' := by
  obtain ⟨k, hk⟩ := exists_stripTrailingSlashes (d ++ ['/'])
  rw [← hd] at hk
  cases k with
  | zero =>
    refine absurd ?_ hroot
    rw [List.replicate_zero, List.append_nil] at hk
    rw [hd]
    refine stripTrailingSlashes_getLast ?_
    rw [← hd, ← hk]
    simp
  | succ k =>
    refine ⟨k, ?_⟩
    rw [List.replicate_succ', ← List.append_assoc] at hk
    exact List.append_cancel_right hk

theorem slash_notMem_baseName (t : Path) : '/' ∉ baseName t := by
  intro h
  have := List.mem_takeWhile_imp (List.mem_reverse.mp h)
  simp at this

/-- The components of a path are those before its base name, and that. -/
theorem exists_pieces_baseName (t : Path) : ∃ cs, pieces t = cs ++ pieces (baseName t) := by
  by_cases h : '/' ∈ t
  · obtain ⟨d, ht, -⟩ := exists_dirname h
    exact ⟨pieces d, by conv_lhs => rw [ht, pieces_append_slash]⟩
  · exact ⟨[], by rw [baseName_of_notMem h, List.nil_append]⟩

theorem pieces_of_notMem {t : Path} (h : '/' ∉ t) :
    pieces t = [t].filterMap Comp.ofText := by
  have hsplit : t.splitOnP (· = '/') = [t] :=
    List.splitOnP_eq_singleton fun c hc => by
      have hne : c ≠ '/' := fun h' => h (h' ▸ hc)
      simpa using hne
  rw [pieces, hsplit]

/-- A path that does not end in a slash ends in a name or in dots. -/
theorem baseName_cases {t : Path} (ht : t ≠ []) (hlast : t.getLast? ≠ some '/') :
    (∃ n : Name, baseName t = n.val) ∨ baseName t = ['.'] ∨ baseName t = ['.', '.'] := by
  have hne : baseName t ≠ [] := by
    by_cases h : '/' ∈ t
    · intro hb
      obtain ⟨d, hd, -⟩ := exists_dirname h
      rw [hb] at hd
      rw [hd] at hlast
      simp at hlast
    · rwa [baseName_of_notMem h]
  by_cases h₁ : baseName t = ['.']
  · exact .inr (.inl h₁)
  · by_cases h₂ : baseName t = ['.', '.']
    · exact .inr (.inr h₂)
    · exact .inl ⟨⟨baseName t, hne, slash_notMem_baseName t, h₁, h₂⟩, rfl⟩

/-- A path that ends in dots names a directory. -/
theorem isDir_of_dots {fs : FS} {cwd p : Loc} {t : Path} (hlast : t.getLast? ≠ some '/')
    (hr : fs.resolve cwd true t = .ok (.there p))
    (hb : baseName t = ['.'] ∨ baseName t = ['.', '.']) : fs.isDir p := by
  obtain ⟨cs, hcs⟩ := exists_pieces_baseName t
  obtain ⟨c, hc, hbase⟩ : ∃ c, (c = .cur ∨ c = .up) ∧ pieces (baseName t) = [c] := by
    rcases hb with hb | hb
    · exact ⟨.cur, .inl rfl, by rw [hb]; decide +kernel⟩
    · exact ⟨.up, .inr rfl, by rw [hb]; decide +kernel⟩
  unfold FS.resolve at hr
  split_ifs at hr
  rw [comps_of_pieces hlast, hcs, hbase] at hr
  obtain ⟨q, hq, hd⟩ := FS.walk_prefix hr
  obtain ⟨k, -, hk⟩ := FS.walk_append hq
  rw [(hk [c] (by simp)).1] at hr
  rcases hc with rfl | rfl
  · rw [FS.walk_of_done (show fs.scan q [.cur] = .done q by simp [FS.scan, hd])] at hr
    simp only [Except.ok.injEq, Found.there.injEq] at hr
    exact hr ▸ hd
  · rw [FS.walk_of_done (show fs.scan q [.up] = .done q.tail by simp [FS.scan, hd])] at hr
    simp only [Except.ok.injEq, Found.there.injEq] at hr
    rw [← hr]
    cases q with
    | nil => exact hd
    | cons n q =>
      obtain ⟨j, hj, -⟩ := fs.isDir_iff.mp hd
      exact FS.isDir_parent hj

/-- A path that ends in a slash names a directory. -/
theorem isDir_of_slash {fs : FS} {cwd p : Loc} {t : Path} (hlast : t.getLast? = some '/')
    (hr : fs.resolve cwd true t = .ok (.there p)) : fs.isDir p := by
  unfold FS.resolve at hr
  split_ifs at hr
  rw [comps, if_pos hlast] at hr
  obtain ⟨q, hq, hd⟩ := FS.walk_prefix hr
  obtain ⟨k, -, hk⟩ := FS.walk_append hq
  rw [(hk [.slash] (by simp)).1, FS.walk_slash hd, Except.ok.injEq, Found.there.injEq] at hr
  exact hr ▸ hd

/-- A path that names an object that is no directory ends in a name. -/
theorem exists_baseName {fs : FS} {cwd p : Loc} {t : Path}
    (hr : fs.resolve cwd true t = .ok (.there p)) (hd : fs.isDir p = false) :
    t.getLast? ≠ some '/' ∧ ∃ n : Name, baseName t = n.val := by
  have hlast : t.getLast? ≠ some '/' := fun h => by
    rw [isDir_of_slash h hr] at hd
    simp at hd
  have hne : t ≠ [] := fun h => by simp [FS.resolve, h] at hr
  refine ⟨hlast, (baseName_cases hne hlast).resolve_right fun hb => ?_⟩
  rw [isDir_of_dots hlast hr hb] at hd
  simp at hd

end Makeroot
