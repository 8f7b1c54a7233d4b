import Makeroot.FileSystem

/-!
# Path resolution

A path is resolved component by component, from the root or from the current directory.
`scan` goes as far as the next symbolic link ; `walk` follows the link and goes on with
what is left. A link at the very end is followed only on request, but a slash behind it
counts as a component, so it is followed then.

`walk_append` is resolution in two steps, through a directory that the first components
name. `NamesDir` says that a path names a directory and which region of the file system
the links on the way keep out of ; such a path goes on naming the directory whatever
happens in that region (`NamesDir.mono`), and a path to an entry of the directory
resolves to that entry (`NamesDir.resolve_child`).
-/

namespace Posix

inductive Errno
  | noent
  | notdir
  | exist
  | isdir
  | loop
  /-- What a call may fail with besides. -/
  | other
deriving DecidableEq

/-- A component of a path. -/
inductive Comp
  /-- A dot. -/
  | cur
  /-- Two dots. -/
  | up
  | name (n : Name)
  /-- Slashes at the end. -/
  | slash
deriving DecidableEq

/-- A component with no slash in it. Between two slashes there may be nothing. -/
def Comp.ofText (t : List Char) : Option Comp :=
  if h : IsName t then some (.name ⟨t, h⟩)
  else if t = ['.'] then some .cur
  else if t = ['.', '.'] then some .up
  else none

/-- The components of a path, but for slashes at the end. -/
def pieces (t : Path) : List Comp := (t.splitOnP (· = '/')).filterMap Comp.ofText

/-- The components of a path. -/
def comps (t : Path) : List Comp :=
  pieces t ++ if t.getLast? = some '/' then [.slash] else []

def isAbs (t : Path) : Bool := t.head? = some '/'

theorem pieces_nil : pieces [] = [] := by simp [pieces, Comp.ofText, IsName]

theorem pieces_append_slash (a b : Path) : pieces (a ++ '/' :: b) = pieces a ++ pieces b := by
  rw [pieces, List.splitOnP_append_cons _ _ (by simp), List.filterMap_append, pieces, pieces]

theorem pieces_name (n : Name) : pieces n.val = [.name n] := by
  have hs : n.val.splitOnP (· = '/') = [n.val] :=
    List.splitOnP_eq_singleton fun c hc => by
      have hne : c ≠ '/' := fun h => n.2.2.1 (h ▸ hc)
      simpa using hne
  rw [pieces, hs]
  simp [Comp.ofText, n.2]

/-- Where the resolution of a path begins. -/
def start (cwd : Loc) (t : Path) : Loc := if isAbs t then [] else cwd

/-! ## Resolution -/

/-- How far a path goes without following a link. -/
inductive Scan
  | done (p : Loc)
  /-- There is no `n` in the directory `p`. -/
  | absent (p : Loc) (n : Name) (rest : List Comp)
  /-- The entry `n` of `p` is a link. -/
  | jump (p : Loc) (n : Name) (target : Path) (rest : List Comp)
  | fail (e : Errno)

/-- What a path resolves to. -/
inductive Found
  | there (p : Loc)
  /-- All but the last name is there. -/
  | absent (p : Loc) (n : Name) (slash : Bool)
deriving DecidableEq

namespace FS

variable (fs : FS)

def scan : Loc → List Comp → Scan
  | p, [] => .done p
  | p, .cur :: cs => if fs.isDir p then scan p cs else .fail .notdir
  | p, .slash :: cs => if fs.isDir p then scan p cs else .fail .notdir
  | p, .up :: cs => if fs.isDir p then scan p.tail cs else .fail .notdir
  | p, .name n :: cs =>
    if fs.isDir p then
      match fs.node (n :: p) with
      | none => .absent p n cs
      | some k =>
        match k.content with
        | .lnk t => .jump p n t cs
        | _ => scan (n :: p) cs
    else .fail .notdir

/-- Resolve components from `p`, through `k` links at most. -/
def walk (follow : Bool) : ℕ → Loc → List Comp → Except Errno Found
  | k, p, cs =>
    match fs.scan p cs with
    | .done q => .ok (.there q)
    | .absent q n rest =>
      if rest = [] then .ok (.absent q n false)
      else if rest = [.slash] then .ok (.absent q n true)
      else .error .noent
    | .jump q n t rest =>
      if rest = [] ∧ follow = false then .ok (.there (n :: q))
      else
        match k with
        | 0 => .error .loop
        | k + 1 => if t = [] then .error .noent else walk follow k (start q t) (comps t ++ rest)
    | .fail e => .error e

/-- The links that are followed on the way. -/
def links : ℕ → Loc → List Comp → List Loc
  | k, p, cs =>
    match fs.scan p cs with
    | .jump q n t rest =>
      match k with
      | 0 => []
      | k + 1 => (n :: q) :: links k (start q t) (comps t ++ rest)
    | _ => []

/-- The kernel's bound on the links of one path. -/
def maxLinks : ℕ := 40

/-- Resolve a path. -/
def resolve (cwd : Loc) (follow : Bool) (t : Path) : Except Errno Found :=
  if t = [] then .error .noent else fs.walk follow maxLinks (start cwd t) (comps t)

/-! ### Resolution in two steps -/

theorem scan_append (p : Loc) (cs ds : List Comp) : fs.scan p (cs ++ ds) =
    match fs.scan p cs with
    | .done q => fs.scan q ds
    | .absent q n rest => .absent q n (rest ++ ds)
    | .jump q n t rest => .jump q n t (rest ++ ds)
    | .fail e => .fail e := by
  induction cs generalizing p with
  | nil => rfl
  | cons c cs ih =>
    by_cases hp : fs.isDir p
    · cases c with
      | cur => simpa only [List.cons_append, scan, hp, if_true] using ih p
      | slash => simpa only [List.cons_append, scan, hp, if_true] using ih p
      | up => simpa only [List.cons_append, scan, hp, if_true] using ih p.tail
      | name n =>
        simp only [List.cons_append, scan, hp, if_true]
        cases fs.node (n :: p) with
        | none => rfl
        | some k =>
          dsimp only
          cases k.content with
          | lnk t => rfl
          | reg bytes sparse => exact ih (n :: p)
          | dir => exact ih (n :: p)
    · cases c <;> simp [scan, hp]

/-- A path with components left has come to a directory. -/
theorem isDir_of_scan {p : Loc} {c : Comp} {cs : List Comp}
    (h : ∀ e, fs.scan p (c :: cs) ≠ .fail e) : fs.isDir p := by
  by_contra hp
  exact h .notdir (by cases c <;> simp [scan, hp])

variable {fs}

theorem walk_of_done {follow : Bool} {k : ℕ} {p q : Loc} {cs : List Comp}
    (h : fs.scan p cs = .done q) : fs.walk follow k p cs = .ok (.there q) := by
  unfold walk
  rw [h]

theorem walk_of_jump {follow : Bool} {k : ℕ} {p q : Loc} {n : Name} {t : Path}
    {cs rest : List Comp} (h : fs.scan p cs = .jump q n t rest)
    (hf : ¬(rest = [] ∧ follow = false)) (ht : t ≠ []) :
    fs.walk follow (k + 1) p cs = fs.walk follow k (start q t) (comps t ++ rest) := by
  rw [walk, h]
  simp only [if_neg hf, if_neg ht]

/-- How a path comes to name an object, all links followed. -/
theorem walk_eq_there {k : ℕ} {p q : Loc} {cs : List Comp}
    (h : fs.walk true k p cs = .ok (.there q)) : fs.scan p cs = .done q ∨
      ∃ k' r n t rest, k = k' + 1 ∧ t ≠ [] ∧ fs.scan p cs = .jump r n t rest ∧
        fs.walk true k' (start r t) (comps t ++ rest) = .ok (.there q) := by
  unfold walk at h
  cases hs : fs.scan p cs with
  | done r =>
    rw [hs] at h
    simp only [Except.ok.injEq, Found.there.injEq] at h
    exact .inl (by rw [h])
  | absent r n rest =>
    rw [hs] at h
    simp only at h
    split_ifs at h <;> simp at h
  | fail e => simp [hs] at h
  | jump r n t rest =>
    rw [hs] at h
    cases k with
    | zero => simp at h
    | succ k =>
      by_cases ht : t = []
      · simp [ht] at h
      · simp only [Bool.true_eq_false, and_false, if_false, ht] at h
        exact .inr ⟨k, r, n, t, rest, rfl, ht, rfl, h⟩

/-- How a path comes to name an object. -/
theorem walk_there {follow : Bool} {k : ℕ} {p q : Loc} {cs : List Comp}
    (h : fs.walk follow k p cs = .ok (.there q)) : fs.scan p cs = .done q ∨
      ∃ r n t rest, fs.scan p cs = .jump r n t rest ∧
        (rest = [] ∧ follow = false ∧ q = n :: r ∨ ∃ k', k = k' + 1 ∧ t ≠ [] ∧
          ¬(rest = [] ∧ follow = false) ∧
          fs.walk follow k' (start r t) (comps t ++ rest) = .ok (.there q)) := by
  unfold walk at h
  cases hs : fs.scan p cs with
  | done r =>
    rw [hs] at h
    simp only [Except.ok.injEq, Found.there.injEq] at h
    exact .inl (by rw [h])
  | absent r n rest =>
    rw [hs] at h
    simp only at h
    split_ifs at h <;> simp at h
  | fail e => simp [hs] at h
  | jump r n t rest =>
    rw [hs] at h
    refine .inr ⟨r, n, t, rest, rfl, ?_⟩
    by_cases hf : rest = [] ∧ follow = false
    · simp only [hf, and_self, if_true, Except.ok.injEq, Found.there.injEq] at h
      exact .inl ⟨hf.1, hf.2, h.symm⟩
    · cases k with
      | zero => simp [hf] at h
      | succ k =>
        by_cases ht : t = []
        · simp [ht, hf] at h
        · exact .inr ⟨k, rfl, ht, hf, by simpa only [hf, ht, if_false] using h⟩

theorem links_of_done {k : ℕ} {p q : Loc} {cs : List Comp} (h : fs.scan p cs = .done q) :
    fs.links k p cs = [] := by
  unfold links
  rw [h]

theorem links_of_jump {k : ℕ} {p q : Loc} {n : Name} {t : Path} {cs rest : List Comp}
    (h : fs.scan p cs = .jump q n t rest) :
    fs.links (k + 1) p cs = (n :: q) :: fs.links k (start q t) (comps t ++ rest) := by
  rw [links, h]

theorem walk_append_of_done {k : ℕ} {p q : Loc} {cs : List Comp} (hs : fs.scan p cs = .done q)
    (ds : List Comp) : (∀ follow, fs.walk follow k p (cs ++ ds) = fs.walk follow k q ds) ∧
      fs.links k p (cs ++ ds) = fs.links k p cs ++ fs.links k q ds := by
  have hscan := fs.scan_append p cs ds
  rw [hs] at hscan
  refine ⟨fun follow => by rw [walk, walk, hscan], ?_⟩
  rw [links_of_done hs, List.nil_append, links, links, hscan]

/-- A path whose beginning names `q` is resolved from `q` on. -/
theorem walk_append {k : ℕ} {p q : Loc} {cs : List Comp}
    (h : fs.walk true k p cs = .ok (.there q)) : ∃ k' ≤ k, ∀ ds, ds ≠ [] →
      (∀ follow, fs.walk follow k p (cs ++ ds) = fs.walk follow k' q ds) ∧
      fs.links k p (cs ++ ds) = fs.links k p cs ++ fs.links k' q ds := by
  induction k generalizing p cs with
  | zero =>
    rcases walk_eq_there h with hs | ⟨k', r, n, t, rest, hk, -⟩
    · exact ⟨0, le_rfl, fun ds _ => walk_append_of_done hs ds⟩
    · omega
  | succ k ih =>
    rcases walk_eq_there h with hs | ⟨k', r, n, t, rest, hk, ht, hs, hw⟩
    · exact ⟨k + 1, le_rfl, fun ds _ => walk_append_of_done hs ds⟩
    · obtain rfl : k = k' := by omega
      obtain ⟨k', hk', hw'⟩ := ih hw
      refine ⟨k', by omega, fun ds hds => ?_⟩
      have hscan := fs.scan_append p cs ds
      rw [hs] at hscan
      obtain ⟨h₁, h₂⟩ := hw' ds hds
      refine ⟨fun follow => ?_, ?_⟩
      · rw [walk_of_jump hscan (by simp [hds]) ht, ← List.append_assoc]
        exact h₁ follow
      · rw [links_of_jump hscan, links_of_jump hs, ← List.append_assoc, h₂, List.cons_append]

theorem walk_name {follow : Bool} {k : ℕ} {q : Loc} {n : Name} (hq : fs.isDir q)
    (hl : follow = false ∨ ∀ j t, fs.node (n :: q) = some j → j.content ≠ .lnk t) :
    fs.walk follow k q [.name n] =
      .ok (if (fs.node (n :: q)).isSome then .there (n :: q) else .absent q n false) := by
  unfold walk
  simp only [scan, hq, if_true]
  cases hn : fs.node (n :: q) with
  | none => simp
  | some j =>
    cases hc : j.content with
    | lnk t =>
      have hf : follow = false := hl.resolve_right fun h => h j t hn hc
      simp [hc, hf]
    | reg bytes sparse => simp [hc]
    | dir => simp [hc]

theorem walk_name_of_isDir {follow : Bool} {k : ℕ} {q : Loc} {n : Name} (hq : fs.isDir q)
    (hd : fs.isDir (n :: q)) : fs.walk follow k q [.name n] = .ok (.there (n :: q)) := by
  obtain ⟨j, hj, hjd⟩ := fs.isDir_iff.mp hd
  rw [walk_name hq (.inr fun i t hi => ?_), hj]
  · rfl
  · rw [hj, Option.some.injEq] at hi
    rw [← hi]
    exact fun hc => by simp [Node.isDir, hc] at hjd

theorem walk_slash {follow : Bool} {k : ℕ} {q : Loc} (hq : fs.isDir q) :
    fs.walk follow k q [.slash] = .ok (.there q) :=
  walk_of_done (by simp [scan, hq])

theorem scan_absent {p q : Loc} {n : Name} {cs rest : List Comp}
    (h : fs.scan p cs = .absent q n rest) : fs.isDir q ∧ fs.node (n :: q) = none := by
  induction cs generalizing p with
  | nil => simp [scan] at h
  | cons c cs ih =>
    have hp : fs.isDir p := fs.isDir_of_scan fun e he => by rw [he] at h; simp at h
    cases c with
    | cur => exact ih (by simpa only [scan, hp, if_true] using h)
    | slash => exact ih (by simpa only [scan, hp, if_true] using h)
    | up => exact ih (by simpa only [scan, hp, if_true] using h)
    | name m =>
      simp only [scan, hp, if_true] at h
      cases hn : fs.node (m :: p) with
      | none =>
        simp only [hn, Scan.absent.injEq] at h
        obtain ⟨rfl, rfl, -⟩ := h
        exact ⟨hp, hn⟩
      | some k =>
        rw [hn] at h
        cases hc : k.content with
        | lnk u => simp [hc] at h
        | reg bytes sparse => exact ih (by simpa only [hc] using h)
        | dir => exact ih (by simpa only [hc] using h)

/-- How a path comes to miss an entry. -/
theorem walk_eq_absent {follow : Bool} {k : ℕ} {p q : Loc} {n : Name} {s : Bool} {cs : List Comp}
    (h : fs.walk follow k p cs = .ok (.absent q n s)) :
    (∃ rest, fs.scan p cs = .absent q n rest) ∨ ∃ k' r m t rest, k = k' + 1 ∧ t ≠ [] ∧
      ¬(rest = [] ∧ follow = false) ∧ fs.scan p cs = .jump r m t rest ∧
      fs.walk follow k' (start r t) (comps t ++ rest) = .ok (.absent q n s) := by
  unfold walk at h
  cases hs : fs.scan p cs with
  | done r => simp [hs] at h
  | fail e => simp [hs] at h
  | absent r m rest =>
    rw [hs] at h
    simp only at h
    split_ifs at h <;> simp only [Except.ok.injEq, Found.absent.injEq] at h <;>
      exact .inl ⟨rest, by rw [h.1, h.2.1]⟩
  | jump r m t rest =>
    rw [hs] at h
    cases k with
    | zero =>
      simp only at h
      split_ifs at h
      simp at h
    | succ k =>
      simp only at h
      split_ifs at h with hf ht
      · simp at h
      · exact .inr ⟨k, r, m, t, rest, rfl, ht, hf, rfl, h⟩

theorem walk_absent {follow : Bool} {k : ℕ} {p q : Loc} {n : Name} {s : Bool} {cs : List Comp}
    (h : fs.walk follow k p cs = .ok (.absent q n s)) :
    fs.isDir q ∧ fs.node (n :: q) = none := by
  induction k generalizing p cs with
  | zero =>
    rcases walk_eq_absent h with ⟨rest, hs⟩ | ⟨k', r, m, t, rest, hk, -⟩
    · exact scan_absent hs
    · omega
  | succ k ih =>
    rcases walk_eq_absent h with ⟨rest, hs⟩ | ⟨k', r, m, t, rest, hk, -, -, -, hw⟩
    · exact scan_absent hs
    · obtain rfl : k = k' := by omega
      exact ih hw

theorem resolve_absent {cwd q : Loc} {follow : Bool} {t : Path} {n : Name} {s : Bool}
    (h : fs.resolve cwd follow t = .ok (.absent q n s)) :
    fs.isDir q ∧ fs.node (n :: q) = none := by
  unfold resolve at h
  split_ifs at h
  exact walk_absent h

/-! ### Changes that leave a resolution as it is -/

theorem content_of_isDir {fs : FS} {p : Loc} (h : fs.isDir p) :
    ∃ k, fs.node p = some k ∧ k.content = .dir := by
  simpa [Node.isDir] using fs.isDir_iff.mp h

/-- There is an object that is no link. -/
def Plain (p : Loc) : Prop := ∃ k, fs.node p = some k ∧ ∀ t, k.content ≠ .lnk t

theorem plain_of_isDir {p : Loc} (h : fs.isDir p) : fs.Plain p := by
  obtain ⟨k, hk, hc⟩ := content_of_isDir h
  exact ⟨k, hk, by simp [hc]⟩

theorem scan_mono {fs fs' : FS} (hd : ∀ p, fs.isDir p → fs'.isDir p) {p q : Loc}
    {cs : List Comp} (h : fs.scan p cs = .done q) (hq : fs'.Plain q) :
    fs'.scan p cs = .done q := by
  induction cs generalizing p with
  | nil => exact h
  | cons c cs ih =>
    have hp : fs.isDir p := fs.isDir_of_scan fun e he => by rw [he] at h; simp at h
    have hp' := hd p hp
    cases c with
    | cur => simpa only [scan, hp', if_true] using ih (by simpa only [scan, hp, if_true] using h)
    | slash => simpa only [scan, hp', if_true] using ih (by simpa only [scan, hp, if_true] using h)
    | up => simpa only [scan, hp', if_true] using ih (by simpa only [scan, hp, if_true] using h)
    | name n =>
      simp only [scan, hp, hp', if_true] at h ⊢
      cases hn : fs.node (n :: p) with
      | none => simp [hn] at h
      | some k =>
        rw [hn] at h
        -- what stands there now is no link either
        have hplain : fs.scan (n :: p) cs = .done q → fs'.Plain (n :: p) := fun hs => by
          cases cs with
          | nil => exact Scan.done.inj hs ▸ hq
          | cons d cs =>
            exact plain_of_isDir (hd _ (fs.isDir_of_scan fun e he => by rw [he] at hs; simp at hs))
        cases hc : k.content with
        | lnk t => simp [hc] at h
        | _ =>
          simp only [hc] at h
          obtain ⟨j, hj, hjl⟩ := hplain h
          rw [hj]
          cases hjc : j.content with
          | lnk t => exact absurd hjc (hjl t)
          | _ => simpa only [hjc] using ih h

theorem scan_mono_jump {fs fs' : FS} (hd : ∀ p, fs.isDir p → fs'.isDir p) {p q : Loc}
    {n : Name} {t : Path} {cs rest : List Comp} (h : fs.scan p cs = .jump q n t rest)
    (hl : fs'.node (n :: q) = fs.node (n :: q)) : fs'.scan p cs = .jump q n t rest := by
  induction cs generalizing p with
  | nil => simp [scan] at h
  | cons c cs ih =>
    have hp : fs.isDir p := fs.isDir_of_scan fun e he => by rw [he] at h; simp at h
    have hp' := hd p hp
    cases c with
    | cur => simpa only [scan, hp', if_true] using ih (by simpa only [scan, hp, if_true] using h)
    | slash => simpa only [scan, hp', if_true] using ih (by simpa only [scan, hp, if_true] using h)
    | up => simpa only [scan, hp', if_true] using ih (by simpa only [scan, hp, if_true] using h)
    | name m =>
      simp only [scan, hp, hp', if_true] at h ⊢
      cases hn : fs.node (m :: p) with
      | none => simp [hn] at h
      | some k =>
        rw [hn] at h
        cases hc : k.content with
        | lnk u =>
          simp only [hc, Scan.jump.injEq] at h
          obtain ⟨rfl, rfl, rfl, rfl⟩ := h
          simp [hl, hn, hc]
        | reg bytes sparse =>
          simp only [hc] at h
          have hk : fs.isDir (m :: p) = false := by simp [isDir_of_node hn, Node.isDir, hc]
          cases cs with
          | nil => simp [scan] at h
          | cons d cs =>
            exact absurd (fs.isDir_of_scan fun e he => by rw [he] at h; simp at h) (by simp [hk])
        | dir =>
          simp only [hc] at h
          obtain ⟨j, hj, hjc⟩ := content_of_isDir
            (hd (m :: p) (by simp [isDir_of_node hn, Node.isDir, hc]))
          simpa only [hj, hjc] using ih h

/-- A path goes on naming what is no link as long as no directory is taken away and the links
on the way stay. -/
theorem walk_mono {fs fs' : FS} (hd : ∀ p, fs.isDir p → fs'.isDir p) {k : ℕ} {p q : Loc}
    {cs : List Comp} (h : fs.walk true k p cs = .ok (.there q)) (hq : fs'.Plain q)
    (hl : ∀ l ∈ fs.links k p cs, fs'.node l = fs.node l) :
    fs'.walk true k p cs = .ok (.there q) ∧ fs'.links k p cs = fs.links k p cs := by
  induction k generalizing p cs with
  | zero =>
    rcases walk_eq_there h with hs | ⟨k', r, n, t, rest, hk, -⟩
    · have hs' := scan_mono hd hs hq
      exact ⟨walk_of_done hs', by rw [links, links, hs, hs']⟩
    · omega
  | succ k ih =>
    rcases walk_eq_there h with hs | ⟨k', r, n, t, rest, hk, ht, hs, hw⟩
    · have hs' := scan_mono hd hs hq
      exact ⟨walk_of_done hs', by rw [links, links, hs, hs']⟩
    · obtain rfl : k = k' := by omega
      have hlinks : fs.links (k + 1) p cs =
          (n :: r) :: fs.links k (start r t) (comps t ++ rest) := by rw [links, hs]
      rw [hlinks] at hl
      have hs' := scan_mono_jump hd hs (hl _ (by simp))
      obtain ⟨h₁, h₂⟩ := ih hw fun l hl' => hl l (by simp [hl'])
      refine ⟨by rw [walk_of_jump hs' (by simp) ht, h₁], ?_⟩
      rw [hlinks, ← h₂, links, hs']

/-- Names along directories go down them. -/
theorem scan_names {ms : List Name} {q : Loc} (hd : fs.isDir (ms.reverse ++ q)) :
    fs.scan q (ms.map .name) = .done (ms.reverse ++ q) := by
  induction ms generalizing q with
  | nil => rfl
  | cons n ms ih =>
    rw [List.reverse_cons, List.append_assoc, List.singleton_append] at hd ⊢
    obtain ⟨k, hk, -⟩ := fs.isDir_iff.mp hd
    have hn : fs.isDir (n :: q) := by
      rcases isDir_of_above hk (List.suffix_append ms.reverse (n :: q)) with heq | hn
      · rw [heq]
        exact hd
      · exact hn
    obtain ⟨j, hj, hc⟩ := content_of_isDir hn
    rw [List.map_cons, scan, if_pos (isDir_parent hj), hj]
    simp only [hc]
    exact ih hd

/-! ### Resolutions that agree -/

/-- More links than needed do no harm. -/
theorem walk_budget {k k' : ℕ} {p q : Loc} {cs : List Comp}
    (h : fs.walk true k p cs = .ok (.there q)) (hk : k ≤ k') :
    fs.walk true k' p cs = .ok (.there q) := by
  induction k' generalizing k p cs with
  | zero =>
    obtain rfl : k = 0 := by omega
    exact h
  | succ k' ih =>
    rcases walk_eq_there h with hs | ⟨j, r, n, t, rest, rfl, ht, hs, hw⟩
    · exact walk_of_done hs
    · rw [walk_of_jump hs (by simp) ht]
      exact ih hw (by omega)

theorem links_budget {k k' : ℕ} {p q : Loc} {cs : List Comp}
    (h : fs.walk true k p cs = .ok (.there q)) (hk : k ≤ k') :
    fs.links k' p cs = fs.links k p cs := by
  induction k' generalizing k p cs with
  | zero =>
    obtain rfl : k = 0 := by omega
    rfl
  | succ k' ih =>
    rcases walk_eq_there h with hs | ⟨j, r, n, t, rest, rfl, ht, hs, hw⟩
    · rw [links_of_done hs, links_of_done hs]
    · rw [links_of_jump hs, links_of_jump hs, ih hw (by omega)]

/-- With too few links to get through its beginning, a path is given up. -/
theorem walk_eq_loop {k k' : ℕ} {p q : Loc} {cs ds : List Comp}
    (h : fs.walk true k' p cs = .ok (.there q)) (hds : ds ≠ []) :
    fs.walk true k p cs = .ok (.there q) ∨
      ∀ follow, fs.walk follow k p (cs ++ ds) = .error .loop := by
  induction k' generalizing k p cs with
  | zero => exact .inl (walk_budget h (Nat.zero_le k))
  | succ k' ih =>
    rcases walk_eq_there h with hs | ⟨j, r, n, t, rest, hj, ht, hs, hw⟩
    · exact .inl (walk_of_done hs)
    · obtain rfl : k' = j := by omega
      have hscan := fs.scan_append p cs ds
      rw [hs] at hscan
      cases k with
      | zero =>
        refine .inr fun follow => ?_
        rw [walk, hscan]
        simp [hds]
      | succ k =>
        refine (ih (k := k) hw).imp (fun h => ?_) fun h follow => ?_
        · rw [walk_of_jump hs (by simp) ht, h]
        · rw [walk_of_jump hscan (by simp [hds]) ht, ← List.append_assoc, h]

/-- A path that is resolved is resolved up to each of its components, and to a directory
before the last. -/
theorem walk_prefix {follow : Bool} {k : ℕ} {p q : Loc} {cs : List Comp} {d : Comp}
    {ds : List Comp} (h : fs.walk follow k p (cs ++ d :: ds) = .ok (.there q)) :
    ∃ r, fs.walk true k p cs = .ok (.there r) ∧ fs.isDir r := by
  induction k using Nat.strong_induction_on generalizing p cs with
  | h k ih =>
    have hwalk := walk_there h
    rw [scan_append] at hwalk
    cases hc : fs.scan p cs with
    | done r =>
      have hr : ∀ e, fs.scan r (d :: ds) ≠ .fail e := fun e he => by simp [hc, he] at hwalk
      exact ⟨r, walk_of_done hc, fs.isDir_of_scan hr⟩
    | absent r n rest => simp [hc] at hwalk
    | fail e => simp [hc] at hwalk
    | jump r n t rest =>
      simp only [hc, reduceCtorEq, Scan.jump.injEq, false_or] at hwalk
      obtain ⟨_, _, _, _, ⟨rfl, rfl, rfl, rfl⟩, ⟨hrest, -, -⟩ | ⟨j, rfl, ht, -, hw⟩⟩ := hwalk
      · simp at hrest
      · rw [← List.append_assoc] at hw
        obtain ⟨r', h₁, h₂⟩ := ih j (by omega) hw
        exact ⟨r', by rw [walk_of_jump hc (by simp) ht, h₁], h₂⟩

/-- What a path jumps over is a link. -/
theorem scan_jump {p q : Loc} {n : Name} {t : Path} {cs rest : List Comp}
    (h : fs.scan p cs = .jump q n t rest) :
    ∃ j, fs.node (n :: q) = some j ∧ j.content = .lnk t := by
  induction cs generalizing p with
  | nil => simp [scan] at h
  | cons c cs ih =>
    have hp : fs.isDir p := fs.isDir_of_scan fun e he => by rw [he] at h; simp at h
    cases c with
    | cur => exact ih (by simpa only [scan, hp, if_true] using h)
    | slash => exact ih (by simpa only [scan, hp, if_true] using h)
    | up => exact ih (by simpa only [scan, hp, if_true] using h)
    | name m =>
      simp only [scan, hp, if_true] at h
      cases hn : fs.node (m :: p) with
      | none => simp [hn] at h
      | some j =>
        rw [hn] at h
        cases hc : j.content with
        | lnk u =>
          simp only [hc, Scan.jump.injEq] at h
          obtain ⟨rfl, rfl, rfl, rfl⟩ := h
          exact ⟨j, hn, hc⟩
        | reg bytes sparse => exact ih (by simpa only [hc] using h)
        | dir => exact ih (by simpa only [hc] using h)

theorem exists_target_of_mem_links {k : ℕ} {p l : Loc} {cs : List Comp}
    (h : l ∈ fs.links k p cs) : ∃ j t, fs.node l = some j ∧ j.content = .lnk t := by
  induction k generalizing p cs with
  | zero =>
    unfold links at h
    split at h <;> simp at h
  | succ k ih =>
    unfold links at h
    split at h
    · rename_i q n t rest hs
      rcases List.mem_cons.mp h with rfl | h
      · obtain ⟨j, hj, hc⟩ := scan_jump hs
        exact ⟨j, t, hj, hc⟩
      · exact ih h
    · simp at h

/-! ### What a path ends at -/

theorem plain_of_scan {p q : Loc} {cs : List Comp} (hp : fs.Plain p)
    (h : fs.scan p cs = .done q) : fs.Plain q := by
  induction cs generalizing p with
  | nil =>
    rw [scan, Scan.done.injEq] at h
    exact h ▸ hp
  | cons c cs ih =>
    have hd : fs.isDir p := fs.isDir_of_scan fun e he => by rw [he] at h; simp at h
    cases c with
    | cur => exact ih hp (by simpa only [scan, hd, if_true] using h)
    | slash => exact ih hp (by simpa only [scan, hd, if_true] using h)
    | up =>
      refine ih ?_ (by simpa only [scan, hd, if_true] using h)
      cases p with
      | nil => exact hp
      | cons n p =>
        obtain ⟨k, hk, -⟩ := hp
        exact plain_of_isDir (isDir_parent hk)
    | name m =>
      simp only [scan, hd, if_true] at h
      cases hn : fs.node (m :: p) with
      | none => simp [hn] at h
      | some j =>
        rw [hn] at h
        cases hc : j.content with
        | lnk u => simp [hc] at h
        | reg bytes sparse => exact ih ⟨j, hn, by simp [hc]⟩ (by simpa only [hc] using h)
        | dir => exact ih ⟨j, hn, by simp [hc]⟩ (by simpa only [hc] using h)

/-- A path has components. -/
theorem comps_ne_nil {t : Path} (ht : t ≠ []) : comps t ≠ [] := by
  unfold comps
  split_ifs with hlast
  · simp
  · rw [List.append_nil]
    -- behind the last slash there is a component
    have hb : ∀ b : Path, b ≠ [] → '/' ∉ b → pieces b ≠ [] := by
      intro b hb hs
      have hsplit : b.splitOnP (· = '/') = [b] :=
        List.splitOnP_eq_singleton fun c hc => by
          have hne : c ≠ '/' := fun h => hs (h ▸ hc)
          simpa using hne
      rw [pieces, hsplit]
      by_cases h₁ : b = ['.']
      · subst h₁
        decide +kernel
      · by_cases h₂ : b = ['.', '.']
        · subst h₂
          decide +kernel
        · simp [Comp.ofText, IsName, hb, hs, h₁, h₂]
    by_cases hs : '/' ∈ t
    · obtain ⟨d, b, hd, htb⟩ := List.eq_append_cons_of_mem (List.mem_reverse.mpr hs)
      have ht' : t = b.reverse ++ '/' :: d.reverse := by
        rw [← List.reverse_reverse t, hd]
        simp
      rw [ht', pieces_append_slash]
      have hne : d.reverse ≠ [] := fun h => by
        rw [ht', h] at hlast
        simp at hlast
      simp [hb d.reverse hne (by simpa using htb)]
    · exact hb t ht hs

theorem plain_of_walk {k : ℕ} {p q : Loc} {cs : List Comp} (hcs : cs ≠ [])
    (h : fs.walk true k p cs = .ok (.there q)) : fs.Plain q := by
  have hdone : ∀ {p : Loc} {cs : List Comp}, cs ≠ [] → fs.scan p cs = .done q →
      fs.Plain q := by
    intro p cs hcs hs
    obtain ⟨c, cs', rfl⟩ := List.exists_cons_of_ne_nil hcs
    exact plain_of_scan (plain_of_isDir (fs.isDir_of_scan fun e he => by rw [he] at hs; simp at hs))
      hs
  induction k generalizing p cs with
  | zero =>
    rcases walk_eq_there h with hs | ⟨j, r, n, t, rest, hk, -⟩
    · exact hdone hcs hs
    · omega
  | succ k ih =>
    rcases walk_eq_there h with hs | ⟨j, r, n, t, rest, hk, ht, -, hw⟩
    · exact hdone hcs hs
    · obtain rfl : k = j := by omega
      exact ih (by simp [comps_ne_nil ht]) hw

/-- What a path names, links at the end followed, is there and is no link. -/
theorem plain_of_resolve {cwd p : Loc} {t : Path} (h : fs.resolve cwd true t = .ok (.there p)) :
    fs.Plain p := by
  unfold resolve at h
  split_ifs at h with ht
  exact plain_of_walk (comps_ne_nil ht) h

/-- If the object itself is no link, it makes no difference whether links at the end are
followed. -/
theorem walk_of_plain {k : ℕ} {p q : Loc} {cs : List Comp} (hq : fs.Plain q)
    (h : fs.walk false k p cs = .ok (.there q)) : fs.walk true k p cs = .ok (.there q) := by
  induction k generalizing p cs with
  | zero =>
    unfold walk at h ⊢
    cases hs : fs.scan p cs with
    | done r => simpa only [hs] using h
    | absent r n rest => simpa only [hs] using h
    | fail e => simp [hs] at h
    | jump r n t rest =>
      by_cases hr : rest = []
      · simp only [hs, hr, and_self, if_true, Except.ok.injEq, Found.there.injEq] at h
        obtain ⟨j, hj, hc⟩ := scan_jump hs
        obtain ⟨k, hk, hl⟩ := hq
        rw [← h, hj, Option.some.injEq] at hk
        exact absurd (hk ▸ hc) (hl t)
      · simp [hs, hr] at h
  | succ k ih =>
    unfold walk at h
    cases hs : fs.scan p cs with
    | done r => exact walk_of_done (by simpa [hs] using h)
    | absent r n rest =>
      rw [hs] at h
      simp only at h
      split_ifs at h <;> simp at h
    | fail e => simp [hs] at h
    | jump r n t rest =>
      by_cases hr : rest = []
      · simp only [hs, hr, and_self, if_true, Except.ok.injEq, Found.there.injEq] at h
        obtain ⟨j, hj, hc⟩ := scan_jump hs
        obtain ⟨k, hk, hl⟩ := hq
        rw [← h, hj, Option.some.injEq] at hk
        exact absurd (hk ▸ hc) (hl t)
      · by_cases ht : t = []
        · simp [hs, hr, ht] at h
        · simp only [hs, hr, false_and, if_false, ht] at h
          rw [walk_of_jump hs (by simp) ht]
          exact ih h

theorem resolve_of_plain {cwd p : Loc} {t : Path} (hp : fs.Plain p)
    (h : fs.resolve cwd false t = .ok (.there p)) : fs.resolve cwd true t = .ok (.there p) := by
  unfold resolve at h ⊢
  split_ifs at h ⊢ with ht
  exact walk_of_plain hp h

/-- What a path names is there. -/
theorem exists_node_of_resolve {cwd p : Loc} {follow : Bool} {t : Path}
    (h : fs.resolve cwd follow t = .ok (.there p)) : ∃ k, fs.node p = some k := by
  cases follow with
  | true =>
    obtain ⟨k, hk, -⟩ := plain_of_resolve h
    exact ⟨k, hk⟩
  | false =>
    have hwalk : ∀ (k : ℕ) (r : Loc) (cs : List Comp), cs ≠ [] →
        fs.walk false k r cs = .ok (.there p) → ∃ k, fs.node p = some k := by
      intro k
      induction k using Nat.strong_induction_on with
      | _ k ih =>
        intro r cs hcs hw
        rcases walk_there hw with hs | ⟨r, n, t, rest, hs, ⟨-, -, rfl⟩ | ⟨k', rfl, ht, -, hw'⟩⟩
        · obtain ⟨c, cs', rfl⟩ := List.exists_cons_of_ne_nil hcs
          obtain ⟨k, hk, -⟩ := plain_of_scan (plain_of_isDir
            (fs.isDir_of_scan fun e he => by rw [he] at hs; simp at hs)) hs
          exact ⟨k, hk⟩
        · obtain ⟨j, hj, -⟩ := scan_jump hs
          exact ⟨j, hj⟩
        · exact ih k' (by omega) _ _ (by simp [comps_ne_nil ht]) hw'
    unfold resolve at h
    split_ifs at h with ht
    exact hwalk _ _ _ (comps_ne_nil ht) h

theorem exists_walk_false {k : ℕ} {p q : Loc} {cs : List Comp}
    (h : fs.walk true k p cs = .ok (.there q)) : ∃ r, fs.walk false k p cs = .ok (.there r) ∧
      (r = q ∨ ∃ j t, fs.node r = some j ∧ j.content = .lnk t) := by
  induction k generalizing p cs with
  | zero =>
    rcases walk_eq_there h with hs | ⟨j, r, n, t, rest, hk, -⟩
    · exact ⟨q, walk_of_done hs, .inl rfl⟩
    · omega
  | succ k ih =>
    rcases walk_eq_there h with hs | ⟨j, r, n, t, rest, hk, ht, hs, hw⟩
    · exact ⟨q, walk_of_done hs, .inl rfl⟩
    · obtain rfl : k = j := by omega
      by_cases hr : rest = []
      · obtain ⟨j, hj, hc⟩ := scan_jump hs
        exact ⟨n :: r, by rw [walk, hs]; simp [hr], .inr ⟨j, t, hj, hc⟩⟩
      · rw [walk_of_jump hs (by simp [hr]) ht]
        exact ih hw

/-- What a path names is the object itself, or a link to it. -/
theorem exists_entry {cwd p : Loc} {t : Path} (h : fs.resolve cwd true t = .ok (.there p)) :
    ∃ q, fs.resolve cwd false t = .ok (.there q) ∧
      (q = p ∨ ∃ j u, fs.node q = some j ∧ j.content = .lnk u) := by
  unfold resolve at h ⊢
  split_ifs at h ⊢ with ht
  exact exists_walk_false h

/-- `fs'` has everything `fs` has. -/
def Extends (fs fs' : FS) : Prop := ∀ p k, fs.node p = some k → fs'.node p = some k

theorem extends_put {p : Loc} {k : Node} (h : fs.node p = none) : fs.Extends (fs.put p k) := by
  intro q j hq
  rw [node_put_of_ne fun hqp => ?_, hq]
  rw [hqp, h] at hq
  exact absurd hq (by simp)

theorem Extends.isDir {fs' : FS} (h : fs.Extends fs') {p : Loc} (hp : fs.isDir p) :
    fs'.isDir p := by
  obtain ⟨k, hk, hd⟩ := fs.isDir_iff.mp hp
  exact fs'.isDir_iff.mpr ⟨k, h p k hk, hd⟩

/-- In a larger file system a path goes as far, and further where an entry was missing. -/
theorem scan_extends {fs' : FS} (h : fs.Extends fs') {p : Loc} {cs : List Comp}
    (hf : ∀ e, fs.scan p cs ≠ .fail e) : fs'.scan p cs =
      match fs.scan p cs with
      | .absent q n rest => fs'.scan q (.name n :: rest)
      | s => s := by
  induction cs generalizing p with
  | nil => rfl
  | cons c cs ih =>
    have hp : fs.isDir p := fs.isDir_of_scan hf
    have hp' := h.isDir hp
    cases c with
    | cur =>
      simp only [scan, hp, hp', if_true] at hf ⊢
      exact ih hf
    | slash =>
      simp only [scan, hp, hp', if_true] at hf ⊢
      exact ih hf
    | up =>
      simp only [scan, hp, hp', if_true] at hf ⊢
      exact ih hf
    | name n =>
      rw [scan, scan]
      simp only [scan, hp, if_true] at hf
      simp only [hp, hp', if_true]
      cases hn : fs.node (n :: p) with
      | none => simp [scan, hp']
      | some k =>
        rw [hn] at hf
        rw [h _ k hn]
        cases hc : k.content with
        | lnk t => simp only [hc]
        | reg bytes sparse =>
          simp only [hc] at hf ⊢
          exact ih hf
        | dir =>
          simp only [hc] at hf ⊢
          exact ih hf

/-- A path to a missing entry goes on from its directory once something is there. -/
theorem walk_extends_absent {fs' : FS} (h : fs.Extends fs') {follow : Bool} {k : ℕ}
    {p q : Loc} {n : Name} {s : Bool} {cs : List Comp}
    (hw : fs.walk follow k p cs = .ok (.absent q n s)) : ∃ k' ≤ k,
      fs'.walk follow k p cs = fs'.walk follow k' q (.name n :: if s then [.slash] else []) := by
  have hscan : ∀ {k : ℕ} {p : Loc} {cs rest : List Comp}, fs.scan p cs = .absent q n rest →
      fs.walk follow k p cs = .ok (.absent q n s) →
      fs'.walk follow k p cs = fs'.walk follow k q (.name n :: if s then [.slash] else []) := by
    intro k p cs rest hs hw
    have hrest : rest = if s then [.slash] else [] := by
      unfold walk at hw
      rw [hs] at hw
      simp only at hw
      split_ifs at hw with h₁ h₂ <;> simp_all
    have hs' := @scan_extends fs fs' h p cs (by simp [hs])
    rw [hs] at hs'
    rw [walk, walk, hs', hrest]
  induction k generalizing p cs with
  | zero =>
    rcases walk_eq_absent hw with ⟨rest, hs⟩ | ⟨j, r, m, t, rest, hk, -⟩
    · exact ⟨0, le_rfl, hscan hs hw⟩
    · omega
  | succ k ih =>
    rcases walk_eq_absent hw with ⟨rest, hs⟩ | ⟨j, r, m, t, rest, hk, ht, hf, hs, hw'⟩
    · exact ⟨k + 1, le_rfl, hscan hs hw⟩
    · obtain rfl : k = j := by omega
      obtain ⟨k', hk', he⟩ := ih hw'
      have hs' := @scan_extends fs fs' h p cs (by simp [hs])
      rw [hs] at hs'
      exact ⟨k', by omega, by rw [walk_of_jump hs' hf ht, he]⟩

/-- In a larger file system a path names what it named. -/
theorem walk_extends {fs' : FS} (h : fs.Extends fs') {follow : Bool} {k : ℕ} {p q : Loc}
    {cs : List Comp} (hw : fs.walk follow k p cs = .ok (.there q)) :
    fs'.walk follow k p cs = .ok (.there q) := by
  have hdone : ∀ {k : ℕ} {p : Loc} {cs : List Comp}, fs.scan p cs = .done q →
      fs'.walk follow k p cs = .ok (.there q) := fun {k p cs} hs => by
    have hs' := @scan_extends fs fs' h p cs (by simp [hs])
    rw [hs] at hs'
    exact walk_of_done hs'
  induction k generalizing p cs with
  | zero =>
    rcases walk_there hw with hs | ⟨r, n, t, rest, hs, ⟨hr, hf, rfl⟩ | ⟨k', hk, -⟩⟩
    · exact hdone hs
    · have hs' := @scan_extends fs fs' h p cs (by simp [hs])
      rw [hs] at hs'
      rw [walk, hs']
      simp [hr, hf]
    · omega
  | succ k ih =>
    rcases walk_there hw with hs | ⟨r, n, t, rest, hs, ⟨hr, hf, rfl⟩ | ⟨k', hk, ht, hf, hw'⟩⟩
    · exact hdone hs
    · have hs' := @scan_extends fs fs' h p cs (by simp [hs])
      rw [hs] at hs'
      rw [walk, hs']
      simp [hr, hf]
    · obtain rfl : k = k' := by omega
      have hs' := @scan_extends fs fs' h p cs (by simp [hs])
      rw [hs] at hs'
      rw [walk_of_jump hs' hf ht, ih hw']

theorem resolve_extends {fs' : FS} (h : fs.Extends fs') {cwd p : Loc} {follow : Bool} {t : Path}
    (hr : fs.resolve cwd follow t = .ok (.there p)) :
    fs'.resolve cwd follow t = .ok (.there p) := by
  unfold resolve at hr ⊢
  split_ifs at hr ⊢ with ht
  exact walk_extends h hr

theorem extends_remove (p : Loc) : (fs.remove p).Extends fs := by
  intro q k hq
  by_cases hqp : q = p
  · subst hqp
    cases hd : fs.isDir q with
    | true => simpa [remove, hd] using hq
    | false => rw [node_remove_self hd] at hq; simp at hq
  · rwa [node_remove_of_ne hqp] at hq

/-- What a resolution sees of an object : whether it is a directory, and where it leads if
it is a link. -/
def sees (p : Loc) : Option (Bool × Option Path) :=
  (fs.node p).map fun k => (k.isDir, match k.content with | .lnk t => some t | _ => none)

theorem scan_congr {fs fs' : FS} (h : ∀ p, fs'.sees p = fs.sees p) (p : Loc)
    (cs : List Comp) : fs'.scan p cs = fs.scan p cs := by
  have hdir : ∀ p, fs'.isDir p = fs.isDir p := by
    intro p
    have hp := h p
    unfold sees at hp
    cases hn : fs.node p with
    | none =>
      rw [hn, Option.map_none, Option.map_eq_none_iff] at hp
      rw [Bool.eq_iff_iff, isDir_iff, isDir_iff, hn, hp]
    | some k =>
      rw [hn, Option.map_some, Option.map_eq_some_iff] at hp
      obtain ⟨k', hk', he⟩ := hp
      rw [isDir_of_node hn, isDir_of_node hk']
      exact (Prod.mk.inj he).1
  induction cs generalizing p with
  | nil => rfl
  | cons c cs ih =>
    cases c with
    | cur => simp only [scan, hdir, ih]
    | slash => simp only [scan, hdir, ih]
    | up => simp only [scan, hdir, ih]
    | name n =>
      simp only [scan, hdir]
      have hp := h (n :: p)
      unfold sees at hp
      cases hn : fs.node (n :: p) with
      | none =>
        rw [hn, Option.map_none, Option.map_eq_none_iff] at hp
        rw [hp]
      | some k =>
        rw [hn, Option.map_some, Option.map_eq_some_iff] at hp
        obtain ⟨k', hk', he⟩ := hp
        rw [hk']
        have ht := (Prod.mk.inj he).2
        cases hc : k.content <;> cases hc' : k'.content <;> simp_all

theorem walk_congr {fs fs' : FS} (h : ∀ p, fs'.sees p = fs.sees p) (follow : Bool) (k : ℕ)
    (p : Loc) (cs : List Comp) : fs'.walk follow k p cs = fs.walk follow k p cs := by
  induction k generalizing p cs with
  | zero => rw [walk, walk, scan_congr h]
  | succ k ih =>
    rw [walk, walk, scan_congr h]
    simp only [ih]

theorem resolve_congr {fs fs' : FS} (h : ∀ p, fs'.sees p = fs.sees p) (cwd : Loc)
    (follow : Bool) (t : Path) : fs'.resolve cwd follow t = fs.resolve cwd follow t := by
  rw [resolve, resolve, walk_congr h]

/-- An object replaced by one of its kind is seen the same. -/
theorem sees_put {p : Loc} {j k : Node} (hn : fs.node p = some j) (hd : k.isDir = j.isDir)
    (ht : ∀ t, k.content = .lnk t ↔ j.content = .lnk t) (q : Loc) :
    (fs.put p k).sees q = fs.sees q := by
  by_cases hq : q = p
  · subst hq
    have hl : k.content ≠ .lnk [] := fun h => content_ne_of_node hn ((ht []).mp h)
    rw [sees, sees, node_put_self (canPut_of_node hn hd hl), hn, Option.map_some, Option.map_some,
      hd]
    cases hj : j.content with
    | lnk t => rw [(ht t).mpr hj]
    | reg bytes sparse =>
      cases hk : k.content with
      | lnk t => rw [(ht t).mp hk] at hj; simp at hj
      | reg bytes sparse => rfl
      | dir => rfl
    | dir =>
      cases hk : k.content with
      | lnk t => rw [(ht t).mp hk] at hj; simp at hj
      | reg bytes sparse => rfl
      | dir => rfl
  · rw [sees, sees, node_put_of_ne hq]

theorem SameContents.sees {fs fs' : FS} (h : fs.SameContents fs') (p : Loc) :
    fs'.sees p = fs.sees p := by
  have hp := h p
  unfold FS.sees
  cases hn : fs.node p with
  | none =>
    rw [hn, Option.map_none, Option.map_eq_none_iff] at hp
    rw [hp, Option.map_none]
  | some k =>
    obtain ⟨k', hk', hc⟩ := h.exists_node hn
    simp [hk', Node.isDir, hc]

/-! ### Paths of any number of links -/

/-- From `p` the components lead to `q`, through as many links as it takes. -/
def Leads (p : Loc) (cs : List Comp) (q : Loc) : Prop := ∃ k, fs.walk true k p cs = .ok (.there q)

namespace Leads

variable {p q r : Loc} {cs ds : List Comp}

theorem nil (p : Loc) : fs.Leads p [] p := ⟨0, walk_of_done rfl⟩

/-- Components lead to one place. -/
theorem unique (h : fs.Leads p cs q) (h' : fs.Leads p cs r) : q = r := by
  obtain ⟨k, hk⟩ := h
  obtain ⟨k', hk'⟩ := h'
  have := walk_budget hk (le_max_left k k')
  rw [walk_budget hk' (le_max_right k k'), Except.ok.injEq, Found.there.injEq] at this
  exact this.symm

theorem append (h : fs.Leads p cs q) (h' : fs.Leads q ds r) : fs.Leads p (cs ++ ds) r := by
  obtain ⟨k, hk⟩ := h
  obtain ⟨k', hk'⟩ := h'
  refine ⟨k + k', ?_⟩
  induction k generalizing p cs with
  | zero =>
    rcases walk_eq_there hk with hs | ⟨j, s, n, t, rest, hj, -⟩
    · rw [(walk_append_of_done hs ds).1]
      exact walk_budget hk' (by omega)
    · omega
  | succ k ih =>
    rcases walk_eq_there hk with hs | ⟨j, s, n, t, rest, hj, ht, hs, hw⟩
    · rw [(walk_append_of_done hs ds).1]
      exact walk_budget hk' (by omega)
    · obtain rfl : k = j := by omega
      have hscan := fs.scan_append p cs ds
      rw [hs] at hscan
      rw [show k + 1 + k' = k + k' + 1 by omega, walk_of_jump hscan (by simp) ht,
        ← List.append_assoc]
      exact ih hw

theorem of_append (h : fs.Leads p cs q) (h' : fs.Leads p (cs ++ ds) r) : fs.Leads q ds r := by
  by_cases hds : ds = []
  · rw [hds, List.append_nil] at h'
    rw [hds, h'.unique h]
    exact .nil q
  · obtain ⟨k, hk⟩ := h
    obtain ⟨k', hk'⟩ := h'
    obtain ⟨j, -, hj⟩ := walk_append (walk_budget hk (le_max_left k k'))
    exact ⟨j, ((hj ds hds).1 true).symm.trans (walk_budget hk' (le_max_right k k'))⟩

theorem of_extends {fs' : FS} (h : fs.Leads p cs q) (he : fs.Extends fs') : fs'.Leads p cs q := by
  obtain ⟨k, hk⟩ := h
  exact ⟨k, walk_extends he hk⟩

end Leads

/-- A slash at the end makes no difference to where a path leads. -/
theorem walk_pieces {cwd p : Loc} {t : Path} (h : fs.resolve cwd true t = .ok (.there p)) :
    fs.walk true maxLinks (start cwd t) (pieces t) = .ok (.there p) := by
  unfold resolve at h
  split_ifs at h with ht
  unfold comps at h
  split_ifs at h
  · obtain ⟨r, hr, hd⟩ := walk_prefix h
    obtain ⟨k, -, hk⟩ := walk_append hr
    rw [(hk [.slash] (by simp)).1, walk_slash hd, Except.ok.injEq, Found.there.injEq] at h
    exact h ▸ hr
  · simpa using h

theorem resolve_of_walk_pieces {cwd p : Loc} {t : Path} (ht : t ≠ [])
    (h : fs.walk true maxLinks (start cwd t) (pieces t) = .ok (.there p)) (hd : fs.isDir p) :
    fs.resolve cwd true t = .ok (.there p) := by
  rw [resolve, if_neg ht, comps]
  split_ifs
  · obtain ⟨k, -, hk⟩ := walk_append h
    rw [(hk [.slash] (by simp)).1, walk_slash hd]
  · rw [List.append_nil, h]

theorem leads_of_resolve {cwd p : Loc} {t : Path} (h : fs.resolve cwd true t = .ok (.there p)) :
    fs.Leads (start cwd t) (pieces t) p :=
  ⟨maxLinks, walk_pieces h⟩

/-! ### What a path would name -/

/-- Where the object is that a path names, or would be if it was made. -/
def target (cwd : Loc) (follow : Bool) (t : Path) : Option Loc :=
  match fs.resolve cwd follow t with
  | .ok (.there p) => some p
  | .ok (.absent p n _) => some (n :: p)
  | .error _ => none

theorem target_of_there {cwd p : Loc} {follow : Bool} {t : Path}
    (h : fs.resolve cwd follow t = .ok (.there p)) : fs.target cwd follow t = some p := by
  rw [target, h]

theorem target_of_absent {cwd p : Loc} {follow : Bool} {t : Path} {n : Name} {s : Bool}
    (h : fs.resolve cwd follow t = .ok (.absent p n s)) :
    fs.target cwd follow t = some (n :: p) := by
  rw [target, h]

/-- Once what a path names is taken away, the path would name the same place or nothing. -/
theorem target_remove {cwd p : Loc} {t : Path} (h : fs.resolve cwd false t = .ok (.there p))
    (hd : fs.isDir p = false) {follow : Bool} {q : Loc}
    (hq : (fs.remove p).target cwd follow t = some q) : q = p := by
  have hnone := node_remove_self hd
  have hwalk : ∀ (k : ℕ) (r : Loc) (cs : List Comp), cs ≠ [] →
      fs.walk false k r cs = .ok (.there p) →
      (∀ q, (fs.remove p).walk follow k r cs ≠ .ok (.there q)) ∧
      ∀ q n s, (fs.remove p).walk follow k r cs = .ok (.absent q n s) → n :: q = p := by
    intro k
    induction k using Nat.strong_induction_on with
    | _ k ih =>
      intro r cs hcs hw
      have hext : (∀ e, (fs.remove p).scan r cs ≠ .fail e) → _ :=
        fun hf => @scan_extends (fs.remove p) fs (extends_remove p) r cs hf
      cases hs : (fs.remove p).scan r cs with
      | done q =>
        have hscan := hext (by simp [hs])
        simp only [hs] at hscan
        rw [walk_of_done hscan, Except.ok.injEq, Found.there.injEq] at hw
        obtain ⟨c, cs', rfl⟩ := List.exists_cons_of_ne_nil hcs
        obtain ⟨j, hj, -⟩ := plain_of_scan (plain_of_isDir
          ((fs.remove p).isDir_of_scan fun e he => by rw [he] at hs; simp at hs)) hs
        rw [hw, hnone] at hj
        simp at hj
      | absent q n rest =>
        have hscan := hext (by simp [hs])
        obtain ⟨hq, hn⟩ := scan_absent hs
        have hp : n :: q = p := by
          by_contra hne
          rw [node_remove_of_ne hne] at hn
          have hq' := (extends_remove p).isDir hq
          simp only [hs, scan, hq', if_true, hn] at hscan
          rcases walk_there hw with h | ⟨_, _, _, _, h, -⟩ <;> rw [hscan] at h <;> simp at h
        refine ⟨fun q' hq' => ?_, fun q' n' s hq' => ?_⟩
        · rcases walk_there hq' with h | ⟨_, _, _, _, h, -⟩ <;> rw [hs] at h <;> simp at h
        · rw [walk, hs] at hq'
          simp only at hq'
          split_ifs at hq' <;> simp only [Except.ok.injEq, Found.absent.injEq] at hq' <;>
            rw [← hq'.1, ← hq'.2.1, hp]
      | jump q n t rest =>
        have hscan := hext (by simp [hs])
        simp only [hs] at hscan
        obtain ⟨j, hj, -⟩ := scan_jump hs
        rcases walk_there hw with h | ⟨_, _, _, _, h, hcase⟩
        · rw [hscan] at h
          simp at h
        · rw [hscan, Scan.jump.injEq] at h
          obtain ⟨rfl, rfl, rfl, rfl⟩ := h
          rcases hcase with ⟨-, -, rfl⟩ | ⟨k', rfl, ht, hf, hw'⟩
          · rw [hnone] at hj
            simp at hj
          · rw [walk_of_jump hs (fun h => hf ⟨h.1, rfl⟩) ht]
            exact ih k' (by omega) _ _ (by simp [comps_ne_nil ht]) hw'
      | fail e => simp [walk, hs]
  unfold target at hq
  unfold resolve at h hq
  split_ifs at h hq with ht
  obtain ⟨h₁, h₂⟩ := hwalk maxLinks (start cwd t) (comps t) (comps_ne_nil ht) h
  split at hq
  · exact absurd ‹_› (h₁ _)
  · rw [Option.some.injEq] at hq
    rw [← hq]
    exact h₂ _ _ _ ‹_›
  · simp at hq

/-- What was missing is found once it is made. -/
theorem resolve_put {cwd p : Loc} {follow : Bool} {t : Path} {n : Name} {s : Bool} {k : Node}
    (h : fs.resolve cwd follow t = .ok (.absent p n s)) (hs : s = true → k.isDir)
    (hk : follow = true → ∀ u, k.content ≠ .lnk u) (hl : k.content ≠ .lnk []) :
    (fs.put (n :: p) k).resolve cwd follow t = .ok (.there (n :: p)) := by
  obtain ⟨hp, hn⟩ := resolve_absent h
  have hput := node_put_self (canPut_of_absent hp hn hl)
  have hp' := isDir_put (k := k) (p := n :: p) hp
  unfold resolve at h ⊢
  split_ifs at h with ht
  obtain ⟨k', -, hw⟩ := walk_extends_absent (extends_put hn) h
  rw [if_neg ht, hw]
  cases s with
  | false =>
    have hl : follow = false ∨ ∀ j t, (fs.put (n :: p) k).node (n :: p) = some j →
        j.content ≠ .lnk t := by
      cases follow with
      | false => exact .inl rfl
      | true =>
        refine .inr fun j u hj => ?_
        rw [hput, Option.some.injEq] at hj
        exact hj ▸ hk rfl u
    simp [walk_name hp' hl, hput]
  | true =>
    have hd : (fs.put (n :: p) k).isDir (n :: p) := by
      rw [isDir_of_node hput, hs rfl]
    obtain ⟨j, hj, hc⟩ := content_of_isDir hd
    refine walk_of_done ?_
    simp [scan, hp', hj, hc, hd]

end FS

/-! ## Paths to directories -/

/-- The path `u` is that of the entry `n` of the directory `t`. A dot for the directory
may be left out. -/
structure IsChild (t : Path) (n : Name) (u : Path) : Prop where
  ne : u ≠ []
  isAbs : isAbs u = isAbs t
  comps : comps u = pieces t ++ [.name n] ∨ pieces t = [.cur] ∧ comps u = [.name n]

theorem IsChild.pieces {t u : Path} {n : Name} (h : IsChild t n u) :
    Posix.pieces u = Posix.comps u := by
  have hlast : (Posix.comps u).getLast? = some (.name n) := by
    rcases h.comps with hc | ⟨-, hc⟩ <;> simp [hc]
  unfold Posix.comps at hlast ⊢
  split_ifs at hlast ⊢
  · simp at hlast
  · simp

/-- `fs'` has the directories of `fs`, and its links but for those at `R` or below. -/
structure FS.KeepsWays (fs : FS) (R : Loc) (fs' : FS) : Prop where
  dirs : ∀ p, fs.isDir p → fs'.isDir p
  links : ∀ l k t, ¬Above R l → fs.node l = some k → k.content = .lnk t → fs'.node l = some k

namespace FS.KeepsWays

variable {fs fs' : FS} {R : Loc}

theorem of_out (hd : ∀ p, fs.isDir p → fs'.isDir p)
    (hout : ∀ p, ¬Above R p → fs'.node p = fs.node p) : fs.KeepsWays R fs' :=
  ⟨hd, fun l _ _ hl hk _ => (hout l hl).trans hk⟩

theorem links_eq {k : ℕ} {p : Loc} {cs : List Comp} (h : fs.KeepsWays R fs')
    (hl : ∀ l ∈ fs.links k p cs, ¬Above R l) : ∀ l ∈ fs.links k p cs, fs'.node l = fs.node l :=
  fun l hmem => by
    obtain ⟨j, t, hj, hc⟩ := exists_target_of_mem_links hmem
    rw [hj, h.links l j t (hl l hmem) hj hc]

end FS.KeepsWays

/-- From `p` the components lead to the directory `q`, and no link on the way is at `R` or
below. -/
structure FS.Way (fs : FS) (p : Loc) (us : List Comp) (R q : Loc) : Prop where
  walk : fs.walk true FS.maxLinks p us = .ok (.there q)
  isDir : fs.isDir q
  links : ∀ l ∈ fs.links FS.maxLinks p us, ¬Above R l

namespace FS.Way

variable {fs fs' : FS} {p q r R R' : Loc} {us vs : List Comp} {ns : List Name}

/-- A way goes on leading to a directory as long as the links stay that keep out of a region,
and they keep out of other regions as before. -/
theorem keepWays (h : fs.Way p us R q) (h' : fs.Way p us R' q) (hw : fs.KeepsWays R fs') :
    fs'.Way p us R' q := by
  obtain ⟨h₁, h₂⟩ := FS.walk_mono hw.dirs h.walk (FS.plain_of_isDir (hw.dirs q h.isDir))
    (hw.links_eq h.links)
  exact ⟨h₁, hw.dirs q h.isDir, h₂ ▸ h'.links⟩

theorem eq_of_nil (h : fs.Way p [] R q) : q = p := by
  have hw := h.walk
  rw [walk_of_done (show fs.scan p [] = .done p from rfl), Except.ok.injEq, Found.there.injEq] at hw
  exact hw.symm

theorem of_scan (hs : fs.scan p us = .done q) (hq : fs.isDir q) : fs.Way p us R q :=
  ⟨walk_of_done hs, hq, by simp [links_of_done hs]⟩

/-- Down along directories. -/
theorem down (h : fs.Way p us R q) (hd : fs.isDir (ns.reverse ++ q)) :
    fs.Way p (us ++ ns.map .name) R (ns.reverse ++ q) := by
  by_cases hns : ns = []
  · subst hns
    simpa using h
  · obtain ⟨k, -, hk⟩ := FS.walk_append h.walk
    obtain ⟨h₁, h₂⟩ := hk (ns.map .name) (by simp [hns])
    have hdone := FS.scan_names hd
    refine ⟨by rw [h₁, FS.walk_of_done hdone], hd, fun l hl => ?_⟩
    rw [h₂, FS.links_of_done hdone, List.append_nil] at hl
    exact h.links l hl

/-- What is left of a way, from where its beginning leads. -/
theorem rest (h : fs.Way p us R' r) (h' : fs.Way p (us ++ vs) R q) : fs.Way r vs R q := by
  by_cases hvs : vs = []
  · subst hvs
    have hw := h'.walk
    rw [List.append_nil, h.walk, Except.ok.injEq, Found.there.injEq] at hw
    exact .of_scan (by rw [hw]; rfl) h'.isDir
  · obtain ⟨k, hle, hk⟩ := FS.walk_append h.walk
    obtain ⟨h₁, h₂⟩ := hk vs hvs
    have hw := (h₁ true).symm.trans h'.walk
    refine ⟨FS.walk_budget hw hle, h'.isDir, fun l hl => h'.links l ?_⟩
    rw [h₂, ← FS.links_budget hw hle]
    exact List.mem_append_right _ hl

end FS.Way

/-- The path `t` names the directory `q`, and no link on the way is at `R` or below. -/
structure NamesDir (fs : FS) (cwd : Loc) (t : Path) (R q : Loc) : Prop where
  ne : t ≠ []
  walk : fs.walk true FS.maxLinks (start cwd t) (pieces t) = .ok (.there q)
  isDir : fs.isDir q
  links : ∀ l ∈ fs.links FS.maxLinks (start cwd t) (pieces t), ¬Above R l

namespace NamesDir

variable {fs : FS} {cwd R q : Loc} {t u : Path} {n : Name}

theorem resolve (h : NamesDir fs cwd t R q) : fs.resolve cwd true t = .ok (.there q) :=
  FS.resolve_of_walk_pieces h.ne h.walk h.isDir

/-- With a slash at the end a path names the directory in any case. -/
theorem resolve_slash (h : NamesDir fs cwd t R q) (hs : t.getLast? = some '/') (follow : Bool) :
    fs.resolve cwd follow t = .ok (.there q) := by
  rw [FS.resolve, if_neg h.ne, comps, if_pos hs]
  obtain ⟨k, -, hk⟩ := FS.walk_append h.walk
  rw [(hk [.slash] (by simp)).1, FS.walk_slash h.isDir]

/-- A path to an entry of the directory is resolved from the directory on. -/
theorem walk_child (h : NamesDir fs cwd t R q) (hu : IsChild t n u) : ∃ k,
    (∀ follow, fs.walk follow FS.maxLinks (start cwd u) (comps u) =
      fs.walk follow k q [.name n]) ∧
    fs.links FS.maxLinks (start cwd u) (comps u) =
      fs.links FS.maxLinks (start cwd t) (pieces t) ++ fs.links k q [.name n] := by
  have hstart : start cwd u = start cwd t := by rw [start, hu.isAbs, ← start]
  rw [hstart]
  rcases hu.comps with hc | ⟨hdot, hc⟩
  · obtain ⟨k, -, hk⟩ := FS.walk_append h.walk
    exact ⟨k, hc ▸ hk [.name n] (by simp)⟩
  · have hw := h.walk
    have hd : fs.isDir (start cwd t) := by
      rw [hdot] at hw
      by_contra hd
      simp [FS.walk, FS.scan, hd] at hw
    have hscan : fs.scan (start cwd t) [.cur] = .done (start cwd t) := by simp [FS.scan, hd]
    rw [hdot, FS.walk_of_done hscan, Except.ok.injEq, Found.there.injEq] at hw
    rw [hc, hdot, FS.links_of_done hscan, ← hw]
    exact ⟨FS.maxLinks, fun _ => rfl, rfl⟩

theorem resolve_child (h : NamesDir fs cwd t R q) (hu : IsChild t n u) {follow : Bool}
    (hl : follow = false ∨ ∀ j l, fs.node (n :: q) = some j → j.content ≠ .lnk l) :
    fs.resolve cwd follow u =
      .ok (if (fs.node (n :: q)).isSome then .there (n :: q) else .absent q n false) := by
  obtain ⟨k, hk, -⟩ := h.walk_child hu
  rw [FS.resolve, if_neg hu.ne, hk, FS.walk_name h.isDir hl]

theorem child (h : NamesDir fs cwd t R q) (hu : IsChild t n u) (hd : fs.isDir (n :: q)) :
    NamesDir fs cwd u R (n :: q) := by
  obtain ⟨k, h₁, h₂⟩ := h.walk_child hu
  obtain ⟨j, hj, hjd⟩ := FS.content_of_isDir hd
  refine ⟨hu.ne, ?_, hd, ?_⟩
  · rw [hu.pieces, h₁, FS.walk_name h.isDir (.inr fun j' l hj' => ?_), hj]
    · rfl
    · rw [hj, Option.some.injEq] at hj'
      simp [← hj', hjd]
  · have hscan : fs.scan q [.name n] = .done (n :: q) := by
      simp [FS.scan, h.isDir, hj, hjd]
    rw [hu.pieces, h₂, FS.links_of_done hscan, List.append_nil]
    exact h.links

theorem way (h : NamesDir fs cwd t R q) : fs.Way (start cwd t) (pieces t) R q :=
  ⟨h.walk, h.isDir, h.links⟩

theorem of_way (h : fs.Way (start cwd t) (pieces t) R q) (ht : t ≠ []) : NamesDir fs cwd t R q :=
  ⟨ht, h.walk, h.isDir, h.links⟩

/-- A path goes on naming a directory as long as the links stay that keep out of a region, and
they keep out of other regions as before. -/
theorem keepWays {fs' : FS} {R' : Loc} (h : NamesDir fs cwd t R q) (h' : NamesDir fs cwd t R' q)
    (hw : fs.KeepsWays R fs') : NamesDir fs' cwd t R' q :=
  of_way (h.way.keepWays h'.way hw) h.ne

theorem keep {fs' : FS} {R' : Loc} (h : NamesDir fs cwd t R q) (h' : NamesDir fs cwd t R' q)
    (hd : ∀ p, fs.isDir p → fs'.isDir p) (hout : ∀ p, ¬Above R p → fs'.node p = fs.node p) :
    NamesDir fs' cwd t R' q :=
  h.keepWays h' (.of_out hd hout)

theorem mono {fs' : FS} (h : NamesDir fs cwd t R q) (hd : ∀ p, fs.isDir p → fs'.isDir p)
    (hout : ∀ p, ¬Above R p → fs'.node p = fs.node p) : NamesDir fs' cwd t R q :=
  h.keep h hd hout

theorem congr (h : NamesDir fs cwd t R q) (hu : u ≠ []) (habs : isAbs u = isAbs t)
    (hp : pieces u = pieces t) : NamesDir fs cwd u R q := by
  have hstart : start cwd u = start cwd t := by rw [start, habs, ← start]
  exact ⟨hu, by rw [hstart, hp]; exact h.walk, h.isDir, by rw [hstart, hp]; exact h.links⟩

theorem of_resolve (h : fs.resolve cwd true t = .ok (.there q)) (hd : fs.isDir q)
    (hl : ∀ l ∈ fs.links FS.maxLinks (start cwd t) (pieces t), ¬Above R l) :
    NamesDir fs cwd t R q :=
  ⟨fun ht => by simp [ht, FS.resolve] at h, FS.walk_pieces h, hd, hl⟩

/-- Where an absolute path leads does not depend on the current directory. -/
theorem of_isAbs (h : NamesDir fs cwd t R q) (ht : isAbs t = true) (cwd' : Loc) :
    NamesDir fs cwd' t R q := by
  have hstart : start cwd t = start cwd' t := by simp [start, ht]
  exact ⟨h.ne, hstart ▸ h.walk, h.isDir, hstart ▸ h.links⟩

/-- Down along directories a path goes without links. -/
theorem down (h : NamesDir fs cwd t R q) {ms : List Name} (hu : u ≠ [])
    (habs : isAbs u = isAbs t) (hp : pieces u = pieces t ++ ms.map .name)
    (hd : fs.isDir (ms.reverse ++ q)) : NamesDir fs cwd u R (ms.reverse ++ q) := by
  refine of_way ?_ hu
  rw [start, habs, ← start, hp]
  exact h.way.down hd

end NamesDir

/-! ## Paths to entries -/

/-- The path `t` is that of the object at `p`, or where it would be : of an entry of a
directory, or of a directory with a slash at its end. No link on the way is at `R` or
below. -/
inductive NamesEntry (fs : FS) (cwd : Loc) (t : Path) (R : Loc) : Loc → Prop
  | entry {u : Path} {n : Name} {q : Loc} (hu : NamesDir fs cwd u R q) (ht : IsChild u n t) :
      NamesEntry fs cwd t R (n :: q)
  | dir {p : Loc} (hp : NamesDir fs cwd t R p) (hs : t.getLast? = some '/') :
      NamesEntry fs cwd t R p

namespace NamesEntry

variable {fs fs' : FS} {cwd R p : Loc} {t : Path}

theorem resolve_of_node (h : NamesEntry fs cwd t R p) {k : Node} (hk : fs.node p = some k) :
    fs.resolve cwd false t = .ok (.there p) := by
  cases h with
  | entry hu ht => rw [hu.resolve_child ht (.inl rfl), hk]; rfl
  | dir hp hs => exact hp.resolve_slash hs false

/-- Where nothing is, a path leads to nothing. -/
theorem resolve_of_absent (h : NamesEntry fs cwd t R p) (hn : fs.node p = none) :
    ∃ q n, p = n :: q ∧ ∀ follow, fs.resolve cwd follow t = .ok (.absent q n false) := by
  cases h with
  | entry hu ht =>
    rename_i u n q
    refine ⟨q, n, rfl, fun follow => ?_⟩
    rw [hu.resolve_child ht (.inr fun j l hj => by simp [hn] at hj), hn]
    rfl
  | dir hp hs =>
    obtain ⟨k, hk, -⟩ := fs.isDir_iff.mp hp.isDir
    simp [hn] at hk

theorem target (h : NamesEntry fs cwd t R p) : fs.target cwd false t = some p := by
  cases hn : fs.node p with
  | some k => exact FS.target_of_there (h.resolve_of_node hn)
  | none =>
    obtain ⟨q, n, rfl, hr⟩ := h.resolve_of_absent hn
    exact FS.target_of_absent (hr false)

theorem target_of_absent (h : NamesEntry fs cwd t R p) (hn : fs.node p = none) (follow : Bool) :
    fs.target cwd follow t = some p := by
  obtain ⟨q, n, rfl, hr⟩ := h.resolve_of_absent hn
  exact FS.target_of_absent (hr follow)

theorem namesDir (h : NamesEntry fs cwd t R p) (hd : fs.isDir p) : NamesDir fs cwd t R p := by
  cases h with
  | entry hu ht => exact hu.child ht hd
  | dir hp hs => exact hp

theorem keepWays (h : NamesEntry fs cwd t R p) (hw : fs.KeepsWays R fs') :
    NamesEntry fs' cwd t R p := by
  cases h with
  | entry hu ht => exact .entry (hu.keepWays hu hw) ht
  | dir hp hs => exact .dir (hp.keepWays hp hw) hs

theorem mono (h : NamesEntry fs cwd t R p) (hd : ∀ p, fs.isDir p → fs'.isDir p)
    (hout : ∀ p, ¬Above R p → fs'.node p = fs.node p) : NamesEntry fs' cwd t R p :=
  h.keepWays (.of_out hd hout)

end NamesEntry

end Posix
