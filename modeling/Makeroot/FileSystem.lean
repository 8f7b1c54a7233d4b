import Mathlib

/-!
# A POSIX file system

A file system is a tree of directories, regular files and symbolic links, given by the
object at each location. A location is the list of names from an object up to the root.
That everything stands in a directory and that no link is empty is part of the type, so an
operation cannot leave an object behind without its parent.

A path is a text. `walk` resolves it as the kernel does : it goes through the components,
follows every symbolic link on the way, the last one only if it is told to, and gives up
after too many of them. `walk_append` resolves a path through the directory that its
beginning names, and `walk_mono` says which changes of the file system leave a
resolution as it is.
-/

namespace Posix

/-- A path, as its characters. -/
abbrev Path := List Char

/-- What may be the name of a directory entry. -/
def IsName (t : List Char) : Prop := t ≠ [] ∧ '/' ∉ t ∧ t ≠ ['.'] ∧ t ≠ ['.', '.']

instance (t : List Char) : Decidable (IsName t) := inferInstanceAs (Decidable (_ ∧ _))

abbrev Name := {t : List Char // IsName t}

/-- A location : the names from an object up to the root. -/
abbrev Loc := List Name

/-- `R.Above p` : the object at `p` is that at `R` or below it. -/
def Above (R p : Loc) : Prop := R <:+ p

instance (R p : Loc) : Decidable (Above R p) := inferInstanceAs (Decidable (_ <:+ _))

theorem Above.refl (R : Loc) : Above R R := List.suffix_rfl

theorem Above.trans {R S p : Loc} (h : Above R S) (h' : Above S p) : Above R p :=
  List.IsSuffix.trans h h'

theorem Above.cons {R p : Loc} (h : Above R p) (n : Name) : Above R (n :: p) :=
  h.trans (List.suffix_cons n p)

/-- Of two locations above a third, one is above the other. -/
theorem Above.total {R S p : Loc} (hR : Above R p) (hS : Above S p) : Above R S ∨ Above S R :=
  List.suffix_or_suffix_of_suffix hR hS

theorem above_cons_iff {R p : Loc} {n : Name} : Above R (n :: p) ↔ R = n :: p ∨ Above R p :=
  List.suffix_cons_iff

/-- Entries of a directory have nothing in common. -/
theorem eq_of_above_cons {p : Loc} {m n : Name} {r : Loc} (h : Above (m :: p) (r ++ n :: p)) :
    m = n := by
  have hn : Above (n :: p) (r ++ n :: p) := List.suffix_append ..
  have heq : m :: p = n :: p := by
    rcases h.total hn with h | h
    · exact h.eq_of_length rfl
    · exact (h.eq_of_length rfl).symm
  exact (List.cons.inj heq).1

theorem not_above_of_cons (p : Loc) (n : Name) : ¬Above (n :: p) p := fun h => by
  have := h.length_le
  rw [List.length_cons] at this
  omega

/-! ## Objects -/

abbrev Bytes := List UInt8

inductive Content
  /-- A regular file, with whether it occupies fewer blocks than its size needs. -/
  | reg (bytes : Bytes) (sparse : Bool)
  | lnk (target : Path)
  | dir
deriving DecidableEq

structure Node where
  content : Content
  mode : ℕ
  atime : ℕ
  mtime : ℕ
deriving DecidableEq

def Node.isDir (k : Node) : Bool := k.content = .dir

/-- A content without the blocks it occupies. -/
def Content.data : Content → Content
  | .reg bytes _ => .reg bytes false
  | .lnk t => .lnk t
  | .dir => .dir

def Content.isLnk : Content → Bool
  | .lnk _ => true
  | _ => false

abbrev Nodes := AList fun _ : Loc => Node

/-- There is a directory. -/
def Nodes.isDir (s : Nodes) (p : Loc) : Bool := (s.lookup p).any Node.isDir

/-- A file system : everything in it stands in a directory, and links have a text. -/
structure FS where
  nodes : Nodes
  root_dir : nodes.isDir []
  parent_dir : ∀ n p, (nodes.lookup (n :: p)).isSome → nodes.isDir p
  link_text : ∀ p k, nodes.lookup p = some k → k.content ≠ .lnk []

namespace FS

/-- A file system with nothing in it. -/
def empty : FS where
  nodes := AList.singleton [] ⟨.dir, 0o755, 0, 0⟩
  root_dir := rfl
  parent_dir := fun n p h => by
    rw [AList.lookup_isSome, AList.mem_keys, AList.keys_singleton] at h
    simp at h
  link_text := fun p k h => by
    have hk := AList.mem_lookup_iff.mp h
    rw [AList.singleton, List.mem_singleton, Sigma.mk.injEq] at hk
    obtain ⟨rfl, hk⟩ := hk
    simp [eq_of_heq hk]

variable (fs : FS)

/-- The object at a location. -/
def node (p : Loc) : Option Node := fs.nodes.lookup p

def isDir (p : Loc) : Bool := fs.nodes.isDir p

theorem isDir_iff {p : Loc} : fs.isDir p ↔ ∃ k, fs.node p = some k ∧ k.isDir := by
  simp [isDir, Nodes.isDir, node, Option.any_eq_true]

theorem isDir_of_node {fs : FS} {p : Loc} {k : Node} (h : fs.node p = some k) :
    fs.isDir p = k.isDir := by
  have h' : fs.nodes.lookup p = some k := h
  simp [isDir, Nodes.isDir, h']

theorem isDir_of_absent {fs : FS} {p : Loc} (h : fs.node p = none) : fs.isDir p = false := by
  have h' : fs.nodes.lookup p = none := h
  simp [isDir, Nodes.isDir, h']

/-- There is a regular file with a content. -/
def HasFile (p : Loc) (bytes : Bytes) : Prop :=
  ∃ k sparse, fs.node p = some k ∧ k.content = .reg bytes sparse

theorem isDir_nil : fs.isDir [] := fs.root_dir

theorem content_ne_of_node {fs : FS} {p : Loc} {k : Node} (h : fs.node p = some k) :
    k.content ≠ .lnk [] :=
  fs.link_text p k h

theorem isDir_parent {fs : FS} {n : Name} {p : Loc} {k : Node} (h : fs.node (n :: p) = some k) :
    fs.isDir p :=
  fs.parent_dir n p (by rw [← node, h]; rfl)

/-- Everything above an object is a directory. -/
theorem isDir_of_above {fs : FS} {p q : Loc} {k : Node} (h : fs.node p = some k)
    (hq : Above q p) : q = p ∨ fs.isDir q := by
  induction p generalizing k with
  | nil => exact .inl (List.suffix_nil.mp hq)
  | cons n p ih =>
    rcases above_cons_iff.mp hq with rfl | hq
    · exact .inl rfl
    · have hp := isDir_parent h
      obtain ⟨j, hj, -⟩ := fs.isDir_iff.mp hp
      rcases ih hj hq with rfl | hd
      · exact .inr hp
      · exact .inr hd

/-- Nothing stands below what is not a directory. -/
theorem node_eq_none_of_above {fs : FS} {p q : Loc} (h : fs.isDir q = false) (hq : Above q p)
    (hne : p ≠ q) : fs.node p = none := by
  cases hp : fs.node p with
  | none => rfl
  | some k =>
    rcases isDir_of_above hp hq with rfl | hd
    · exact absurd rfl hne
    · simp [h] at hd

/-! ### Changes -/

/-- An object may be put at `p` : in a directory, and over nothing that has objects
below it unless it is a directory itself. -/
def CanPut (p : Loc) (k : Node) : Prop :=
  (∀ n q, p = n :: q → fs.isDir q) ∧ (p = [] ∨ fs.isDir p → k.isDir) ∧ k.content ≠ .lnk []

instance (p : Loc) (k : Node) : Decidable (fs.CanPut p k) :=
  match p with
  | [] => decidable_of_iff (k.isDir ∧ k.content ≠ .lnk []) (by simp [CanPut])
  | n :: q => decidable_of_iff
      (fs.isDir q ∧ (fs.isDir (n :: q) → k.isDir) ∧ k.content ≠ .lnk []) (by simp [CanPut])

/-- Put an object at `p`. -/
def put (p : Loc) (k : Node) : FS :=
  if h : fs.CanPut p k then
    { nodes := fs.nodes.insert p k
      root_dir := by
        by_cases hp : [] = p
        · subst hp
          simp [Nodes.isDir, h.2.1 (.inl rfl)]
        · rw [Nodes.isDir, AList.lookup_insert_ne hp]
          exact fs.root_dir
      parent_dir := fun n q hq => by
        have hdir : fs.nodes.isDir q := by
          by_cases hp : n :: q = p
          · exact h.1 n q hp.symm
          · rw [AList.lookup_insert_ne hp] at hq
            exact fs.parent_dir n q hq
        by_cases hp : q = p
        · subst hp
          simp [Nodes.isDir, h.2.1 (.inr hdir)]
        · rw [Nodes.isDir, AList.lookup_insert_ne hp]
          exact hdir
      link_text := fun q j hq => by
        by_cases hp : q = p
        · rw [hp, AList.lookup_insert, Option.some.injEq] at hq
          exact hq ▸ h.2.2
        · rw [AList.lookup_insert_ne hp] at hq
          exact fs.link_text q j hq }
  else fs

/-- Take away what is at `p`, if it is not a directory. -/
def remove (p : Loc) : FS :=
  if h : fs.isDir p = false then
    { nodes := fs.nodes.erase p
      root_dir := by
        have hp : [] ≠ p := fun hp => by
          have := fs.isDir_nil
          rw [hp, h] at this
          exact absurd this (by simp)
        rw [Nodes.isDir, AList.lookup_erase_ne hp]
        exact fs.root_dir
      parent_dir := fun n q hq => by
        by_cases hp : n :: q = p
        · rw [hp, AList.lookup_erase] at hq
          simp at hq
        · rw [AList.lookup_erase_ne hp] at hq
          have hdir := fs.parent_dir n q hq
          have hqp : q ≠ p := fun hqp => by
            rw [← hqp] at h
            exact absurd hdir (by rw [← isDir, h]; simp)
          rw [Nodes.isDir, AList.lookup_erase_ne hqp]
          exact hdir
      link_text := fun q j hq => by
        by_cases hp : q = p
        · rw [hp, AList.lookup_erase] at hq
          simp at hq
        · rw [AList.lookup_erase_ne hp] at hq
          exact fs.link_text q j hq }
  else fs

/-- A file system with objects that are put there one after the other. -/
def ofList (objects : List (Loc × Content)) : FS :=
  objects.foldl (fun fs o => fs.put o.1 ⟨o.2, 0o755, 0, 0⟩) empty

variable {fs}

/-- What is there may be replaced by an object of its kind. -/
theorem canPut_of_node {p : Loc} {j k : Node} (h : fs.node p = some j) (hk : k.isDir = j.isDir)
    (hl : k.content ≠ .lnk []) : fs.CanPut p k := by
  refine ⟨fun n q hp => isDir_parent (hp ▸ h), fun hd => ?_, hl⟩
  rw [hk, ← isDir_of_node h]
  rcases hd with rfl | hd
  · exact fs.isDir_nil
  · exact hd

/-- Anything may be put where nothing is. -/
theorem canPut_of_absent {p : Loc} {n : Name} (hp : fs.isDir p) (h : fs.node (n :: p) = none)
    {k : Node} (hl : k.content ≠ .lnk []) : fs.CanPut (n :: p) k := by
  refine ⟨fun m q hq => ?_, fun hd => ?_, hl⟩
  · rw [List.cons.injEq] at hq
    exact hq.2 ▸ hp
  · rcases hd with hd | hd
    · exact absurd hd (by simp)
    · obtain ⟨j, hj, -⟩ := fs.isDir_iff.mp hd
      rw [h] at hj
      exact absurd hj (by simp)

/-- A regular file may be replaced by anything but a directory. -/
theorem HasFile.canPut {p : Loc} {bytes : Bytes} (h : fs.HasFile p bytes) {k : Node}
    (hk : k.isDir = false) (hl : k.content ≠ .lnk []) : fs.CanPut p k := by
  obtain ⟨j, sparse, hj, hc⟩ := h
  exact canPut_of_node hj (by rw [hk, Node.isDir, hc]; rfl) hl

theorem HasFile.isDir {p : Loc} {bytes : Bytes} (h : fs.HasFile p bytes) : fs.isDir p = false := by
  obtain ⟨j, sparse, hj, hc⟩ := h
  rw [isDir_of_node hj, Node.isDir, hc]
  rfl

theorem HasFile.unique {p : Loc} {bytes bytes' : Bytes} (h : fs.HasFile p bytes)
    (h' : fs.HasFile p bytes') : bytes = bytes' := by
  obtain ⟨j, s, hj, hc⟩ := h
  obtain ⟨j', s', hj', hc'⟩ := h'
  rw [hj, Option.some.injEq] at hj'
  rw [← hj', hc, Content.reg.injEq] at hc'
  exact hc'.1

theorem node_put_self {p : Loc} {k : Node} (h : fs.CanPut p k) :
    (fs.put p k).node p = some k := by
  simp [put, h, node]

theorem node_put_of_ne {p q : Loc} {k : Node} (hq : q ≠ p) : (fs.put p k).node q = fs.node q := by
  unfold put
  split_ifs
  · exact AList.lookup_insert_ne hq
  · rfl

theorem node_remove_self {p : Loc} (h : fs.isDir p = false) : (fs.remove p).node p = none := by
  simp [remove, h, node]

theorem node_remove_of_ne {p q : Loc} (hq : q ≠ p) : (fs.remove p).node q = fs.node q := by
  unfold remove
  split_ifs
  · exact AList.lookup_erase_ne hq
  · rfl

/-- No change takes a directory away. -/
theorem isDir_put {p q : Loc} {k : Node} (h : fs.isDir q) : (fs.put p k).isDir q := by
  by_cases hq : q = p
  · subst hq
    by_cases hc : fs.CanPut q k
    · rw [isDir_of_node (node_put_self hc)]
      exact hc.2.1 (.inr h)
    · simpa [put, hc] using h
  · obtain ⟨j, hj, hd⟩ := fs.isDir_iff.mp h
    exact (isDir_iff _).mpr ⟨j, by rw [node_put_of_ne hq, hj], hd⟩

theorem isDir_remove {p q : Loc} (h : fs.isDir q) : (fs.remove p).isDir q := by
  by_cases hq : q = p
  · subst hq
    simp [remove, h]
  · obtain ⟨j, hj, hd⟩ := fs.isDir_iff.mp h
    exact (isDir_iff _).mpr ⟨j, by rw [node_remove_of_ne hq, hj], hd⟩

/-- The same objects, with attributes that may differ. -/
def SameContents (fs fs' : FS) : Prop :=
  ∀ p, (fs'.node p).map Node.content = (fs.node p).map Node.content

namespace SameContents

variable {fs' fs'' : FS}

theorem refl (fs : FS) : fs.SameContents fs := fun _ => rfl

theorem trans (h : fs.SameContents fs') (h' : fs'.SameContents fs'') : fs.SameContents fs'' :=
  fun p => (h' p).trans (h p)

theorem exists_node (h : fs.SameContents fs') {p : Loc} {k : Node} (hk : fs.node p = some k) :
    ∃ k', fs'.node p = some k' ∧ k'.content = k.content := by
  have hp := h p
  rw [hk, Option.map_some, Option.map_eq_some_iff] at hp
  exact hp

theorem hasFile (h : fs.SameContents fs') {p : Loc} {bytes : Bytes} (hf : fs.HasFile p bytes) :
    fs'.HasFile p bytes := by
  obtain ⟨k, sparse, hk, hc⟩ := hf
  obtain ⟨k', hk', hc'⟩ := h.exists_node hk
  exact ⟨k', sparse, hk', hc'.trans hc⟩

theorem put {p : Loc} {j k : Node} (hn : fs.node p = some j) (hk : k.content = j.content) :
    fs.SameContents (fs.put p k) := by
  intro q
  by_cases hq : q = p
  · subst hq
    have hd : k.isDir = j.isDir := by rw [Node.isDir, Node.isDir, hk]
    have hl : k.content ≠ .lnk [] := hk ▸ content_ne_of_node hn
    rw [node_put_self (canPut_of_node hn hd hl), hn, Option.map_some, Option.map_some, hk]
  · rw [node_put_of_ne hq]

end SameContents

/-! ### Directory listings -/

variable (fs)

/-- The entries of a directory, in the order they are read. -/
def names (p : Loc) : List Name :=
  fs.nodes.keys.filterMap fun q =>
    match q with
    | [] => none
    | n :: q => if q = p then some n else none

theorem mem_names {p : Loc} {n : Name} : n ∈ fs.names p ↔ (fs.node (n :: p)).isSome := by
  rw [node, AList.lookup_isSome, AList.mem_keys, names, List.mem_filterMap]
  constructor
  · rintro ⟨q, hq, h⟩
    cases q with
    | nil => simp at h
    | cons m q =>
      simp only [Option.ite_none_right_eq_some, Option.some.injEq] at h
      obtain ⟨rfl, rfl⟩ := h
      exact hq
  · intro h
    exact ⟨n :: p, h, by simp⟩

theorem nodup_names (p : Loc) : (fs.names p).Nodup := by
  refine List.Nodup.filterMap (fun a b n ha hb => ?_) (AList.keys_nodup _)
  cases a with
  | nil => simp at ha
  | cons m a =>
    cases b with
    | nil => simp at hb
    | cons l b =>
      simp only [Option.mem_def, Option.ite_none_right_eq_some, Option.some.injEq] at ha hb
      rw [ha.1, ha.2, hb.1, hb.2]

/-- How deep the file system is. -/
def depth : ℕ := (fs.nodes.keys.map List.length).foldr max 0

theorem length_le_depth {p : Loc} {k : Node} (h : fs.node p = some k) : p.length ≤ fs.depth := by
  have hmem : p ∈ fs.nodes.keys := by
    rw [← AList.mem_keys, ← AList.lookup_isSome, ← node, h]
    rfl
  unfold depth
  generalize fs.nodes.keys = ps at hmem
  induction ps with
  | nil => simp at hmem
  | cons q ps ih =>
    rw [List.map_cons, List.foldr_cons]
    rcases List.mem_cons.mp hmem with rfl | hmem
    · exact le_max_left ..
    · exact le_trans (ih hmem) (le_max_right ..)

end FS

end Posix
