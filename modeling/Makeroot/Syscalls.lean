import Makeroot.Paths

/-!
# System calls

A program is a function of the world it runs in : the file system, the current
directory, and a record of what its calls have done. A call may also fail for reasons
the file system does not show ; `fault` says which calls do, by their number, and each
call that can change or read an object takes a number. `stat` and `lstat` fail for
nothing but what they are asked about.

`wp` is the weakest precondition of a program, with one postcondition for a normal end
and one for an exit. Each call has one lemma that says all it can do (`mkdir_ok` and its
siblings). `Within` is what most calls have in common : nothing outside a region of the
file system changes, no directory disappears, and every effect is in the region.
-/

namespace Posix

/-! ## The world -/

/-- What a call did to an object. -/
inductive Effect
  /-- Its content, its link text or its entries were read. -/
  | read (p : Loc)
  | create (p : Loc)
  /-- Its content was replaced or changed. -/
  | write (p : Loc)
  | remove (p : Loc)
  /-- Its mode or its times were set. -/
  | attr (p : Loc)
deriving DecidableEq

def Effect.loc : Effect → Loc
  | .read p => p
  | .create p => p
  | .write p => p
  | .remove p => p
  | .attr p => p

def Effect.isRead : Effect → Bool
  | .read _ => true
  | _ => false

/-- A command that was run and waited for, and whether it succeeded. -/
structure Child where
  name : List Char
  arg : Path
  ok : Bool
deriving DecidableEq

/-- The kinds of calls that may fail without need. -/
inductive Sys
  | mkdir
  | symlink
  | unlink
  | chmod
  | utime
  | readlink
  | readdir
  | open
  | write
  | ftruncate
  | chdir
  | fork
  /-- `fstat`, `read`, `lseek` and `close`. -/
  | access
deriving DecidableEq

/-- What a program finds and cannot change. -/
structure Env where
  /-- The time objects are given when they are made. -/
  now : ℕ
  /-- The size files are read in, `st_blksize`. -/
  blksize : ℕ
  superuser : Bool
  /-- Why the call of a number fails, if it is of a kind and does so without need. -/
  fault : Sys → ℕ → Option Errno

structure World where
  fs : FS
  cwd : Loc
  env : Env
  /-- The number of the next call. -/
  tick : ℕ
  log : List Effect
  children : List Child

/-- A world in which no call fails without need, and nothing has been done yet. -/
def World.ofFS (fs : FS) : World := ⟨fs, [], ⟨0, 4096, false, fun _ _ => none⟩, 0, [], []⟩

/-- What `stat` tells about an object : its identity and its attributes. -/
structure Stat where
  ino : Loc
  node : Node
deriving DecidableEq

namespace World

variable (w : World)

/-- No call of a kind fails without need. -/
def Free (c : Sys) : Prop := ∀ i, w.env.fault c i = none

/-- No call fails without need. -/
def Calm : Prop := ∀ c, w.Free c

/-- A call has taken its number. -/
def next : World := { w with tick := w.tick + 1 }

def put (p : Loc) (k : Node) (e : Effect) : World :=
  { w with fs := w.fs.put p k, log := w.log ++ [e] }

/-- `stat`, or `lstat` if links at the end are not followed. -/
def stat (follow : Bool) (t : Path) : Except Errno Stat :=
  match w.fs.resolve w.cwd follow t with
  | .ok (.there p) =>
    match w.fs.node p with
    | some k => .ok ⟨p, k⟩
    | none => .error .noent
  | .ok (.absent _ _ _) => .error .noent
  | .error e => .error e

def mkdir (t : Path) (mode : ℕ) : Except Errno (Unit × World) :=
  match w.fs.resolve w.cwd false t with
  | .ok (.absent p n _) => .ok ((), w.put (n :: p) ⟨.dir, mode, w.env.now, w.env.now⟩ (.create (n :: p)))
  | .ok (.there _) => .error .exist
  | .error e => .error e

def symlink (target t : Path) : Except Errno (Unit × World) :=
  match w.fs.resolve w.cwd false t with
  | .ok (.absent p n false) =>
    if target = [] then .error .noent
    else .ok ((), w.put (n :: p) ⟨.lnk target, 0o777, w.env.now, w.env.now⟩ (.create (n :: p)))
  | .ok (.absent _ _ true) => .error .noent
  | .ok (.there _) => .error .exist
  | .error e => .error e

def unlink (t : Path) : Except Errno (Unit × World) :=
  match w.fs.resolve w.cwd false t with
  | .ok (.there p) =>
    if w.fs.isDir p then .error .isdir
    else .ok ((), { w with fs := w.fs.remove p, log := w.log ++ [.remove p] })
  | .ok (.absent _ _ _) => .error .noent
  | .error e => .error e

/-- Set attributes of what `t` names. -/
def setAttr (t : Path) (f : Node → Node) : Except Errno (Unit × World) :=
  match w.stat true t with
  | .ok s => .ok ((), w.put s.ino { f s.node with content := s.node.content } (.attr s.ino))
  | .error e => .error e

def readlink (t : Path) : Except Errno (Path × World) :=
  match w.stat false t with
  | .ok s =>
    match s.node.content with
    | .lnk target => .ok (target, { w with log := w.log ++ [.read s.ino] })
    | _ => .error .other
  | .error e => .error e

/-- `opendir` and `readdir` to the end. -/
def readdir (t : Path) : Except Errno (List Name × World) :=
  match w.stat true t with
  | .ok s =>
    if s.node.isDir then .ok (w.fs.names s.ino, { w with log := w.log ++ [.read s.ino] })
    else .error .notdir
  | .error e => .error e

/-- `open` with `O_RDONLY`, for a regular file. -/
def openRead (t : Path) : Except Errno (Loc × World) :=
  match w.stat true t with
  | .ok s =>
    if s.node.isDir then .error .isdir
    else .ok (s.ino, { w with log := w.log ++ [.read s.ino] })
  | .error e => .error e

/-- `open` with `O_WRONLY`, `O_CREAT` and `O_TRUNC`. -/
def openTrunc (t : Path) (mode : ℕ) : Except Errno (Loc × World) :=
  match w.fs.resolve w.cwd true t with
  | .ok (.there p) =>
    match w.fs.node p with
    | some ⟨.reg _ _, m, a, _⟩ => .ok (p, w.put p ⟨.reg [] false, m, a, w.env.now⟩ (.write p))
    | some ⟨.dir, _, _, _⟩ => .error .isdir
    | _ => .error .noent
  | .ok (.absent p n false) =>
    .ok (n :: p, w.put (n :: p) ⟨.reg [] false, mode, w.env.now, w.env.now⟩ (.create (n :: p)))
  | .ok (.absent _ _ true) => .error .isdir
  | .error e => .error e

/-- The bytes of a file with `b` written at `off`, zeros in a gap before it. -/
def overwrite (bytes : Bytes) (off : ℕ) (b : Bytes) : Bytes :=
  (bytes ++ List.replicate (off - bytes.length) 0).take off ++ b ++ bytes.drop (off + b.length)

/-- Write to an open file at an offset. -/
def writeAt (p : Loc) (off : ℕ) (b : Bytes) : Except Errno (Unit × World) :=
  match w.fs.node p with
  | some ⟨.reg bytes sparse, m, a, _⟩ =>
    .ok ((), w.put p ⟨.reg (overwrite bytes off b) (sparse || decide (bytes.length < off)), m, a,
      w.env.now⟩ (.write p))
  | _ => .error .other

def ftruncate (p : Loc) (len : ℕ) : Except Errno (Unit × World) :=
  match w.fs.node p with
  | some ⟨.reg bytes sparse, m, a, _⟩ =>
    .ok ((), w.put p ⟨.reg ((bytes ++ List.replicate (len - bytes.length) 0).take len) sparse, m,
      a, w.env.now⟩ (.write p))
  | _ => .error .other

def chdir (t : Path) : Except Errno (Unit × World) :=
  match w.stat true t with
  | .ok s => if s.node.isDir then .ok ((), { w with cwd := s.ino }) else .error .notdir
  | .error e => .error e

end World

/-! ## Programs -/

/-- The end of a program before its last statement. -/
inductive Stop
  | exit (status : ℕ)
  /-- The bound on a recursion was too small. -/
  | outOfFuel
deriving DecidableEq

abbrev Prog := EStateM Stop World

/-- Make a call, which takes a number and fails if that number is to. -/
def call {α : Type} (c : Sys) (f : World → Except Errno (α × World)) : Prog (Except Errno α) :=
  fun w =>
  match w.env.fault c w.tick with
  | some e => .ok (.error e) w.next
  | none =>
    match f w.next with
    | .ok (a, w') => .ok (.ok a) w'
    | .error e => .ok (.error e) w.next

def stat (t : Path) : Prog (Except Errno Stat) := fun w => .ok (w.stat true t) w
def lstat (t : Path) : Prog (Except Errno Stat) := fun w => .ok (w.stat false t) w
def mkdir (t : Path) (mode : ℕ) : Prog (Except Errno Unit) := call .mkdir (·.mkdir t mode)
def symlink (target t : Path) : Prog (Except Errno Unit) := call .symlink (·.symlink target t)
def unlink (t : Path) : Prog (Except Errno Unit) := call .unlink (·.unlink t)
def chmod (t : Path) (mode : ℕ) : Prog (Except Errno Unit) :=
  call .chmod (·.setAttr t ({ · with mode := mode }))
def utime (t : Path) (atime mtime : ℕ) : Prog (Except Errno Unit) :=
  call .utime (·.setAttr t ({ · with atime := atime, mtime := mtime }))
def readlink (t : Path) : Prog (Except Errno Path) := call .readlink (·.readlink t)
def readdir (t : Path) : Prog (Except Errno (List Name)) := call .readdir (·.readdir t)
def openRead (t : Path) : Prog (Except Errno Loc) := call .open (·.openRead t)
def openTrunc (t : Path) (mode : ℕ) : Prog (Except Errno Loc) := call .open (·.openTrunc t mode)
def writeAt (p : Loc) (off : ℕ) (b : Bytes) : Prog (Except Errno Unit) := call .write (·.writeAt p off b)
def ftruncate (p : Loc) (len : ℕ) : Prog (Except Errno Unit) := call .ftruncate (·.ftruncate p len)
def chdir (t : Path) : Prog (Except Errno Unit) := call .chdir (·.chdir t)

/-- A call that changes nothing and may fail. -/
def access : Prog (Except Errno Unit) := call .access fun w => .ok ((), w)

/-- Whether a directory may be written to and searched. -/
def euidaccess (k : Node) : Prog Bool := fun w =>
  .ok (w.env.superuser || k.mode &&& 0o300 = 0o300) w

/-- Fork a command on `arg` and wait for it : `f` is the world it leaves if it succeeds. -/
def spawn (name : List Char) (arg : Path) (f : World → Option World) : Prog (Except Errno Unit) :=
  call .fork fun w =>
    let w' := (f w).getD w
    .ok ((), { w' with children := w'.children ++ [⟨name, arg, (f w).isSome⟩] })

/-- Open the current directory, to come back to it. -/
def openCwd : Prog (Except Errno Loc) := call .open fun w => .ok (w.cwd, w)
def fchdir (p : Loc) : Prog (Except Errno Unit) := call .chdir fun w => .ok ((), { w with cwd := p })

/-! ## Weakest preconditions -/

/-- What holds before a program whose normal end satisfies `Q` and whose exits satisfy
`E`. -/
def wp {α : Type} (m : Prog α) (Q : α → World → Prop) (E : Stop → World → Prop) (w : World) :
    Prop :=
  match m w with
  | .ok a w' => Q a w'
  | .error e w' => E e w'

section Rules

variable {α β : Type} {Q Q' : α → World → Prop} {E E' : Stop → World → Prop} {w : World}

@[simp] theorem wp_pure (a : α) : wp (pure a) Q E w ↔ Q a w := Iff.rfl

@[simp] theorem wp_throw (e : Stop) : wp (throw e : Prog α) Q E w ↔ E e w := Iff.rfl

@[simp] theorem wp_bind {R : β → World → Prop} (m : Prog α) (f : α → Prog β) :
    wp (m >>= f) R E w ↔ wp m (fun a => wp (f a) R E) E w := by
  change (match EStateM.bind m f w with | .ok a w' => R a w' | .error e w' => E e w') ↔ _
  unfold wp EStateM.bind
  cases m w <;> rfl

@[simp] theorem wp_map {R : β → World → Prop} (m : Prog α) (f : α → β) :
    wp (f <$> m) R E w ↔ wp m (fun a => R (f a)) E w := by
  change (match EStateM.map f m w with | .ok a w' => R a w' | .error e w' => E e w') ↔ _
  unfold wp EStateM.map
  cases m w <;> rfl

@[simp] theorem wp_discard {R : Unit → World → Prop} (m : Prog α) :
    wp (discard m) R E w ↔ wp m (fun _ => R ()) E w :=
  wp_map (R := R) m fun _ => ()

@[simp] theorem wp_ite {c : Prop} [Decidable c] (m m' : Prog α) :
    wp (if c then m else m') Q E w ↔ (c → wp m Q E w) ∧ (¬c → wp m' Q E w) := by
  by_cases h : c <;> simp [h]

theorem wp_mono {m : Prog α} (h : wp m Q E w) (hQ : ∀ a w', Q a w' → Q' a w')
    (hE : ∀ e w', E e w' → E' e w') : wp m Q' E' w := by
  unfold wp at h ⊢
  cases hm : m w with
  | ok a w' =>
    rw [hm] at h
    exact hQ a w' h
  | error e w' =>
    rw [hm] at h
    exact hE e w' h

@[simp] theorem wp_stat {t : Path} {Q : Except Errno Stat → World → Prop} :
    wp (stat t) Q E w ↔ Q (w.stat true t) w := Iff.rfl

@[simp] theorem wp_lstat {t : Path} {Q : Except Errno Stat → World → Prop} :
    wp (lstat t) Q E w ↔ Q (w.stat false t) w := Iff.rfl

/-- A call may fail, without need only if it is of a kind that does ; if it does not fail,
it does what it is for. -/
theorem wp_call_free {c : Sys} {f : World → Except Errno (α × World)}
    {Q : Except Errno α → World → Prop}
    (herr : ∀ e, (w.Free c → f w.next = .error e) → Q (.error e) w.next)
    (hok : ∀ a w', f w.next = .ok (a, w') → Q (.ok a) w') : wp (call c f) Q E w := by
  unfold wp call
  cases hc : w.env.fault c w.tick with
  | some e =>
    refine herr e fun hfree => ?_
    rw [hfree] at hc
    simp at hc
  | none =>
    cases hf : f w.next with
    | error e => exact herr e fun _ => hf
    | ok r => exact hok r.1 r.2 hf

theorem wp_call {c : Sys} {f : World → Except Errno (α × World)}
    {Q : Except Errno α → World → Prop} (herr : ∀ e, Q (.error e) w.next)
    (hok : ∀ a w', f w.next = .ok (a, w') → Q (.ok a) w') : wp (call c f) Q E w :=
  wp_call_free (fun e _ => herr e) hok

/-- Where no call fails without need, a call that can do what it is for does it. -/
theorem wp_call_ok {c : Sys} {f : World → Except Errno (α × World)} {Q : Except Errno α → World → Prop}
    (hc : w.Free c) {a : α} {w' : World} (hf : f w.next = .ok (a, w')) (h : Q (.ok a) w') :
    wp (call c f) Q E w := by
  unfold wp call
  rw [hc, hf]
  exact h

theorem wp_call_error {c : Sys} {f : World → Except Errno (α × World)} {Q : Except Errno α → World → Prop}
    {e : Errno} (hf : f w.next = .error e) (h : ∀ e, Q (.error e) w.next) :
    wp (call c f) Q E w :=
  wp_call h fun a w' hok => by rw [hf] at hok; simp at hok

end Rules

/-! ## What the calls do -/

namespace World

variable {w w' : World}

@[simp] theorem next_fs (w : World) : w.next.fs = w.fs := rfl
@[simp] theorem next_cwd : w.next.cwd = w.cwd := rfl
@[simp] theorem next_env : w.next.env = w.env := rfl
@[simp] theorem next_log : w.next.log = w.log := rfl
@[simp] theorem next_children : w.next.children = w.children := rfl
@[simp] theorem next_stat (f : Bool) (t : Path) : w.next.stat f t = w.stat f t := rfl

@[simp] theorem put_fs (p : Loc) (k : Node) (e : Effect) : (w.put p k e).fs = w.fs.put p k := rfl
@[simp] theorem put_cwd (p : Loc) (k : Node) (e : Effect) : (w.put p k e).cwd = w.cwd := rfl
@[simp] theorem put_env (p : Loc) (k : Node) (e : Effect) : (w.put p k e).env = w.env := rfl
@[simp] theorem put_children (p : Loc) (k : Node) (e : Effect) :
    (w.put p k e).children = w.children := rfl
@[simp] theorem put_log (p : Loc) (k : Node) (e : Effect) :
    (w.put p k e).log = w.log ++ [e] := rfl

theorem stat_ok {follow : Bool} {t : Path} {s : Stat} (h : w.stat follow t = .ok s) :
    w.fs.resolve w.cwd follow t = .ok (.there s.ino) ∧ w.fs.node s.ino = some s.node := by
  unfold stat at h
  cases hr : w.fs.resolve w.cwd follow t with
  | error e => simp [hr] at h
  | ok f =>
    cases f with
    | absent p n sl => simp [hr] at h
    | there p =>
      rw [hr] at h
      cases hn : w.fs.node p with
      | none => simp [hn] at h
      | some k =>
        simp only [hn, Except.ok.injEq] at h
        subst h
        exact ⟨rfl, hn⟩

theorem stat_of_there {follow : Bool} {t : Path} {p : Loc} {k : Node}
    (hr : w.fs.resolve w.cwd follow t = .ok (.there p)) (hn : w.fs.node p = some k) :
    w.stat follow t = .ok ⟨p, k⟩ := by
  simp [stat, hr, hn]

theorem mkdir_ok {t : Path} {mode : ℕ} {a : Unit} (h : w.mkdir t mode = .ok (a, w')) :
    ∃ p n s, w.fs.resolve w.cwd false t = .ok (.absent p n s) ∧
      w' = w.put (n :: p) ⟨.dir, mode, w.env.now, w.env.now⟩ (.create (n :: p)) := by
  unfold mkdir at h
  cases hr : w.fs.resolve w.cwd false t with
  | error e => simp [hr] at h
  | ok f =>
    cases f with
    | there p => simp [hr] at h
    | absent p n s =>
      simp only [hr, Except.ok.injEq, Prod.mk.injEq, true_and] at h
      exact ⟨p, n, s, rfl, h.symm⟩

theorem symlink_ok {target t : Path} {a : Unit} (h : w.symlink target t = .ok (a, w')) :
    target ≠ [] ∧ ∃ p n, w.fs.resolve w.cwd false t = .ok (.absent p n false) ∧
      w' = w.put (n :: p) ⟨.lnk target, 0o777, w.env.now, w.env.now⟩ (.create (n :: p)) := by
  unfold symlink at h
  cases hr : w.fs.resolve w.cwd false t with
  | error e => simp [hr] at h
  | ok f =>
    cases f with
    | there p => simp [hr] at h
    | absent p n s =>
      cases s with
      | true => simp [hr] at h
      | false =>
        rw [hr] at h
        simp only at h
        split_ifs at h with ht
        simp only [Except.ok.injEq, Prod.mk.injEq, true_and] at h
        exact ⟨ht, p, n, rfl, h.symm⟩

theorem unlink_ok {t : Path} {a : Unit} (h : w.unlink t = .ok (a, w')) :
    ∃ p, w.fs.resolve w.cwd false t = .ok (.there p) ∧ w.fs.isDir p = false ∧
      w' = { w with fs := w.fs.remove p, log := w.log ++ [.remove p] } := by
  unfold unlink at h
  cases hr : w.fs.resolve w.cwd false t with
  | error e => simp [hr] at h
  | ok f =>
    cases f with
    | absent p n s => simp [hr] at h
    | there p =>
      rw [hr] at h
      simp only at h
      split_ifs at h with hd
      simp only [Except.ok.injEq, Prod.mk.injEq, true_and] at h
      exact ⟨p, rfl, by simpa using hd, h.symm⟩

theorem setAttr_ok {t : Path} {f : Node → Node} {a : Unit}
    (h : w.setAttr t f = .ok (a, w')) : ∃ s, w.stat true t = .ok s ∧
      w' = w.put s.ino { f s.node with content := s.node.content } (.attr s.ino) := by
  unfold setAttr at h
  cases hs : w.stat true t with
  | error e => simp [hs] at h
  | ok s =>
    simp only [hs, Except.ok.injEq, Prod.mk.injEq, true_and] at h
    exact ⟨s, rfl, h.symm⟩

theorem readlink_ok {t target : Path} (h : w.readlink t = .ok (target, w')) :
    ∃ s, w.stat false t = .ok s ∧ s.node.content = .lnk target ∧
      w' = { w with log := w.log ++ [.read s.ino] } := by
  unfold readlink at h
  cases hs : w.stat false t with
  | error e => simp [hs] at h
  | ok s =>
    rw [hs] at h
    cases hc : s.node.content with
    | lnk u =>
      simp only [hc, Except.ok.injEq, Prod.mk.injEq] at h
      exact ⟨s, rfl, h.1 ▸ hc, h.2.symm⟩
    | reg bytes sparse => simp [hc] at h
    | dir => simp [hc] at h

theorem readdir_ok {t : Path} {ns : List Name} (h : w.readdir t = .ok (ns, w')) :
    ∃ s, w.stat true t = .ok s ∧ s.node.isDir ∧ ns = w.fs.names s.ino ∧
      w' = { w with log := w.log ++ [.read s.ino] } := by
  unfold readdir at h
  cases hs : w.stat true t with
  | error e => simp [hs] at h
  | ok s =>
    rw [hs] at h
    simp only at h
    split_ifs at h with hd
    simp only [Except.ok.injEq, Prod.mk.injEq] at h
    exact ⟨s, rfl, hd, h.1.symm, h.2.symm⟩

theorem openRead_ok {t : Path} {p : Loc} (h : w.openRead t = .ok (p, w')) :
    ∃ k, w.stat true t = .ok ⟨p, k⟩ ∧ k.isDir = false ∧
      w' = { w with log := w.log ++ [.read p] } := by
  unfold openRead at h
  cases hs : w.stat true t with
  | error e => simp [hs] at h
  | ok s =>
    rw [hs] at h
    simp only at h
    split_ifs at h with hd
    simp only [Except.ok.injEq, Prod.mk.injEq] at h
    obtain ⟨rfl, rfl⟩ := h
    exact ⟨s.node, rfl, by simpa using hd, rfl⟩

/-- Either there was a file, and it was made empty, or one was made. -/
theorem openTrunc_ok {t : Path} {mode : ℕ} {p : Loc} (h : w.openTrunc t mode = .ok (p, w')) :
    (∃ bytes sparse m a n, w.fs.resolve w.cwd true t = .ok (.there p) ∧
      w.fs.node p = some ⟨.reg bytes sparse, m, a, n⟩ ∧
      w' = w.put p ⟨.reg [] false, m, a, w.env.now⟩ (.write p)) ∨
    ∃ q n, w.fs.resolve w.cwd true t = .ok (.absent q n false) ∧ p = n :: q ∧
      w' = w.put p ⟨.reg [] false, mode, w.env.now, w.env.now⟩ (.create p) := by
  unfold openTrunc at h
  cases hr : w.fs.resolve w.cwd true t with
  | error e => simp [hr] at h
  | ok f =>
    rw [hr] at h
    cases f with
    | there q =>
      dsimp only at h
      cases hn : w.fs.node q with
      | none => simp [hn] at h
      | some k =>
        obtain ⟨c, m, a, n⟩ := k
        cases c with
        | lnk t => simp [hn] at h
        | dir => simp [hn] at h
        | reg bytes sparse =>
          simp only [hn, Except.ok.injEq, Prod.mk.injEq] at h
          obtain ⟨rfl, rfl⟩ := h
          exact .inl ⟨bytes, sparse, m, a, n, rfl, hn, rfl⟩
    | absent q n s =>
      cases s with
      | true => simp at h
      | false =>
        simp only [Except.ok.injEq, Prod.mk.injEq] at h
        obtain ⟨rfl, rfl⟩ := h
        exact .inr ⟨q, n, rfl, rfl, rfl⟩

theorem writeAt_ok {p : Loc} {off : ℕ} {b : Bytes} {u : Unit}
    (h : w.writeAt p off b = .ok (u, w')) : ∃ bytes sparse m a n,
      w.fs.node p = some ⟨.reg bytes sparse, m, a, n⟩ ∧
      w' = w.put p ⟨.reg (overwrite bytes off b) (sparse || decide (bytes.length < off)), m, a,
        w.env.now⟩ (.write p) := by
  unfold writeAt at h
  split at h
  · rename_i bytes sparse m a n hn
    simp only [Except.ok.injEq, Prod.mk.injEq, true_and] at h
    exact ⟨bytes, sparse, m, a, n, hn, h.symm⟩
  · simp at h

theorem ftruncate_ok {p : Loc} {len : ℕ} {u : Unit} (h : w.ftruncate p len = .ok (u, w')) :
    ∃ bytes sparse m a n, w.fs.node p = some ⟨.reg bytes sparse, m, a, n⟩ ∧
      w' = w.put p ⟨.reg ((bytes ++ List.replicate (len - bytes.length) 0).take len) sparse, m, a,
        w.env.now⟩ (.write p) := by
  unfold ftruncate at h
  split at h
  · rename_i bytes sparse m a n hn
    simp only [Except.ok.injEq, Prod.mk.injEq, true_and] at h
    exact ⟨bytes, sparse, m, a, n, hn, h.symm⟩
  · simp at h

theorem chdir_ok {t : Path} {u : Unit} (h : w.chdir t = .ok (u, w')) :
    ∃ s, w.stat true t = .ok s ∧ s.node.isDir ∧ w' = { w with cwd := s.ino } := by
  unfold chdir at h
  cases hs : w.stat true t with
  | error e => simp [hs] at h
  | ok s =>
    rw [hs] at h
    simp only at h
    split_ifs at h with hd
    simp only [Except.ok.injEq, Prod.mk.injEq, true_and] at h
    exact ⟨s, rfl, hd, h.symm⟩

end World

/-! ## Regions -/

/-- An effect is inside two regions : what is read is in `S`, and everything else happens
in `R`. -/
def Effect.Inside (S R : Loc) (e : Effect) : Prop :=
  if e.isRead then Above S e.loc else Above R e.loc

/-- From `w` to `w'` nothing outside the region `R` has changed, no directory has
disappeared, nothing outside `S` has been read and no command has been run. -/
structure Within (S R : Loc) (w w' : World) : Prop where
  cwd : w'.cwd = w.cwd
  env : w'.env = w.env
  children : w'.children = w.children
  dirs : ∀ p, w.fs.isDir p → w'.fs.isDir p
  out : ∀ p, ¬Above R p → w'.fs.node p = w.fs.node p
  log : ∃ l, w'.log = w.log ++ l ∧ ∀ e ∈ l, e.Inside S R

namespace Within

variable {S R : Loc} {w w' w'' : World}

theorem refl (S R : Loc) (w : World) : Within S R w w :=
  ⟨rfl, rfl, rfl, fun _ h => h, fun _ _ => rfl, [], by simp, by simp⟩

theorem trans (h : Within S R w w') (h' : Within S R w' w'') : Within S R w w'' := by
  obtain ⟨l, hl, hin⟩ := h.log
  obtain ⟨l', hl', hin'⟩ := h'.log
  refine ⟨h'.cwd.trans h.cwd, h'.env.trans h.env, h'.children.trans h.children, fun p hp => h'.dirs p (h.dirs p hp),
    fun p hp => (h'.out p hp).trans (h.out p hp), l ++ l', ?_, ?_⟩
  · rw [hl', hl, List.append_assoc]
  · intro e he
    exact (List.mem_append.mp he).elim (hin e) (hin' e)

theorem next (S R : Loc) (w : World) : Within S R w w.next :=
  ⟨rfl, rfl, rfl, fun _ h => h, fun _ _ => rfl, [], by simp, by simp⟩

/-- A number more or less before a call does not matter. -/
theorem of_next (h : Within S R w.next w') : Within S R w w' := (next S R w).trans h

theorem put {p : Loc} (hp : Above R p) {e : Effect} (he : e.isRead = false) (hl : e.loc = p)
    (k : Node) : Within S R w (w.put p k e) := by
  refine ⟨rfl, rfl, rfl, fun q hq => FS.isDir_put hq, fun q hq => FS.node_put_of_ne fun hqp => ?_,
    [e], rfl, fun d hd => ?_⟩
  · exact hq (hqp ▸ hp)
  · rw [List.mem_singleton.mp hd, Effect.Inside, he]
    simpa [hl] using hp

theorem remove {p : Loc} (hp : Above R p) :
    Within S R w { w with fs := w.fs.remove p, log := w.log ++ [.remove p] } := by
  refine ⟨rfl, rfl, rfl, fun q hq => FS.isDir_remove hq,
    fun q hq => FS.node_remove_of_ne fun hqp => ?_, [.remove p], rfl, fun d hd => ?_⟩
  · exact hq (hqp ▸ hp)
  · rw [List.mem_singleton.mp hd]
    exact hp

theorem read {p : Loc} (hp : Above S p) :
    Within S R w { w with log := w.log ++ [.read p] } := by
  refine ⟨rfl, rfl, rfl, fun q hq => hq, fun q _ => rfl, [.read p], rfl, fun d hd => ?_⟩
  rw [List.mem_singleton.mp hd]
  exact hp

theorem free (h : Within S R w w') {c : Sys} (hc : w.Free c) : w'.Free c := fun i => by
  rw [h.env]
  exact hc i

theorem calm (h : Within S R w w') (hc : w.Calm) : w'.Calm := fun c => h.free (hc c)

/-- A path whose links keep out of the region names the same directory afterwards. -/
theorem namesDir (h : Within S R w w') {t : Path} {q : Loc}
    (ht : NamesDir w.fs w.cwd t R q) : NamesDir w'.fs w'.cwd t R q := by
  rw [h.cwd]
  exact ht.mono h.dirs h.out

theorem namesEntry (h : Within S R w w') {t : Path} {q : Loc}
    (ht : NamesEntry w.fs w.cwd t R q) : NamesEntry w'.fs w'.cwd t R q := by
  rw [h.cwd]
  exact ht.mono h.dirs h.out

/-- Nothing but reads. -/
theorem of_fs_eq (hc : w'.cwd = w.cwd) (he : w'.env = w.env) (hch : w'.children = w.children)
    (hfs : w'.fs = w.fs) (hl : w'.log = w.log) : Within S R w w' :=
  ⟨hc, he, hch, fun p hp => hfs ▸ hp, fun p _ => by rw [hfs], [], by simp [hl], by simp⟩

/-- What is run from another directory, with a return to the current one. -/
theorem back {p : Loc} (h : Within S R { w with cwd := p } w') :
    Within S R w { w' with cwd := w.cwd } :=
  ⟨rfl, h.env, h.children, h.dirs, h.out, h.log⟩

theorem mono {R' : Loc} (h : Within S R w w') (hR : Above R' R) : Within S R' w w' := by
  obtain ⟨l, hl, hin⟩ := h.log
  refine ⟨h.cwd, h.env, h.children, h.dirs, fun p hp => h.out p fun hRp => hp (hR.trans hRp), l,
    hl, fun e he => ?_⟩
  have he' := hin e he
  unfold Effect.Inside at he' ⊢
  split_ifs at he' ⊢
  · exact he'
  · exact hR.trans he'

end Within

/-! ## Calls on paths -/

section Paths

variable {S R : Loc} {w : World} {t : Path} {E : Stop → World → Prop}

theorem wp_unlink {Q : Except Errno Unit → World → Prop}
    (hR : ∀ p, w.fs.resolve w.cwd false t = .ok (.there p) → Above R p)
    (herr : ∀ e, (w.Free .unlink → w.next.unlink t = .error e) → Q (.error e) w.next)
    (hok : ∀ p w', w.fs.resolve w.cwd false t = .ok (.there p) → w.fs.isDir p = false →
      Within S R w w' → w'.fs = w.fs.remove p → Q (.ok ()) w') : wp (unlink t) Q E w := by
  refine wp_call_free herr fun _ w' hw => ?_
  obtain ⟨p, hp, hd, rfl⟩ := World.unlink_ok hw
  exact hok p _ hp hd ((Within.next ..).trans (.remove (hR p hp))) rfl

theorem wp_mkdir {mode : ℕ} {Q : Except Errno Unit → World → Prop}
    (hR : ∀ p, w.fs.target w.cwd false t = some p → Above R p)
    (herr : ∀ e, (w.Free .mkdir → w.next.mkdir t mode = .error e) → Q (.error e) w.next)
    (hok : ∀ p n s w', w.fs.resolve w.cwd false t = .ok (.absent p n s) →
      Within S R w w' →
      w'.fs = w.fs.put (n :: p) ⟨.dir, mode, w.env.now, w.env.now⟩ →
      w'.log = w.log ++ [.create (n :: p)] → Q (.ok ()) w') : wp (mkdir t mode) Q E w := by
  refine wp_call_free herr fun _ w' hw => ?_
  obtain ⟨p, n, s, hr, rfl⟩ := World.mkdir_ok hw
  exact hok p n s _ hr
    ((Within.next ..).trans (.put (hR _ (FS.target_of_absent hr)) rfl rfl _)) rfl rfl

theorem wp_symlink {target : Path} {Q : Except Errno Unit → World → Prop}
    (hR : ∀ p, w.fs.target w.cwd false t = some p → Above R p)
    (herr : ∀ e, (w.Free .symlink → w.next.symlink target t = .error e) → Q (.error e) w.next)
    (hok : ∀ p n w', target ≠ [] → w.fs.resolve w.cwd false t = .ok (.absent p n false) →
      Within S R w w' →
      w'.fs = w.fs.put (n :: p) ⟨.lnk target, 0o777, w.env.now, w.env.now⟩ →
      w'.log = w.log ++ [.create (n :: p)] → Q (.ok ()) w') : wp (symlink target t) Q E w := by
  refine wp_call_free herr fun _ w' hw => ?_
  obtain ⟨ht, p, n, hr, rfl⟩ := World.symlink_ok hw
  exact hok p n _ ht hr
    ((Within.next ..).trans (.put (hR _ (FS.target_of_absent hr)) rfl rfl _)) rfl rfl

theorem wp_setAttr {c : Sys} {f : Node → Node} {Q : Except Errno Unit → World → Prop}
    (hR : ∀ p, w.fs.resolve w.cwd true t = .ok (.there p) → Above R p)
    (herr : ∀ e, (w.Free c → w.next.setAttr t f = .error e) → Q (.error e) w.next)
    (hok : ∀ s w', w.stat true t = .ok s → Within S R w w' → w.fs.SameContents w'.fs →
      (∀ q, q ≠ s.ino → w'.fs.node q = w.fs.node q) →
      w'.fs.node s.ino = some { f s.node with content := s.node.content } → Q (.ok ()) w') :
    wp (call c (·.setAttr t f)) Q E w := by
  refine wp_call_free herr fun _ w' hw => ?_
  obtain ⟨s, hs, rfl⟩ := World.setAttr_ok hw
  obtain ⟨hr, hn⟩ := World.stat_ok hs
  have hl : s.node.content ≠ .lnk [] := FS.content_ne_of_node hn
  exact hok s _ hs ((Within.next ..).trans (.put (hR _ hr) rfl rfl _))
    (FS.SameContents.put hn rfl) (fun q hq => FS.node_put_of_ne hq)
    (FS.node_put_self (FS.canPut_of_node hn rfl hl))

theorem wp_openRead {Q : Except Errno Loc → World → Prop}
    (hS : ∀ p, w.fs.resolve w.cwd true t = .ok (.there p) → Above S p)
    (herr : ∀ e, (w.Free .open → w.next.openRead t = .error e) → Q (.error e) w.next)
    (hok : ∀ p w', w.fs.resolve w.cwd true t = .ok (.there p) → w.fs.isDir p = false →
      (∀ R, Within S R w w') → w'.fs = w.fs → Q (.ok p) w') : wp (openRead t) Q E w := by
  refine wp_call_free herr fun p w' hw => ?_
  obtain ⟨k, hs, hd, rfl⟩ := World.openRead_ok hw
  obtain ⟨hr, hn⟩ := World.stat_ok hs
  exact hok p _ hr ((FS.isDir_of_node hn).trans hd)
    (fun _ => (Within.next ..).trans (.read (hS _ hr))) rfl

/-- An open file is named by the path it was opened with. -/
theorem wp_openTrunc {mode : ℕ} {Q : Except Errno Loc → World → Prop}
    (hR : ∀ p, w.fs.target w.cwd true t = some p → Above R p)
    (herr : ∀ e, (w.Free .open → w.next.openTrunc t mode = .error e) → Q (.error e) w.next)
    (hok : ∀ p w', w.fs.target w.cwd true t = some p → Within S R w w' →
      w'.fs.resolve w'.cwd true t = .ok (.there p) → w'.fs.HasFile p [] →
      (∀ q, q ≠ p → w'.fs.node q = w.fs.node q) →
      w'.log = w.log ++ [.write p] ∨ w'.log = w.log ++ [.create p] → Q (.ok p) w') :
    wp (openTrunc t mode) Q E w := by
  refine wp_call_free herr fun p w' hw => ?_
  rcases World.openTrunc_ok hw with ⟨bytes, s, m, a, n, hr, hn, rfl⟩ | ⟨q, n, hr, rfl, rfl⟩
  · refine hok p _ (FS.target_of_there hr)
      ((Within.next ..).trans (.put (hR _ (FS.target_of_there hr)) rfl rfl _)) ?_
      ⟨_, false, FS.node_put_self (FS.canPut_of_node hn rfl (by simp)), rfl⟩
      (fun q hq => FS.node_put_of_ne hq) (.inl rfl)
    exact (FS.resolve_congr (FS.sees_put (k := ⟨.reg [] false, m, a, w.env.now⟩) hn rfl (by simp))
      _ _ _).trans hr
  · obtain ⟨hd, hn⟩ := FS.resolve_absent hr
    exact hok _ _ (FS.target_of_absent hr)
      ((Within.next ..).trans (.put (hR _ (FS.target_of_absent hr)) rfl rfl _))
      (FS.resolve_put hr (by simp) (by simp) (by simp))
      ⟨_, false, FS.node_put_self (FS.canPut_of_absent hd hn (by simp)), rfl⟩
      (fun q hq => FS.node_put_of_ne hq) (.inr rfl)

theorem wp_readlink {Q : Except Errno Path → World → Prop}
    (hS : ∀ p, w.fs.resolve w.cwd false t = .ok (.there p) → Above S p)
    (herr : ∀ e, (w.Free .readlink → w.next.readlink t = .error e) → Q (.error e) w.next)
    (hok : ∀ s target w', w.stat false t = .ok s → s.node.content = .lnk target →
      (∀ R, Within S R w w') → w'.fs = w.fs → Q (.ok target) w') : wp (readlink t) Q E w := by
  refine wp_call_free herr fun target w' hw => ?_
  obtain ⟨s, hs, hc, rfl⟩ := World.readlink_ok hw
  exact hok s target _ hs hc 
    (fun _ => (Within.next ..).trans (.read (hS _ (World.stat_ok hs).1))) rfl

theorem wp_readdir {Q : Except Errno (List Name) → World → Prop}
    (hS : ∀ p, w.fs.resolve w.cwd true t = .ok (.there p) → Above S p)
    (herr : ∀ e, (w.Free .readdir → w.next.readdir t = .error e) → Q (.error e) w.next)
    (hok : ∀ p w', w.fs.resolve w.cwd true t = .ok (.there p) → w.fs.isDir p →
      (∀ R, Within S R w w') → w'.fs = w.fs → Q (.ok (w.fs.names p)) w') : wp (readdir t) Q E w := by
  refine wp_call_free herr fun ns w' hw => ?_
  obtain ⟨s, hs, hd, rfl, rfl⟩ := World.readdir_ok hw
  obtain ⟨hr, hn⟩ := World.stat_ok hs
  exact hok s.ino _ hr ((FS.isDir_of_node hn).trans hd)
    (fun _ => (Within.next ..).trans (.read (hS _ hr))) rfl

end Paths

/-! ## Calls on open files -/

section OpenFiles

variable {S R p : Loc} {w : World} {bytes : Bytes} {E : Stop → World → Prop}

theorem wp_access {Q : Except Errno Unit → World → Prop}
    (herr : ∀ e, ¬w.Free .access → Q (.error e) w.next) (hok : Q (.ok ()) w.next) :
    wp access Q E w :=
  wp_call_free (fun e he => herr e fun hfree => by simpa using he hfree) fun _ w' hw => by
    simp only [Except.ok.injEq, Prod.mk.injEq, true_and] at hw
    exact hw ▸ hok

theorem HasFile.put (h : w.fs.HasFile p bytes) (b : Bytes) (sparse : Bool) (m a n : ℕ)
    (e : Effect) : (w.put p ⟨.reg b sparse, m, a, n⟩ e).fs.HasFile p b :=
  ⟨_, sparse, FS.node_put_self (h.canPut rfl (by simp)), rfl⟩

theorem wp_writeAt (hR : Above R p) (h : w.fs.HasFile p bytes) {off : ℕ} {b : Bytes}
    {Q : Except Errno Unit → World → Prop}
    (herr : ∀ e, ¬w.Free .write → Q (.error e) w.next)
    (hok : ∀ w', Within S R w w' → w'.fs.HasFile p (World.overwrite bytes off b) →
      Q (.ok ()) w') : wp (writeAt p off b) Q E w := by
  refine wp_call_free (fun e he => herr e fun hfree => ?_) fun _ w' hw => ?_
  · obtain ⟨⟨c, m, a, n⟩, sparse, hn, hc⟩ := h
    obtain rfl : c = .reg bytes sparse := hc
    have he' := he hfree
    simp [World.writeAt, hn] at he'
  · obtain ⟨bytes', sparse, m, a, n, hn, rfl⟩ := World.writeAt_ok hw
    have hf : w.next.fs.HasFile p bytes' := ⟨_, sparse, hn, rfl⟩
    obtain rfl := h.unique hf
    exact hok _ ((Within.next ..).trans (.put hR rfl rfl _)) (HasFile.put hf ..)

theorem wp_ftruncate (hR : Above R p) (h : w.fs.HasFile p bytes) {len : ℕ}
    {Q : Except Errno Unit → World → Prop}
    (herr : ∀ e, ¬w.Free .ftruncate → Q (.error e) w.next)
    (hok : ∀ w', Within S R w w' →
      w'.fs.HasFile p ((bytes ++ List.replicate (len - bytes.length) 0).take len) →
      Q (.ok ()) w') : wp (ftruncate p len) Q E w := by
  refine wp_call_free (fun e he => herr e fun hfree => ?_) fun _ w' hw => ?_
  · obtain ⟨⟨c, m, a, n⟩, sparse, hn, hc⟩ := h
    obtain rfl : c = .reg bytes sparse := hc
    have he' := he hfree
    simp [World.ftruncate, hn] at he'
  · obtain ⟨bytes', sparse, m, a, n, hn, rfl⟩ := World.ftruncate_ok hw
    have hf : w.next.fs.HasFile p bytes' := ⟨_, sparse, hn, rfl⟩
    obtain rfl := h.unique hf
    exact hok _ ((Within.next ..).trans (.put hR rfl rfl _)) (HasFile.put hf ..)

end OpenFiles

/-- A write at the end of a file, with zeros in the gap before it. -/
theorem World.overwrite_of_le {bytes : Bytes} {off : ℕ} (h : bytes.length ≤ off) (b : Bytes) :
    overwrite bytes off b = bytes ++ List.replicate (off - bytes.length) 0 ++ b := by
  have hlen : (bytes ++ List.replicate (off - bytes.length) 0).length = off := by simp; omega
  rw [overwrite, List.take_of_length_le (by omega), List.drop_of_length_le (by omega),
    List.append_nil]

end Posix
