import Makeroot.PathNames
import Makeroot.Syscalls

/-!
# copy.c : copying files and trees

`copyInternal` copies one object, with what is below it if it is a directory. The options
it looks at are those install sets ; the others have the values of `cp_option_init` : an
object in the way is removed first (`force`), a failure to do so is not fatal, and
attributes that cannot be preserved are no error.

A program returns whether it failed, as C returns a status that is not zero.
-/

namespace Makeroot

open Posix

/-- The options of `cp_options` that install sets. -/
structure CpOptions where
  dereference : Bool
  recursive : Bool
  preserveTimestamps : Bool
  preserveChmodBits : Bool
  setMode : Bool
  mode : ℕ
  umaskKill : ℕ

/-- `xstat`. -/
def CpOptions.xstat (x : CpOptions) (t : Path) : Prog (Except Errno Stat) :=
  if x.dereference then stat t else lstat t

/-! ## The table of inodes -/

/-- The entries of the hash table : an inode, and the path it was copied to, or none for
an inode that was created. -/
abbrev HTab := List (Loc × Option Path)

/-- `hash_insert2` : the table, and the entry that was there already. -/
def hashInsert (h : HTab) (ino : Loc) (node : Option Path) : HTab × Option (Option Path) :=
  match h.lookup ino with
  | some earlier => (h, some earlier)
  | none => ((ino, node) :: h, none)

/-- `remember_copied`. -/
def rememberCopied (h : HTab) (node : Path) (ino : Loc) : HTab × Option (Option Path) :=
  hashInsert h ino (some node)

/-- `remember_created`. -/
def rememberCreated (h : HTab) (path : Path) : Prog (Bool × HTab) := do
  match ← stat path with
  | .error _ => pure (true, h)
  | .ok sb => pure (false, (hashInsert h sb.ino none).1)

/-! ## Regular files -/

/-- Read and write the blocks of a file. `off` is where the next one goes, and `hole` says
whether the last one was left out as a hole. -/
def copyBlocks (dest : Loc) (makeHoles : Bool) : List Bytes → ℕ → Bool → Prog Bool
  | [], off, hole => do
    match ← access with
    | .error _ => pure true
    | .ok _ =>
      if hole then
        -- a file that ends in a hole gets its length by a byte and a truncation
        match ← writeAt dest off [0] with
        | .error _ => pure true
        | .ok _ =>
          match ← ftruncate dest off with
          | .error _ => pure true
          | .ok _ => pure false
      else pure false
  | b :: bs, off, _ => do
    match ← access with
    | .error _ => pure true
    | .ok _ =>
      if makeHoles && b.all (· = 0) then
        match ← access with
        | .error _ => pure true
        | .ok _ => copyBlocks dest makeHoles bs (off + b.length) true
      else
        match ← writeAt dest off b with
        | .error _ => pure true
        | .ok _ => copyBlocks dest makeHoles bs (off + b.length) false

/-- The blocks an open file is read in, and whether it seems to have holes. -/
def blocks (source : Loc) : Prog (List Bytes × Bool) := fun w =>
  match w.fs.node source with
  | some ⟨.reg bytes sparse, _, _, _⟩ => .ok (bytes.toChunks w.env.blksize, sparse) w
  | _ => .ok ([], false) w

/-- `copy_reg` between its two `open` and its two `close`. -/
def copyData (source dest : Loc) : Prog Bool := do
  match ← access with
  | .error _ => pure true
  | .ok _ =>
    match ← access with
    | .error _ => pure true
    | .ok _ =>
      let (bs, makeHoles) ← blocks source
      copyBlocks dest makeHoles bs 0 false

/-- `close`. -/
def close : Prog Bool := do
  match ← access with
  | .error _ => pure true
  | .ok _ => pure false

/-- `copy_reg`. -/
def copyReg (srcPath dstPath : Path) : Prog Bool := do
  match ← openRead srcPath with
  | .error _ => pure true
  | .ok source =>
    match ← openTrunc dstPath 0o600 with
    | .error _ =>
      discard close
      pure true
    | .ok dest =>
      let r ← copyData source dest
      let c ← close
      let c' ← close
      pure (r || c || c')

/-! ## Objects of any kind -/

/-- What is known of the destination once it has been made ready : `new_dst`, whether it
is a directory, and the mode `fix_mode` is to restore. -/
structure Dst where
  newDst : Bool
  isDir : Bool
  fixMode : Option ℕ

/-- Make the destination ready : nothing if it is new ; otherwise an object in the way is
removed, and a directory is made accessible. No result if that ends in an error. -/
def prepareDst (x : CpOptions) (src : Stat) (dstPath : Path) (newDst : Bool) :
    Prog (Option Dst) :=
  if newDst then pure (some ⟨true, false, none⟩)
  else do
    match ← x.xstat dstPath with
    | .error e => if e = .noent then pure (some ⟨true, false, none⟩) else pure none
    | .ok dst =>
      if dst.node.isDir then
        if src.node.isDir then
          if ← euidaccess dst.node then pure (some ⟨false, true, none⟩)
          else
            match ← chmod dstPath 0o700 with
            | .error _ => pure none
            | .ok _ => pure (some ⟨false, true, some dst.node.mode⟩)
        else pure none
      else
        match ← unlink dstPath with
        | .ok _ => pure (some ⟨true, false, none⟩)
        | .error e => pure (some ⟨e = .noent, false, none⟩)

/-- Set the mode of a copy that is not a link. -/
def setMode (x : CpOptions) (src : Stat) (dstPath : Path) (dst : Dst) : Prog Bool := do
  if x.setMode then
    match ← chmod dstPath (if src.node.isDir then x.mode ||| 0o100 else x.mode) with
    | .error _ => pure true
    | .ok _ => pure false
  else if x.preserveChmodBits || dst.newDst then
    discard <| chmod dstPath (src.node.mode &&& x.umaskKill)
    pure false
  else
    match dst.fixMode with
    | none => pure false
    | some m =>
      match ← chmod dstPath m with
      | .error _ => pure true
      | .ok _ => pure false

/-- Set the times and the mode of a copy that is not a link. That the times cannot be set
is no error. -/
def setAttributes (x : CpOptions) (src : Stat) (dstPath : Path) (dst : Dst) : Prog Bool := do
  if x.preserveTimestamps then
    discard <| utime dstPath src.node.atime src.node.mtime
  setMode x src dstPath dst

/-- The loop of `copy_dir` over the entries of a directory, with `copy_internal` for each.
It goes on after a failure. -/
def copyEntries (copy : Path → Path → HTab → Prog (Bool × HTab)) (srcPath dstPath : Path) :
    List Name → HTab → Prog (Bool × HTab)
  | [], h => pure (false, h)
  | n :: ns, h => do
    let (failed, h) ← copy (pathConcat srcPath n.val) (pathConcat dstPath n.val) h
    let (failed', h) ← copyEntries copy srcPath dstPath ns h
    pure (failed || failed', h)

/-- `copy_dir`. -/
def copyDir (copy : Path → Path → HTab → Prog (Bool × HTab)) (srcPath dstPath : Path)
    (h : HTab) : Prog (Bool × HTab) := do
  match ← readdir srcPath with
  | .error _ => pure (true, h)
  | .ok names => copyEntries copy srcPath dstPath names h

/-- The directory of a copy, if it is not there. -/
def makeDst (x : CpOptions) (src : Stat) (dstPath : Path) (dst : Dst) (h : HTab) :
    Prog (Bool × HTab) :=
  if dst.newDst || !dst.isDir then do
    match ← mkdir dstPath ((src.node.mode &&& x.umaskKill) ||| 0o700) with
    | .error _ => pure (true, h)
    | .ok _ => rememberCreated h dstPath
  else pure (false, h)

/-- A link is copied by its text. -/
def copyLink (srcPath dstPath : Path) : Prog Bool := do
  match ← readlink srcPath with
  | .error _ => pure true
  | .ok target =>
    match ← symlink target dstPath with
    | .error _ => pure true
    | .ok _ => pure false

/-- The copy of an object that is no directory, once the destination is ready. Links keep the
attributes they are made with. -/
def copyObject (x : CpOptions) (src : Stat) (srcPath dstPath : Path) (dst : Dst) : Prog Bool :=
  if src.node.content.isLnk then copyLink srcPath dstPath
  else do
    if ← copyReg srcPath dstPath then pure true
    else setAttributes x src dstPath dst

/-- `copy_internal`, to a depth of the first argument. A directory has more than one link,
other objects have one. -/
def copyInternal (x : CpOptions) :
    ℕ → Path → Path → Bool → List Loc → HTab → Prog (Bool × HTab)
  | 0, _, _, _, _, _ => throw .outOfFuel
  | depth + 1, srcPath, dstPath, newDst, ancestors, h => do
    match ← x.xstat srcPath with
    | .error _ => pure (true, h)
    | .ok src =>
      let (h, earlier) := rememberCopied h dstPath src.ino
      if earlier = some none then pure (false, h)
      else if src.node.isDir && !x.recursive then pure (true, h)
      else
        match ← prepareDst x src dstPath newDst with
        | none => pure (true, h)
        | some dst =>
          if src.node.isDir then
            if !x.dereference && earlier.isSome then pure (true, h)
            else if src.ino ∈ ancestors then pure (true, h)
            else
              let (failed, h) ← makeDst x src dstPath dst h
              if failed then pure (true, h)
              else
                let (failed, h) ← copyDir
                  (fun s d h => copyInternal x depth s d dst.newDst (src.ino :: ancestors) h)
                  srcPath dstPath h
                if failed then pure (true, h)
                else do
                  let failed ← setAttributes x src dstPath dst
                  pure (failed, h)
          else do
            let failed ← copyObject x src srcPath dstPath dst
            pure (failed, h)

/-- `copy`. -/
def copy (x : CpOptions) (depth : ℕ) (srcPath dstPath : Path) (nonexistentDst : Bool) (h : HTab) :
    Prog (Bool × HTab) :=
  copyInternal x depth srcPath dstPath nonexistentDst [] h

end Makeroot
