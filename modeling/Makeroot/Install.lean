import Makeroot.Copy

/-!
# install.c

The program `install` of tools/install copies files and sets their attributes. With one
source, `main` asks whether the destination is a directory and, under `-D`, whether its
parent is one, and goes one of three ways : the file goes into the directory under its
own base name, or to the destination itself, or first the parent is made and then the
file goes in there.
-/

namespace Makeroot

open Posix

/-- `isdir`. -/
def isdir (path : Path) : Prog Bool := do
  match ← stat path with
  | .ok s => pure s.node.isDir
  | .error _ => pure false

/-! ## make_path -/

/-- The components of a path, each with the path up to it. `done` has been read, and
`comp` is the component being read. -/
def dirPrefixes : Path → Path → Path → List (Path × Path)
  | done, comp, [] => [(done ++ comp, comp)]
  | done, comp, c :: cs =>
    if c = '/' then
      if comp = [] then dirPrefixes (done ++ ['/']) [] cs
      else (done ++ comp, comp) :: dirPrefixes (done ++ comp ++ ['/']) [] cs
    else dirPrefixes done (comp ++ [c]) cs

/-- The loop of `make_path` over the components. With `doChdir` it works from inside each
directory. -/
def makeDirs (doChdir : Bool) (mode : ℕ) : List (Path × Path) → Prog Bool
  | [] => pure false
  | [(full, comp)] => do
    let t := if doChdir then comp else full
    match ← stat t with
    | .ok _ => pure false
    | .error _ =>
      match ← mkdir t mode with
      | .error _ => pure true
      | .ok _ => pure false
  | (full, comp) :: d :: ds => do
    let t := if doChdir then comp else full
    -- only if `mkdir` fails, `stat` tells whether the directory was there
    let there ← match ← mkdir t mode with
      | .ok _ => pure true
      | .error _ => isdir t
    if there then
      if doChdir then
        match ← chdir t with
        | .error _ => pure true
        | .ok _ => makeDirs doChdir mode (d :: ds)
      else makeDirs doChdir mode (d :: ds)
    else pure true

/-- `make_path`, for a mode that lets the owner in. -/
def makePath (argpath : Path) (mode : ℕ) : Prog Bool := do
  match ← stat argpath with
  | .ok s =>
    if s.node.isDir then
      match ← chmod argpath mode with
      | .error _ => pure true
      | .ok _ => pure false
    else pure true
  | .error _ =>
    let dirs := dirPrefixes [] [] (stripTrailingSlashes argpath)
    match ← openCwd with
    | .error _ => makeDirs false mode dirs
    | .ok cwd =>
      let doChdir ← if isAbs argpath then do
          match ← chdir ['/'] with
          | .error _ => pure false
          | .ok _ => pure true
        else pure true
      let failed ← makeDirs doChdir mode dirs
      if doChdir then
        match ← fchdir cwd with
        | .error _ => pure true
        | .ok _ => pure failed
      else pure failed

/-! ## Options -/

/-- The options of the command line. -/
structure Flags where
  /-- `-D`. -/
  mkdirAndInstall : Bool
  /-- `-r`. -/
  recursive : Bool
  /-- `-p`. -/
  preserve : Bool
  /-- `-P`. -/
  noDereference : Bool
  /-- `-s`. -/
  strip : Bool
  /-- `-z`. -/
  gzip : Bool
  /-- `-m`, in octal. -/
  mode : Option ℕ
  /-- `INSTALL_SYSROOT`, if `-R` is given. -/
  sysroot : Option Path

/-- `cp_option_init`, and what the options change in it. -/
def Flags.cpOptions (f : Flags) : CpOptions where
  dereference := !f.noDereference
  recursive := f.recursive
  preserveTimestamps := f.preserve
  preserveChmodBits := f.preserve
  setMode := !f.preserve
  mode := 0o600
  umaskKill := if f.preserve then 0o775 else 0

/-- What the commands `strip` and `gzip` make of the content of a file, if they succeed on
the path they are given. -/
structure Tools where
  strip : Path → Bytes → Option Bytes
  gzip : Path → Bytes → Option Bytes

/-! ## Installing one file -/

variable (tools : Tools) (f : Flags) (depth : ℕ)

/-- The command `strip` on a path. -/
def stripCommand (path : Path) (w : World) : Option World :=
  match w.stat true path with
  | .ok ⟨p, ⟨.reg bytes _, m, a, _⟩⟩ =>
    (tools.strip path bytes).map fun b =>
      w.put p ⟨.reg b false, m, a, w.env.now⟩ (.write p)
  | _ => none

/-- `path.gz`. -/
def gzPath (path : Path) : Path := path ++ ['.', 'g', 'z']

/-- The command `gzip -9 -f` on a path : the compressed file takes the place of the other,
under its own name. -/
def gzipCommand (path : Path) (w : World) : Option World :=
  match w.stat true path with
  | .ok ⟨_, ⟨.reg bytes _, m, a, n⟩⟩ =>
    (tools.gzip path bytes).bind fun b =>
      let w₁ := match w.unlink (gzPath path) with
        | .ok (_, w') => w'
        | .error _ => w
      match w₁.openTrunc (gzPath path) m with
      | .error _ => none
      | .ok (q, w₂) =>
        match (w₂.put q ⟨.reg b false, m, a, n⟩ (.write q)).unlink path with
        | .error _ => none
        | .ok (_, w₃) => some w₃
  | _ => none

/-- `strip` and `gzip` of install.c : run a command on a path. That it cannot be started
ends the program, its own status is not looked at. -/
def runCommand (name : List Char) (command : World → Option World) (path : Path) : Prog Unit := do
  match ← spawn name path command with
  | .error _ => throw (.exit 1)
  | .ok _ => pure ()

def strip (path : Path) : Prog Unit :=
  runCommand ['s', 't', 'r', 'i', 'p'] (stripCommand tools path) path

def gzip (path : Path) : Prog Unit :=
  runCommand ['g', 'z', 'i', 'p'] (gzipCommand tools path) path

/-- `change_attributes`. -/
def changeAttributes (path : Path) : Prog Bool := do
  match ← chmod path (f.mode.getD 0o755) with
  | .error e => pure (e ≠ .noent)
  | .ok _ => pure false

/-- `change_timestamps`. -/
def changeTimestamps (src dst : Path) : Prog Bool := do
  match ← stat src with
  | .error _ => pure true
  | .ok stb =>
    match ← utime dst stb.node.atime stb.node.mtime with
    | .error _ => pure true
    | .ok _ => pure false

/-- `copy_file`. -/
def copyFile (src dst : Path) (h : HTab) : Prog (Bool × HTab) := do
  if !f.recursive && (← isdir src) then pure (true, h)
  else copy f.cpOptions depth src dst false h

/-- `install_file_in_file`. -/
def installFileInFile (src dst : Path) (h : HTab) : Prog (Bool × HTab) := do
  let (failed, h) ← copyFile f depth src dst h
  if failed then pure (true, h)
  else do
    if f.strip then strip tools dst
    if ← changeAttributes f dst then pure (true, h)
    else if f.preserve then do
      let failed ← changeTimestamps src dst
      pure (failed, h)
    else do
      if f.gzip then gzip tools dst
      pure (false, h)

/-- `install_file_in_dir`. -/
def installFileInDir (src toDir : Path) (h : HTab) : Prog (Bool × HTab) := do
  let failed ← if ← isdir toDir then pure false else makePath toDir 0o755
  if failed then pure (true, h)
  else installFileInFile tools f depth src (pathConcat toDir (baseName src)) h

/-- `install_file_to_path`. -/
def installFileToPath (src dst : Path) (h : HTab) : Prog (Bool × HTab) := do
  if dirname dst ≠ ['.'] && !(← isdir (dirname dst)) then
    installFileInDir tools f depth src (dirname dst) h
  else installFileInFile tools f depth src dst h

/-! ## main -/

/-- The loop of `main` over several source files. -/
def installFiles (toDir : Path) : List Path → HTab → Prog Bool
  | [], _ => pure false
  | src :: srcs, h => do
    let (failed, h) ← installFileInDir tools f depth src toDir h
    let failed' ← installFiles toDir srcs h
    pure (failed || failed')

/-- `to_sysroot` : the destination, below `INSTALL_SYSROOT`. -/
def Flags.toSysroot (dest : Path) : Path :=
  match f.sysroot with
  | some sysroot => pathConcat sysroot dest
  | none => dest

/-- `main`, with the file arguments. -/
def main (files : List Path) : Prog Bool := do
  match files with
  | [] => throw (.exit 1)
  | [_] => throw (.exit 1)
  | [src, dest] =>
    let dst := f.toSysroot dest
    if ← isdir dst then do
      let r ← installFileInDir tools f depth src dst []
      pure r.1
    else if f.mkdirAndInstall then do
      let r ← installFileToPath tools f depth src dst []
      pure r.1
    else do
      let r ← installFileInFile tools f depth src dst []
      pure r.1
  | src :: src' :: srcs =>
    let dst := f.toSysroot ((src' :: srcs).getLast (by simp))
    if ← isdir dst then installFiles tools f depth dst (src :: src' :: srcs).dropLast []
    else throw (.exit 1)

/-- The exit status of a program, unless its recursion was cut off. -/
def exitStatus (r : EStateM.Result Stop World Bool) : Option ℕ :=
  match r with
  | .ok failed _ => some (if failed then 1 else 0)
  | .error (.exit status) _ => some status
  | .error .outOfFuel _ => none

/-- A program ends with status 0, and leaves a world with a property. -/
def succeeds (r : EStateM.Result Stop World Bool) (P : World → Bool) : Bool :=
  match r with
  | .ok false w => P w
  | _ => false

theorem exists_of_succeeds {r : EStateM.Result Stop World Bool} {P : World → Bool}
    (h : succeeds r P) : ∃ w, r = .ok false w ∧ P w := by
  match r, h with
  | .ok false w, h => exact ⟨w, rfl, h⟩

end Makeroot
