import Makeroot.Commands

/-!
# install.mk : items

An item is a target of `install-y` or `pre-install-y`, with variables that say what it is to
be : a directory, a copy, a link, a file that is touched or moved there. GNU make expands the
whole recipe before the first of its lines is run, so every `wildcard` sees the file system
as it was ; `cmdInstall` is that expansion for one tree, and `itemRecipe` for both.
-/

namespace Makeroot

open Posix GnuMake

/-! ## Lines -/

/-- A line of a recipe of install.mk. -/
inductive Command
  | mkdirP (path : Path)
  | cp (src dst : Path)
  | cpP (src dst : Path)
  | mv (src dst : Path)
  /-- `cd dir && ln -sf text t`. -/
  | ln (dir text t : Path)
  | touch (t : Path)
  /-- `cd dir && chmod mode t`. -/
  | chmod (dir : Path) (mode : ℕ) (t : Path)
deriving DecidableEq

/-- `cd dir && …`. -/
def inDir (dir : Path) (m : Prog Bool) : Prog Bool := do
  match ← chdir dir with
  | .error _ => pure true
  | .ok _ => m

def Command.run : Command → Prog Bool
  | .mkdirP path => Makeroot.mkdirP path
  | .cp src dst => Makeroot.cp src dst
  | .cpP src dst => Makeroot.cpP src dst
  | .mv src dst => Makeroot.mv src dst
  | .ln dir text t => inDir dir (lnSf text t)
  | .touch t => fun w => Makeroot.touch t w.env.now w
  | .chmod dir mode t => inDir dir (chmodCommand mode t)

/-- The lines of a recipe, up to the first that fails. -/
def runCommands : List Command → Prog Bool
  | [] => pure false
  | c :: cs => do
    if ← inShell c.run then pure true else runCommands cs

/-! ## Expansion -/

/-- Whether `$(wildcard t)` finds `t`, which has no pattern in it. A slash at the end marks
directories, so that it makes no difference here. -/
def World.wildcard (w : World) (t : Path) : Bool :=
  match w.stat false (stripTrailingSlashes t) with
  | .ok _ => true
  | .error _ => false

/-- `$(dir t)`. -/
def dirPart (t : Text) : Text :=
  if '/' ∈ t then (t.reverse.dropWhile (· ≠ '/')).reverse else ['.', '/']

/-- `$(wildcard t*)`. A dot at the beginning of a name is found by a dot only. -/
def World.wildcardStar (w : World) (t : Path) : List Path :=
  match w.stat true (dirPart t) with
  | .ok s =>
    if s.node.isDir then
      ((w.fs.names s.ino).filter fun n => baseName t <+: n.val ∧
        (n.val.head? = some '.' → baseName t ≠ [])).map fun n =>
          (if '/' ∈ t then dirPart t else []) ++ n.val
    else []
  | .error _ => []

section Expansion

variable (srctree : Path) (w : World)

/-- The directory `two/`, where something is to be copied to. -/
def copydirInto (two : Path) : List Command :=
  if World.wildcard w (dirPart (two ++ ['/'])) then [] else [.mkdirP (dirPart (two ++ ['/']))]

/-- `$(call copydir,one,two)`. It is called with no third argument, so that nothing is
stripped. -/
def copydir : ℕ → Path → Path → Option (List Command)
  | 0, _, _ => none
  | fuel + 1, one, two => do
    let parts ← (World.wildcardStar w one).mapM fun d => do
      let below ← copydir fuel (d ++ ['/']) (two ++ '/' :: baseName d)
      -- `$(wildcard d/)` has a slash at its end if `d` is a directory
      pure (copydirInto w two ++ below ++
        if World.wildcard w d && !World.isdir w d then [.cpP d (two ++ ['/'])] else [])
    pure (parts.flatten ++
      if World.isdir w (one ++ lit "/.") &&
        !World.wildcard w (dirPart (two ++ ['/']) ++ baseName one)
      then [.mkdirP (dirPart (two ++ ['/']) ++ baseName one)] else [])

end Expansion

/-- A target of `install-y` or `pre-install-y` with its variables, which are empty if they are
not set. -/
structure Item where
  target : Text
  dir : Text
  copy : Text
  move : Text
  link : Text
  touch : Text
  generate : Text
  chmod : Option ℕ
  installSysroot : Text

/-- Where the items come from and where they go. -/
structure Trees where
  srctree : Path
  rootfs : Path
  sysroot : Path

/-- `install-dest`. -/
def Trees.dest (T : Trees) : Tree → Path
  | .sysroot => T.sysroot
  | .rootfs => T.rootfs

/-- `$(join $(install-dest)/,$(install-target))`. -/
def Item.path (i : Item) (dest : Path) : Path := dest ++ '/' :: i.target

/-- `$(findstring y,x)`. -/
def hasY (x : Text) : Bool := findstring ['y'] x ≠ []

section Recipe

variable (fuel : ℕ) (T : Trees) (i : Item) (w : World)

/-- A source that is there under its own name, or else is one of the source tree. -/
def sourceOf (src : Text) : Path :=
  if World.wildcard w src then src else T.srctree ++ '/' :: src

/-- `cmd_mkdir`, for the item. -/
def cmdMkdir (dest : Path) : List Command :=
  if World.wildcard w (i.path dest) then [] else [.mkdirP (i.path dest)]

/-- The part of `cmd_install` for `dir`. -/
def cmdDir (dest : Path) : Option (List Command) :=
  if i.dir = [] then some []
  else if hasY i.dir then some (cmdMkdir i w dest)
  else copydir w fuel (T.srctree ++ '/' :: i.dir) (dirPart (i.path dest ++ [',']))

/-- The directory that the item goes to. -/
def cmdParent (dest : Path) : List Command :=
  if World.wildcard w (dirPart (i.path dest)) then [] else [.mkdirP (dirPart (i.path dest))]

/-- The lines of `cmd_install` that put something in place. -/
def cmdContent (dest : Path) : List Command :=
  (if i.copy = [] then [] else [.cp (sourceOf T w i.copy) (i.path dest)]) ++
  (if i.move = [] then [] else [.mv (sourceOf T w i.move) (i.path dest)]) ++
  (if i.link = [] then [] else [.ln dest i.link i.target]) ++
  (if hasY i.touch then [.touch (i.path dest)] else []) ++
  (if i.generate = [] then [] else [.mv i.generate (i.path dest)]) ++
  match i.chmod with
  | none => []
  | some mode => [.chmod dest mode i.target]

/-- `cmd_install`. -/
def cmdInstall (dest : Path) : Option (List Command) :=
  (cmdDir fuel T i w dest).map fun dirs => dirs ++ cmdParent i w dest ++ cmdContent T i w dest

/-- The lists an item may be on. -/
inductive ItemKind
  | install
  | preInstall
deriving DecidableEq

/-- Whether the item is installed to `rootfs`. An empty text is found in no text. -/
def installsRootfs (kind : ItemKind) (force : Text) : Bool :=
  match kind with
  | .install =>
    findstring [] (if World.wildcard w (i.path T.rootfs) then i.path T.rootfs else []) ≠ [] ||
      hasY force
  | .preInstall => !(World.wildcard w (i.path T.rootfs) && findstring ['n'] force ≠ [])

/-- The recipe of an item. -/
def itemRecipe (kind : ItemKind) (force : Text) : Option (List Command) := do
  let rootfs ← if installsRootfs T i w kind force then cmdInstall fuel T i w T.rootfs else some []
  let sysroot ← if hasY i.installSysroot then cmdInstall fuel T i w T.sysroot else some []
  pure (rootfs ++ sysroot)

/-- The rule of an item. -/
def installItem (kind : ItemKind) (force : Text) : Prog Bool := fun w =>
  match itemRecipe fuel T i w kind force with
  | some cs => runCommands cs w
  | none => .error .outOfFuel w

end Recipe

end Makeroot
