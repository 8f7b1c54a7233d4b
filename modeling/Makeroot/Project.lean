import Makeroot.MakeText
import Makeroot.Recipe

/-!
# The package pipeline of scripts/project.mk

`make p` for a sub-project `p` goes through configure-project, build-project for each
target and install-project if the package directory is missing when the makefile is
read, and through post-install-project always. Each goal is a recipe in a make of its
own ; a line that fails stops them all, and the next run starts from the directories
this one left.

A package directory is seen through four facts : whether its install command has
completed, whether its `.post-install` marker was touched, whether the marker is there,
and which subtree copies have completed since the touch. The first, second and fourth
are not in the file system ; they say what the directory is worth.

The existence of the directory is all a later run looks at. `installed_of_ok` : a run
that succeeds leaves a complete package, if no run was stopped between the line that
made the directory and the end of the install command. `not_installed_interrupted` is a
run that was. The marker is the safer record : `published_of_touched` says that a
package once installed is published, or still waits for it, in every state.
-/

namespace Makeroot

open GnuMake

/-! ## Variables -/

/-- The two trees a package is published to. -/
inductive Tree
  | sysroot
  | rootfs
deriving DecidableEq

/-- Variables of the whole build. -/
structure Globals where
  packagesdir : Text
  /-- `SYSTEM`, where the target system keeps its programs. -/
  system : Text
  configdir : Text
  /-- Whether `quiet` is set, so that each recipe begins with its `echo`. -/
  quiet : Bool

/-- The variables of a sub-project, `$(sprj)-version` and the others. -/
structure SubProject where
  version : Text
  config : Text
  mkconfig : Text
  defconfig : Text
  targets : Text
  build : Text
  mkbuild : Text
  install : Text
  mkinstall : Text

/-- `sprj-destdir` : a version from git, hg or cvs, or none, is not in the name. -/
def sprjDestdir (G : Globals) (sprj version : Text) : Text :=
  G.packagesdir ++ '/' ::
    if filterOut [lit "git", lit "hg", lit "cvs"] version = [] then sprj
    else sprj ++ '-' :: version

/-- `sprj-targets`. -/
def sprjTargets (p : SubProject) : List Text :=
  if p.targets = [] then [lit "all"] else words p.targets

/-- A subtree of the package directory that is published : `install-target` of one of
the loops of cmd_post-install-project, with the tree it goes to. -/
structure SubtreeCopy where
  tree : Tree
  target : Text
deriving DecidableEq

/-- The subtrees cmd_post-install-project copies to `sysroot`. -/
def sysrootTargets (G : Globals) : List Text :=
  [lit "lib/", G.system ++ lit "/lib/", G.system ++ lit "/include/"]

/-- The subtrees it copies to `rootfs`. The last three are in a loop of their own, and
two of them have no slash at the end. -/
def rootfsTargets (G : Globals) (sprj : Text) : List Text :=
  [lit "lib/", lit "bin/", lit "sbin/", G.system ++ lit "/lib/", G.system ++ lit "/bin/",
    G.system ++ lit "/sbin/", G.system ++ lit "/libexec/", G.system ++ lit "/share/locale",
    G.system ++ lit "/share/" ++ sprj, G.configdir ++ lit "/"]

/-- The copies of cmd_post-install-project, in order. -/
def subtreeCopies (G : Globals) (sprj : Text) : List SubtreeCopy :=
  (sysrootTargets G).map (.mk .sysroot) ++ (rootfsTargets G sprj).map (.mk .rootfs)

/-! ## Package directories -/

/-- What a package directory is worth. -/
structure Package where
  /-- The install command has run to completion. -/
  installed : Bool
  /-- `.post-install` has been touched. -/
  touched : Bool
  /-- `.post-install` exists. -/
  postInstall : Bool
  /-- The subtree copies completed since the touch. -/
  published : List SubtreeCopy
deriving DecidableEq

/-- A directory something made before the install command. -/
def Package.bare : Package := ⟨false, false, false, []⟩

/-- The package directories that exist, by their paths. -/
abbrev Packages := Text → Option Package

/-- No package has been made yet. -/
def noPackages : Packages := fun _ => none

namespace Packages

/-- Write to the package directory `d`, which is made if it is not there. -/
def write (s : Packages) (d : Text) (f : Package → Package) : Packages :=
  Function.update s d (some (f ((s d).getD .bare)))

/-- Write to the package directory `d` if it is there. -/
def modify (s : Packages) (d : Text) (f : Package → Package) : Packages :=
  Function.update s d ((s d).map f)

@[simp] theorem write_self (s : Packages) (d : Text) (f : Package → Package) :
    s.write d f d = some (f ((s d).getD .bare)) := Function.update_self ..

@[simp] theorem modify_self (s : Packages) (d : Text) (f : Package → Package) :
    s.modify d f d = (s d).map f := Function.update_self ..

theorem write_of_ne {s : Packages} {d d' : Text} (f : Package → Package) (h : d' ≠ d) :
    s.write d f d' = s d' := Function.update_of_ne h ..

theorem modify_of_ne {s : Packages} {d d' : Text} (f : Package → Package) (h : d' ≠ d) :
    s.modify d f d' = s d' := Function.update_of_ne h ..

end Packages

/-! ## The recipes -/

/-- Files whose existence the recipes ask for, besides the package directory. -/
inductive SrcFile
  | builddir
  | configure
  | configureAc
  /-- `Makefile` in the build directory. -/
  | builddirMakefile
  /-- `Makefile` in the source directory. -/
  | srcMakefile
  | androidMk
deriving DecidableEq

/-- The goals of the pipeline that look at the source, each in a make of its own. -/
inductive Goal
  | configure
  | build (target : Text)
  | install
deriving DecidableEq

/-- How a goal is carried out : by the command or the makefile of the sub-project, or by
what its source brings along. -/
inductive How
  | command
  | mkfile
  | defconfig
  | script
  | autoreconf
  | builddirMakefile
  | srcMakefile
  | androidMk
deriving DecidableEq

/-- The lines of the recipes. -/
inductive Cmd
  | echo
  | mkdirBuilddir
  | configure (h : How)
  | build (target : Text) (h : How)
  /-- The `echo ... && exit 1` of a sub-project with no way to carry out a goal. -/
  | notFound
  | mkdirDestdir
  | install (h : How)
  /-- `touch $(sprj-destdir)/.post-install`. -/
  | touch
  | copy (c : SubtreeCopy)
  /-- `rm $(sprj-destdir)/.post-install`. -/
  | rm
deriving DecidableEq

variable (G : Globals)

/-- `multicmd`. -/
def multicmd (cmds : List Cmd) : List Cmd :=
  (if G.quiet then [.echo] else []) ++ cmds

/-- `cmd_configure-project`. -/
def cmdConfigureProject (p : SubProject) (found : SrcFile → Bool) : List Cmd :=
  (if found .builddir then [] else [.mkdirBuilddir]) ++
  if p.config ≠ [] then [.configure .command]
  else if p.mkconfig ≠ [] then [.configure .mkfile]
  else if p.defconfig ≠ [] then [.configure .defconfig]
  else if found .configure then [.configure .script]
  else if found .configureAc then [.configure .autoreconf, .configure .script]
  else [.notFound]

/-- `cmd_build-project`. -/
def cmdBuildProject (p : SubProject) (target : Text) (found : SrcFile → Bool) : List Cmd :=
  if p.build ≠ [] then [.build target .command]
  else if p.mkbuild ≠ [] then [.build target .mkfile]
  else if found .builddirMakefile then [.build target .builddirMakefile]
  else if found .srcMakefile then [.build target .srcMakefile]
  else if found .androidMk then [.build target .androidMk]
  else [.notFound]

/-- `cmd_install-project`, where `there` says whether the package directory exists. -/
def cmdInstallProject (p : SubProject) (found : SrcFile → Bool) (there : Bool) : List Cmd :=
  (if there then [] else [.mkdirDestdir]) ++
  if p.install ≠ [] then [.install .command]
  else if p.mkinstall ≠ [] then [.install .mkfile]
  else if found .builddirMakefile then [.install .builddirMakefile]
  else if found .srcMakefile then [.install .srcMakefile]
  else [.notFound]

/-- `cmd_post-install-project`. -/
def cmdPostInstallProject (sprj : Text) : List Cmd := (subtreeCopies G sprj).map .copy

/-- The goals `configure-project` and `build-project`, and `install-project` up to its
touch. They ask for the package directory and for nothing in it. -/
def untilInstalled (p : SubProject) (found : Goal → SrcFile → Bool) : List (Bool → List Cmd) :=
  (fun _ => multicmd G (cmdConfigureProject p (found .configure))) ::
    (sprjTargets p).map (fun t _ => multicmd G (cmdBuildProject p t (found (.build t)))) ++
    [fun there => multicmd G (cmdInstallProject p (found .install) there)]

/-! ## What the lines do -/

/-- What a run does not decide about a line : whether it succeeds, and, if it is not
bound to do or to leave something, whether its work has taken effect. -/
structure Event where
  ok : Bool
  effect : Bool
deriving DecidableEq

/-- A line with the package directory `d`. A command of the sub-project that configures
or builds may make the directory ; a line that fails may have done its work. -/
def Cmd.line (d : Text) : Cmd → Line Packages Event
  | .echo, e, s => (s, e.ok)
  | .mkdirBuilddir, e, s => (s, e.ok)
  | .configure _, e, s => (if e.effect then s.write d id else s, e.ok)
  | .build _ _, e, s => (if e.effect then s.write d id else s, e.ok)
  | .notFound, _, s => (s, false)
  | .mkdirDestdir, e, s => (if e.ok || e.effect then s.write d id else s, e.ok)
  | .install _, e, s =>
    (if e.ok || e.effect then
      s.write d fun k => { k with installed := k.installed || e.ok } else s, e.ok)
  | .touch, e, s =>
    (if e.ok || e.effect then
      s.write d fun k => { k with touched := true, postInstall := true, published := [] }
    else s, e.ok)
  | .copy c, e, s =>
    (if e.ok then s.modify d fun k => { k with published := c :: k.published } else s, e.ok)
  | .rm, e, s =>
    (if e.ok || e.effect then s.modify d fun k => { k with postInstall := false } else s, e.ok)

/-- A line as far as the existence of the package directory goes. -/
def Cmd.onDir : Cmd → Line Bool Event
  | .configure _, e, there => (there || e.effect, e.ok)
  | .build _ _, e, there => (there || e.effect, e.ok)
  | .notFound, _, there => (there, false)
  | .mkdirDestdir, e, there => (there || (e.ok || e.effect), e.ok)
  | .install _, e, there => (there || (e.ok || e.effect), e.ok)
  | .touch, e, there => (there || (e.ok || e.effect), e.ok)
  | .echo, e, there => (there, e.ok)
  | .mkdirBuilddir, e, there => (there, e.ok)
  | .copy _, e, there => (there, e.ok)
  | .rm, e, there => (there, e.ok)

/-! ## Runs -/

/-- A run of `make $(sprj)` : the variables it reads, what its makes find in the source,
and the events of its lines. -/
structure Run where
  project : SubProject
  found : Goal → SrcFile → Bool
  events : List Event

/-- `sprj-destdir` of a run. -/
def Run.destdir (sprj : Text) (r : Run) : Text := sprjDestdir G sprj r.project.version

/-- The recipe of `install-project` and those it needs. -/
def installProject (sprj : Text) (r : Run) : List (Recipe Packages Event) :=
  let d := r.destdir G sprj
  (untilInstalled G r.project r.found).map (fun cmds s => (cmds (s d).isSome).map (Cmd.line d)) ++
    [fun _ => [Cmd.line d .touch]]

/-- The lines of `cmd_post-install-project`, for the package directory `d`. -/
def copyLines (sprj d : Text) : List (Line Packages Event) :=
  (multicmd G (cmdPostInstallProject G sprj)).map (Cmd.line d)

/-- The recipe of `post-install-project` : both its lines ask for the marker before any
of them runs. -/
def postInstallProject (sprj : Text) (r : Run) : Recipe Packages Event := fun s =>
  if (s (r.destdir G sprj)).any (·.postInstall) then
    copyLines G sprj (r.destdir G sprj) ++ [Cmd.line (r.destdir G sprj) .rm]
  else []

/-- `make $(sprj)`. -/
def makeRun (sprj : Text) (r : Run) (s : Packages) : Outcome Packages Event :=
  runRecipes ((if (s (r.destdir G sprj)).isSome then [] else installProject G sprj r) ++
    [postInstallProject G sprj r]) r.events s

/-- The package directories after runs of `make $(sprj)`. -/
def afterRuns (sprj : Text) : List Run → Packages → Packages
  | [], s => s
  | r :: rs, s => afterRuns sprj rs (makeRun G sprj r s).state

/-- The lines of the run up to the install command, started without a package directory,
stop early and leave one. -/
def Run.abandons (r : Run) : Bool :=
  let o := runRecipes ((untilInstalled G r.project r.found).map
    fun cmds there => (cmds there).map Cmd.onDir) r.events false
  !o.ok && o.state

/-- No run that starts without its package directory is abandoned. -/
def NoneAbandoned (sprj : Text) : List Run → Packages → Prop
  | [], _ => True
  | r :: rs, s =>
    (s (r.destdir G sprj) = none → r.abandons G = false) ∧
      NoneAbandoned sprj rs (makeRun G sprj r s).state

instance decidableNoneAbandoned (sprj : Text) : ∀ rs s, Decidable (NoneAbandoned G sprj rs s)
  | [], _ => isTrue trivial
  | r :: rs, s =>
    have := decidableNoneAbandoned sprj rs (makeRun G sprj r s).state
    inferInstanceAs (Decidable ((s (r.destdir G sprj) = none → r.abandons G = false) ∧
      NoneAbandoned G sprj rs (makeRun G sprj r s).state))

/-! ## What a run keeps -/

section Keeps

variable {G} {sprj : Text} {r : Run}

theorem rm_not_mem_untilInstalled {p : SubProject} {found : Goal → SrcFile → Bool}
    {cmds : Bool → List Cmd} (h : cmds ∈ untilInstalled G p found) (there : Bool) :
    Cmd.rm ∉ cmds there := by
  simp only [untilInstalled, List.cons_append, List.mem_cons, List.mem_append, List.mem_map,
    List.not_mem_nil, or_false] at h
  rcases h with rfl | ⟨t, -, rfl⟩ | rfl
  · unfold multicmd cmdConfigureProject
    split_ifs <;> simp
  · unfold multicmd cmdBuildProject
    split_ifs <;> simp
  · unfold multicmd cmdInstallProject
    split_ifs <;> simp

/-- What the lines other than the removal of the marker keep, and post-install-project as
a whole, a run keeps, wherever it stops. -/
theorem makeRun_inv_of_post {I : Packages → Prop} {s : Packages}
    (h : ∀ c e s, c ≠ .rm → I s → I (Cmd.line (r.destdir G sprj) c e s).1)
    (hpost : ∀ es s, I s → I (runLines (postInstallProject G sprj r s) es s).state) (hs : I s) :
    I (makeRun G sprj r s).state := by
  have hlines : ∀ cmds : List Cmd, .rm ∉ cmds → ∀ es s, I s →
      I (runLines (cmds.map (Cmd.line (r.destdir G sprj))) es s).state := by
    intro cmds hrm es s hs
    refine runLines_inv (fun l hl e t ht => ?_) es hs
    obtain ⟨c, hc, rfl⟩ := List.mem_map.mp hl
    exact h c e t (fun hcr => hrm (hcr ▸ hc)) ht
  refine runRecipes_inv (fun rec hrec es t ht => ?_) _ hs
  rcases List.mem_append.mp hrec with hrec | hrec
  · split_ifs at hrec
    · simp at hrec
    · rcases List.mem_append.mp hrec with hrec | hrec
      · obtain ⟨cmds, hc, rfl⟩ := List.mem_map.mp hrec
        exact hlines _ (rm_not_mem_untilInstalled hc _) es t ht
      · rw [List.mem_singleton.mp hrec]
        exact hlines [.touch] (by simp) es t ht
  · rw [List.mem_singleton.mp hrec]
    exact hpost es t ht

/-- What all lines keep, a run keeps. -/
theorem makeRun_inv {I : Packages → Prop} {s : Packages}
    (h : ∀ c e s, I s → I (Cmd.line (r.destdir G sprj) c e s).1) (hs : I s) :
    I (makeRun G sprj r s).state := by
  refine makeRun_inv_of_post (fun c e s _ => h c e s) (fun es s hs => ?_) hs
  refine runLines_inv (fun l hl e t ht => ?_) es hs
  unfold postInstallProject at hl
  split_ifs at hl
  · rcases List.mem_append.mp hl with hl | hl
    · obtain ⟨c, -, rfl⟩ := List.mem_map.mp hl
      exact h c e t ht
    · exact List.mem_singleton.mp hl ▸ h .rm e t ht
  · simp at hl

/-- A line writes to no other package. -/
theorem line_of_ne {d d' : Text} (h : d' ≠ d) (c : Cmd) (e : Event) (s : Packages) :
    (Cmd.line d c e s).1 d' = s d' := by
  cases c <;> simp only [Cmd.line] <;> (try split_ifs) <;>
    simp [Packages.write_of_ne, Packages.modify_of_ne, h]

theorem makeRun_of_ne {d : Text} (h : d ≠ r.destdir G sprj) (s : Packages) :
    (makeRun G sprj r s).state d = s d :=
  makeRun_inv (I := fun t => t d = s d)
    (fun c e t ht => (line_of_ne h c e t).trans ht) rfl

end Keeps

/-! ## Installed packages -/

/-- The package directory is there, and the install command has completed in it. -/
def Installed (s : Packages) (d : Text) : Prop := ∃ k, s d = some k ∧ k.installed

instance (s : Packages) (d : Text) : Decidable (Installed s d) :=
  decidable_of_iff ((s d).any (·.installed)) (by simp [Installed, Option.any_eq_true])

/-- Every package directory is that of an installed package. -/
def AllInstalled (s : Packages) : Prop := ∀ d, s d = none ∨ Installed s d

section Installed

variable {G} {sprj : Text} {r : Run}

/-- No line takes an installed package back. -/
theorem installed_line {d : Text} (c : Cmd) (e : Event) {s : Packages} (h : Installed s d) :
    Installed (Cmd.line d c e s).1 d := by
  obtain ⟨k, hk, hi⟩ := h
  cases c <;> simp only [Cmd.line] <;> (try split_ifs) <;>
    simp [Installed, Packages.write_self, Packages.modify_self, hk, hi]

/-- The recipe of install-project has the install command in it, or no way to succeed. -/
theorem install_mem_cmdInstallProject (p : SubProject) (found : SrcFile → Bool) (there : Bool) :
    (∃ h, Cmd.install h ∈ cmdInstallProject p found there) ∨
      Cmd.notFound ∈ cmdInstallProject p found there := by
  unfold cmdInstallProject
  by_cases hi : p.install ≠ []
  · exact .inl ⟨.command, by simp [hi]⟩
  by_cases hm : p.mkinstall ≠ []
  · exact .inl ⟨.mkfile, by simp [hi, hm]⟩
  by_cases hb : found .builddirMakefile
  · exact .inl ⟨.builddirMakefile, by simp [hi, hm, hb]⟩
  by_cases hs : found .srcMakefile
  · exact .inl ⟨.srcMakefile, by simp [hi, hm, hb, hs]⟩
  · exact .inr (by simp [hi, hm, hb, hs])

/-- What is true of the package once a command has succeeded. -/
def Cmd.Done (d : Text) : Cmd → Packages → Prop
  | .install _, s => Installed s d
  | .notFound, _ => False
  | _, _ => True

theorem runLines_installProject {d : Text} {p : SubProject} {found : SrcFile → Bool}
    {there : Bool} {es : List Event} {s : Packages}
    (h : (runLines ((multicmd G (cmdInstallProject p found there)).map (Cmd.line d)) es s).ok) :
    Installed
      (runLines ((multicmd G (cmdInstallProject p found there)).map (Cmd.line d)) es s).state d := by
  have hall := runLines_all (Q := Cmd.Done d) (fun c _ e s hc => ?_) (fun c _ c' _ e s hc => ?_) h
  · rcases install_mem_cmdInstallProject p found there with ⟨w, hw⟩ | hn
    · exact hall (.install w) (List.mem_append_right _ hw)
    · exact (hall .notFound (List.mem_append_right _ hn)).elim
  · cases c with
    | install w =>
      have he : e.ok = true := hc
      simp [Cmd.Done, Installed, Cmd.line, he]
    | notFound => exact absurd hc (by simp [Cmd.line])
    | _ => trivial
  · cases c with
    | install w => exact installed_line c' e hc
    | notFound => exact hc
    | _ => trivial

/-- A run through the recipes up to the install command, with its lines. -/
def runUntilInstalled (G : Globals) (sprj : Text) (r : Run) (s : Packages) :
    Outcome Packages Event :=
  runRecipes ((untilInstalled G r.project r.found).map
    fun cmds s => (cmds (s (r.destdir G sprj)).isSome).map (Cmd.line (r.destdir G sprj))) r.events s

theorem runUntilInstalled_ok {s : Packages} (h : (runUntilInstalled G sprj r s).ok) :
    Installed (runUntilInstalled G sprj r s).state (r.destdir G sprj) := by
  unfold runUntilInstalled untilInstalled at h ⊢
  rw [List.map_append, runRecipes_append] at h ⊢
  obtain ⟨h₁, h₂⟩ := andThen_ok h
  rw [andThen_of_ok h₁]
  rw [List.map_singleton, runRecipes_cons] at h₂ ⊢
  obtain ⟨h₃, -⟩ := andThen_ok h₂
  rw [andThen_of_ok h₃]
  exact runLines_installProject h₃

/-- `Cmd.onDir` is what the lines do to the existence of the package directory. -/
theorem onDir_line (d : Text) (c : Cmd) (e : Event) (s : Packages) :
    c.onDir e (s d).isSome = (((c.line d e s).1 d).isSome, (c.line d e s).2) := by
  cases c <;> simp only [Cmd.onDir, Cmd.line] <;> (try split_ifs) <;> simp_all

/-- A run that starts without the package directory and is not abandoned either completes
the install command or leaves no directory. -/
theorem runUntilInstalled_of_none {s : Packages} (hs : s (r.destdir G sprj) = none)
    (ha : r.abandons G = false) (hok : (runUntilInstalled G sprj r s).ok = false) :
    (runUntilInstalled G sprj r s).state (r.destdir G sprj) = none := by
  have hsim := runRecipes_sim (f := fun t : Packages => (t (r.destdir G sprj)).isSome)
    (onDir_line (r.destdir G sprj)) (untilInstalled G r.project r.found) r.events s
  simp only [hs, Option.isSome_none] at hsim
  unfold Run.abandons at ha
  simp only [hsim] at ha
  unfold runUntilInstalled at hok ⊢
  simpa [Outcome.map, hok] using ha

/-- A run that starts without the package directory, as its two parts. -/
theorem makeRun_of_none {s : Packages} (hs : s (r.destdir G sprj) = none) :
    makeRun G sprj r s = (runUntilInstalled G sprj r s).andThen
      (runRecipes [fun _ => [Cmd.line (r.destdir G sprj) .touch], postInstallProject G sprj r]) := by
  rw [makeRun, hs, runUntilInstalled, ← runRecipes_append]
  simp [installProject]

theorem installed_makeRun {d : Text} {s : Packages} (h : Installed s d) :
    Installed (makeRun G sprj r s).state d := by
  refine makeRun_inv (I := fun t => Installed t d) (fun c e t ht => ?_) h
  by_cases hd : d = r.destdir G sprj
  · exact hd ▸ installed_line c e (hd ▸ ht)
  · obtain ⟨k, hk, hi⟩ := ht
    exact ⟨k, (line_of_ne hd c e t).trans hk, hi⟩

/-- The lines after the install command keep the package. -/
theorem installed_after {o : Outcome Packages Event} (hok : o.ok)
    (h : Installed o.state (r.destdir G sprj)) :
    Installed (o.andThen (runRecipes [fun _ => [Cmd.line (r.destdir G sprj) .touch],
      postInstallProject G sprj r])).state (r.destdir G sprj) := by
  rw [andThen_of_ok hok]
  refine runRecipes_inv (I := (Installed · _)) (fun rec hrec es t ht => ?_) _ h
  have hlines : ∀ cmds : List Cmd, Installed
      (runLines (cmds.map (Cmd.line (r.destdir G sprj))) es t).state (r.destdir G sprj) := by
    intro cmds
    refine runLines_inv (I := (Installed · _)) (fun l hl e u hu => ?_) es ht
    obtain ⟨c, -, rfl⟩ := List.mem_map.mp hl
    exact installed_line c e hu
  rcases List.mem_pair.mp hrec with rfl | rfl
  · exact hlines [.touch]
  · rw [postInstallProject, copyLines]
    split_ifs
    · have h := hlines (multicmd G (cmdPostInstallProject G sprj) ++ [.rm])
      rwa [List.map_append] at h
    · exact ht

/-- A run that is not abandoned leaves every package directory that of an installed
package. -/
theorem allInstalled_makeRun {s : Packages} (hs : AllInstalled s)
    (ha : s (r.destdir G sprj) = none → r.abandons G = false) :
    AllInstalled (makeRun G sprj r s).state := by
  intro d
  by_cases hd : d = r.destdir G sprj
  · subst hd
    rcases hs (r.destdir G sprj) with hn | hi
    · rw [makeRun_of_none hn]
      by_cases hok : (runUntilInstalled G sprj r s).ok
      · exact .inr (installed_after hok (runUntilInstalled_ok hok))
      · rw [Bool.not_eq_true] at hok
        rw [andThen_of_not_ok hok]
        exact .inl (runUntilInstalled_of_none hn (ha hn) hok)
    · exact .inr (installed_makeRun hi)
  · rw [Installed, makeRun_of_ne hd]
    exact hs d

/-- A run that succeeds from there leaves its own package installed. -/
theorem installed_makeRun_of_ok {s : Packages} (hs : AllInstalled s)
    (hok : (makeRun G sprj r s).ok) :
    Installed (makeRun G sprj r s).state (r.destdir G sprj) := by
  rcases hs (r.destdir G sprj) with hn | hi
  · rw [makeRun_of_none hn] at hok ⊢
    exact installed_after (andThen_ok hok).1 (runUntilInstalled_ok (andThen_ok hok).1)
  · exact installed_makeRun hi

theorem allInstalled_afterRuns {rs : List Run} {s : Packages} (hs : AllInstalled s)
    (ha : NoneAbandoned G sprj rs s) : AllInstalled (afterRuns G sprj rs s) := by
  induction rs generalizing s with
  | nil => exact hs
  | cons r rs ih => exact ih (allInstalled_makeRun hs ha.1) ha.2

/-- A run that succeeds, after any runs none of which was abandoned, leaves the package
directory with the install command completed. -/
theorem installed_of_ok {rs : List Run} {r : Run} (ha : NoneAbandoned G sprj rs noPackages)
    (hok : (makeRun G sprj r (afterRuns G sprj rs noPackages)).ok) :
    Installed (makeRun G sprj r (afterRuns G sprj rs noPackages)).state (r.destdir G sprj) :=
  installed_makeRun_of_ok (allInstalled_afterRuns (fun _ => .inl rfl) ha) hok

/-- The sub-project of test/Makefile, built to the usual places. -/
def testGlobals : Globals := ⟨lit "packages", lit "usr", lit "etc", false⟩

def testProject : SubProject where
  version := []
  config := lit "echo test configuration"
  mkconfig := []
  defconfig := []
  targets := lit "toto tutu"
  build := []
  mkbuild := []
  install := []
  mkinstall := []

/-- A run in which every file is found, with events `ok` or not. -/
def testRun (oks : List Bool) : Run := ⟨testProject, fun _ _ => true, oks.map (⟨·, false⟩)⟩

theorem installed_of_ok_testRun :
    Installed (makeRun testGlobals (lit "test") (testRun []) (afterRuns testGlobals (lit "test")
      [testRun [true, false], testRun (List.replicate 20 true)] noPackages)).state
        ((testRun []).destdir testGlobals (lit "test")) :=
  installed_of_ok (by decide +kernel) (by decide +kernel)

/-- A run that dies in the install command leaves the directory `mkdir` made, and the next
run takes it for a finished package. -/
theorem not_installed_interrupted :
    ¬∀ (G : Globals) (sprj : Text) (rs : List Run) (r : Run),
      (makeRun G sprj r (afterRuns G sprj rs noPackages)).ok →
        Installed (makeRun G sprj r (afterRuns G sprj rs noPackages)).state
          (r.destdir G sprj) := fun h =>
  absurd (h testGlobals (lit "test") [testRun [true, true, true, true, false]] (testRun [])
    (by decide +kernel)) (by decide +kernel)

end Installed

/-! ## Published packages -/

/-- Every subtree copy has completed since the marker was touched. -/
def Package.AllPublished (sprj : Text) (k : Package) : Prop :=
  ∀ c ∈ subtreeCopies G sprj, c ∈ k.published

/-- A package whose marker was touched is published, or still has its marker. -/
def Package.Awaited (sprj : Text) (k : Package) : Prop :=
  k.touched → k.postInstall ∨ k.AllPublished G sprj

def AllAwaited (sprj : Text) (s : Packages) : Prop :=
  ∀ d k, s d = some k → k.Awaited G sprj

section Published

variable {G} {sprj : Text} {r : Run}

theorem allAwaited_write {s : Packages} {d : Text} {f : Package → Package}
    (hs : AllAwaited G sprj s) (hf : ∀ k, k.Awaited G sprj → (f k).Awaited G sprj) :
    AllAwaited G sprj (s.write d f) := by
  intro d' k hk
  by_cases hd : d' = d
  · subst hd
    rw [Packages.write_self, Option.some.injEq] at hk
    subst hk
    cases hsd : s d' with
    | none => exact hf _ (fun h => absurd h (by simp [Package.bare]))
    | some k => exact hf _ (hs d' k hsd)
  · exact hs d' k (by rwa [Packages.write_of_ne f hd] at hk)

theorem allAwaited_modify {s : Packages} {d : Text} {f : Package → Package}
    (hs : AllAwaited G sprj s) (hf : ∀ k, s d = some k → (f k).Awaited G sprj) :
    AllAwaited G sprj (s.modify d f) := by
  intro d' k hk
  by_cases hd : d' = d
  · subst hd
    rw [Packages.modify_self, Option.map_eq_some_iff] at hk
    obtain ⟨j, hj, rfl⟩ := hk
    exact hf j hj
  · exact hs d' k (by rwa [Packages.modify_of_ne f hd] at hk)

/-- Only the removal of the marker can lose a publication. -/
theorem allAwaited_line {d : Text} {c : Cmd} (hc : c ≠ .rm) (e : Event) {s : Packages}
    (hs : AllAwaited G sprj s) : AllAwaited G sprj (Cmd.line d c e s).1 := by
  cases c with
  | echo | mkdirBuilddir | notFound => exact hs
  | configure | build | mkdirDestdir =>
    simp only [Cmd.line]
    split_ifs
    · exact allAwaited_write hs fun _ h => h
    · exact hs
  | install =>
    simp only [Cmd.line]
    split_ifs
    · exact allAwaited_write hs fun _ h => h
    · exact hs
  | touch =>
    simp only [Cmd.line]
    split_ifs
    · exact allAwaited_write hs fun _ _ _ => .inl rfl
    · exact hs
  | copy c =>
    simp only [Cmd.line]
    split_ifs
    · refine allAwaited_modify hs fun k hk ht => (hs d k hk ht).imp id fun h c' hc' => ?_
      exact List.mem_cons_of_mem _ (h c' hc')
    · exact hs
  | rm => exact absurd rfl hc

/-- The subtree of a copy has been published. -/
def Cmd.Copied (d : Text) : Cmd → Packages → Prop
  | .copy c, s => ∀ k, s d = some k → c ∈ k.published
  | _, _ => True

theorem mem_copyLines {c : Cmd}
    (hc : c ∈ multicmd G (cmdPostInstallProject G sprj)) : c = .echo ∨ ∃ t, c = .copy t := by
  unfold multicmd cmdPostInstallProject at hc
  rcases List.mem_append.mp hc with hc | hc
  · split_ifs at hc
    · exact .inl (List.mem_singleton.mp hc)
    · simp at hc
  · obtain ⟨t, -, rfl⟩ := List.mem_map.mp hc
    exact .inr ⟨t, rfl⟩

/-- Once the copies have all succeeded, the package is published. -/
theorem allPublished_of_copies {d : Text} {es : List Event} {s : Packages} {k : Package}
    (hok : (runLines (copyLines G sprj d) es s).ok)
    (hk : (runLines (copyLines G sprj d) es s).state d = some k) : k.AllPublished G sprj := by
  have hall := runLines_all (Q := Cmd.Copied d) (fun c _ e s hc => ?_)
    (fun c _ c' hc' e s hc => ?_) hok
  · intro c hc
    exact hall (.copy c) (List.mem_append_right _ (List.mem_map_of_mem hc)) k hk
  · cases c with
    | copy t =>
      have he : e.ok = true := hc
      intro k hk
      obtain ⟨j, -, rfl⟩ : ∃ j, s d = some j ∧
          ({ j with published := t :: j.published } : Package) = k := by
        simpa [Cmd.line, he] using hk
      simp
    | _ => trivial
  · cases c with
    | copy t =>
      rcases mem_copyLines hc' with rfl | ⟨t', rfl⟩
      · exact hc
      · intro k hk
        simp only [Cmd.line] at hk
        split_ifs at hk
        · rw [Packages.modify_self, Option.map_eq_some_iff] at hk
          obtain ⟨j, hj, rfl⟩ := hk
          exact List.mem_cons_of_mem _ (hc j hj)
        · exact hc k hk
    | _ => trivial

/-- The recipe of post-install-project removes the marker only behind the copies. -/
theorem allAwaited_postInstall (es : List Event) {s : Packages} (hs : AllAwaited G sprj s) :
    AllAwaited G sprj (runLines (postInstallProject G sprj r s) es s).state := by
  unfold postInstallProject
  split_ifs
  · have hcopies : AllAwaited G sprj
        (runLines (copyLines G sprj (r.destdir G sprj)) es s).state := by
      refine runLines_inv (fun l hl e t ht => ?_) es hs
      obtain ⟨c, hc, rfl⟩ := List.mem_map.mp hl
      rcases mem_copyLines hc with rfl | ⟨t, rfl⟩
      · exact ht
      · exact allAwaited_line (by simp) e ht
    rw [runLines_append]
    by_cases hok : (runLines (copyLines G sprj (r.destdir G sprj)) es s).ok
    · rw [andThen_of_ok hok]
      rcases runLines_singleton_state (Cmd.line (r.destdir G sprj) .rm) _ _ with h | ⟨e, h⟩
      · exact h ▸ hcopies
      · rw [h]
        simp only [Cmd.line]
        split_ifs
        · exact allAwaited_modify hcopies fun k hk _ =>
            .inr (by exact allPublished_of_copies (k := k) hok hk)
        · exact hcopies
    · rw [andThen_of_not_ok (by simpa using hok)]
      exact hcopies
  · exact hs

theorem allAwaited_afterRuns {rs : List Run} {s : Packages} (hs : AllAwaited G sprj s) :
    AllAwaited G sprj (afterRuns G sprj rs s) := by
  induction rs generalizing s with
  | nil => exact hs
  | cons r rs ih =>
    exact ih (makeRun_inv_of_post (fun c e s hc => allAwaited_line hc e)
      (fun es s => allAwaited_postInstall es) hs)

/-- No line removes the package directory. -/
theorem isSome_of_mem {d : Text} {cmds : List Cmd} {l : Line Packages Event}
    (hl : l ∈ cmds.map (Cmd.line d)) (e : Event) {s : Packages} (hs : (s d).isSome) :
    ((l e s).1 d).isSome := by
  obtain ⟨c, -, rfl⟩ := List.mem_map.mp hl
  obtain ⟨k, hk⟩ := Option.isSome_iff_exists.mp hs
  cases c <;> simp only [Cmd.line] <;> (try split_ifs) <;> simp [hk]

/-- A run that succeeds leaves a package installed before it published, without its
marker. -/
theorem allPublished_of_ok {s : Packages} {k : Package} (hs : AllAwaited G sprj s)
    (hk : s (r.destdir G sprj) = some k) (ht : k.touched) (hok : (makeRun G sprj r s).ok) :
    ∃ j, (makeRun G sprj r s).state (r.destdir G sprj) = some j ∧ j.AllPublished G sprj ∧
      j.postInstall = false := by
  rw [makeRun, hk, Option.isSome_some, if_pos rfl, List.nil_append, runRecipes_singleton] at hok ⊢
  unfold postInstallProject at hok ⊢
  rw [hk, Option.any_some] at hok ⊢
  by_cases hm : k.postInstall
  · rw [if_pos hm, runLines_append] at hok ⊢
    obtain ⟨hcopies, hrm⟩ := andThen_ok hok
    rw [andThen_of_ok hcopies]
    have hthere : ((runLines (copyLines G sprj (r.destdir G sprj)) r.events s).state
        (r.destdir G sprj)).isSome :=
      runLines_inv (I := fun t : Packages => (t (r.destdir G sprj)).isSome)
        (fun l hl e t ht => isSome_of_mem hl e ht) r.events (by simp [hk])
    obtain ⟨j, hj⟩ := Option.isSome_iff_exists.mp hthere
    generalize (runLines (copyLines G sprj (r.destdir G sprj)) r.events s).rest = es at hrm ⊢
    cases es with
    | nil => simp [runLines] at hrm
    | cons e es =>
      have he : e.ok = true := by
        by_contra he
        simp [runLines, Cmd.line, he] at hrm
      refine ⟨{ j with postInstall := false }, ?_, by exact allPublished_of_copies (k := j) hcopies hj,
        rfl⟩
      simp [runLines, Cmd.line, he, hj]
  · rw [if_neg hm]
    exact ⟨k, hk, (hs _ k hk ht).resolve_left hm, by simpa using hm⟩

/-- After any runs, stopped anywhere, a package whose install-project has completed is
published or still has its marker, and any run that succeeds leaves it published without
the marker. -/
theorem published_of_touched {rs : List Run} {d : Text} {k : Package}
    (hk : afterRuns G sprj rs noPackages d = some k) (ht : k.touched) :
    (k.postInstall ∨ k.AllPublished G sprj) ∧
      ∀ r, r.destdir G sprj = d → (makeRun G sprj r (afterRuns G sprj rs noPackages)).ok →
        ∃ j, (makeRun G sprj r (afterRuns G sprj rs noPackages)).state d = some j ∧
          j.AllPublished G sprj ∧ j.postInstall = false := by
  have hs : AllAwaited G sprj (afterRuns G sprj rs noPackages) :=
    allAwaited_afterRuns fun d k h => absurd h (by simp [noPackages])
  refine ⟨hs d k hk ht, fun r hr hok => ?_⟩
  subst hr
  exact allPublished_of_ok hs hk ht hok

theorem published_of_touched_testRun :
    ∃ j, (makeRun testGlobals (lit "test") (testRun (List.replicate 14 true))
        (afterRuns testGlobals (lit "test") [testRun (List.replicate 8 true)] noPackages)).state
          ((testRun []).destdir testGlobals (lit "test")) = some j ∧
      j.AllPublished testGlobals (lit "test") ∧ j.postInstall = false :=
  (published_of_touched (k := ⟨true, true, true, [⟨.sysroot, lit "usr/lib/"⟩,
    ⟨.sysroot, lit "lib/"⟩]⟩) (by decide +kernel) rfl).2 _ rfl (by decide +kernel)

end Published

end Makeroot
