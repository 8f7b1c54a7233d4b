import Makeroot.CommandLine

/-!
# The goals `install` and `download` through the directory tree

The top-level makefile starts one make of scripts/Makefile for each directory of
`SUBDIRS`, and scripts/subdir.mk one for each of `subdir-y` and `subdir-m`, all with
the recipe `$(MAKE) $(build)=$@ $(target)`. The goal travels in `target` : for
`download` it is the word `download`, for `install` the text
`"force-install=y install"` with its quotes. The shell makes that one word, and the
sub-make takes the word as a definition of `force-install`, so it has no goal and
runs `__build`.

A directory with a sub-project still starts a make with the goal `install` : the
recipe of a sub-project splices `force-install=$(force-install)` without quotes, and
there the value `y install` falls apart. `propagates_iff` is the exact result : the
goal reaches every directory if it is `download`, or if every directory of the tree
has a sub-project.
-/

namespace Makeroot

open GnuMake

/-- Names of directories and sub-projects : plain words. -/
abbrev Word := {w : Text // PlainWord w}

/-- What the makefiles of the tree define, for each directory by its path. -/
structure MakeTree where
  /-- `SUBDIRS` of the top-level makefile. -/
  subdirs : List Word
  subdirY : Text → List Word
  subdirM : Text → List Word
  subprojectY : Text → List Word
  /-- `$(p)-targets`, or `all`. -/
  targets : Word → List Word
  /-- Whether the package directory of a sub-project is still missing. -/
  missing : Word → Bool

/-- The two goals that are passed down. -/
inductive TopGoal
  | install
  | download
deriving DecidableEq

/-- The goal of scripts/Makefile a top-level goal stands for. -/
def TopGoal.name : TopGoal → Text
  | .install => lit "install"
  | .download => lit "download"

/-- `target` of the top-level makefile. -/
def topTarget : TopGoal → Text
  | .install => lit "\"force-install=y install\""
  | .download => lit "download"

/-- `$(MAKE) $(build)=d ws rest`, with words `ws` and a spliced text `rest`. -/
def buildLine (d : Text) (ws : List Text) (rest : Text) : Text :=
  cmdLine (lit "make" :: lit "-f" :: lit "scripts/Makefile" :: (lit "obj=" ++ d) :: ws) rest

/-- The goals a make of scripts/Makefile works on, `__build` where it was given none. -/
def goalsOf (p : Proc) : List Text :=
  if p.goals = [] then [lit "__build"] else p.goals

/-- `obj`, the directory the make works in. -/
def objOf (p : Proc) : Text := p.var (lit "obj")

def forceInstall (p : Proc) : Text := p.var (lit "force-install")

/-- `target` of scripts/Makefile outside the goal `download` : set if `force-install` is
`y`, unless the command line defines it. -/
def targetOf (p : Proc) : Text :=
  match p.vars.find? fun d => d.1 = lit "target" with
  | some d => d.2
  | none => if forceInstall p = lit "y" then lit "\"force-install=y install\"" else []

/-- `target` under the goal `download`. -/
def downloadTargetOf (p : Proc) : Text :=
  match p.vars.find? fun d => d.1 = lit "target" with
  | some d => d.2
  | none => lit "download"

namespace MakeTree

variable (T : MakeTree)

/-- `subdir-ym`. -/
def subdirYm (d : Text) : List Word := T.subdirY d ++ T.subdirM d

/-- The recipes of the sub-directories. -/
def subdirLines (p : Proc) (target : Text) : List Text :=
  (T.subdirYm (objOf p)).map fun d => buildLine d.val [] target

/-- The recipes of `do-project` for the sub-project `sp`, from `$(1)-configure` to
`$(1)` itself. -/
def projectLines (p : Proc) (sp : Word) : List Text :=
  (if T.missing sp then
    buildLine (objOf p) [lit "sprj=" ++ sp.val] (lit "configure-project") ::
      (T.targets sp).map (fun t =>
        buildLine (objOf p) [lit "sprj=" ++ sp.val, lit "target=" ++ t.val]
          (lit "build-project")) ++
      [buildLine (objOf p) [lit "sprj=" ++ sp.val] (lit "install-project")]
  else []) ++
  [buildLine (objOf p) [lit "sprj=" ++ sp.val]
    (lit "force-install=" ++ forceInstall p ++ lit " post-install-project")]

/-- The command lines of sub-makes that a goal of scripts/Makefile runs. -/
def goalLines (p : Proc) (g : Text) : List Text :=
  if g = lit "__build" ∨ g = lit "install" then
    (T.subprojectY (objOf p)).flatMap (T.projectLines p) ++ T.subdirLines p (targetOf p)
  else if g = lit "download" then T.subdirLines p (downloadTargetOf p)
  else []

/-- The sub-makes of a make. -/
def subMakes (p : Proc) : List Proc :=
  (goalsOf p).flatMap fun g => (T.goalLines p g).map (subMake p.vars)

/-- The makes of scripts/Makefile that `make g` runs at the top. -/
inductive Runs (g : TopGoal) : Proc → Prop
  | top {d : Word} (hd : d ∈ T.subdirs) : Runs g (subMake [] (buildLine d.val [] (topTarget g)))
  | sub {p q : Proc} (hp : Runs g p) (hq : q ∈ T.subMakes p) : Runs g q

/-- The directories of the tree. -/
inductive InTree : Text → Prop
  | top {d : Word} (hd : d ∈ T.subdirs) : InTree d.val
  | sub {d : Text} {e : Word} (hd : InTree d) (he : e ∈ T.subdirYm d) : InTree e.val

/-- The goal runs in every directory of the tree, and every make that runs `install` has
`force-install` equal to `y`. -/
def Propagates (g : TopGoal) : Prop :=
  (∀ d, T.InTree d → ∃ p, T.Runs g p ∧ objOf p = d ∧ g.name ∈ goalsOf p) ∧
    (g = .install → ∀ p, T.Runs g p → g.name ∈ goalsOf p → forceInstall p = lit "y")

end MakeTree

/-! ## Names on command lines -/

/-- The words that lines begin with and the goals they end with. -/
theorem plain_names : ∀ w ∈ [lit "make", lit "-f", lit "scripts/Makefile", lit "download",
    lit "force-install=y", lit "configure-project", lit "build-project", lit "install-project",
    lit "post-install-project"], PlainWord w := by
  decide +kernel

theorem goal_names : ∀ g ∈ [lit "download", lit "install", lit "configure-project",
    lit "build-project", lit "install-project", lit "post-install-project"],
    '=' ∉ g ∧ g ≠ lit "-f" := by
  decide +kernel

theorem var_names : ∀ x ∈ [lit "obj", lit "force-install", lit "sprj", lit "target"], '=' ∉ x := by
  decide +kernel

theorem var_names_ne : lit "force-install" ≠ lit "obj" ∧ lit "sprj" ≠ lit "obj" ∧
    ∀ x ∈ [lit "obj", lit "sprj", lit "force-install"], x ≠ lit "target" := by
  decide +kernel

/-- The beginnings of definitions. -/
theorem define_names : lit "obj=" = lit "obj" ++ ['='] ∧ lit "sprj=" = lit "sprj" ++ ['='] ∧
    lit "target=" = lit "target" ++ ['='] ∧
    ∀ x ∈ [lit "obj=", lit "sprj=", lit "target="], ∀ c ∈ x, isPlain c = true := by
  decide +kernel

/-! ## The sub-makes one line starts -/

/-- The words of a line of `$(build)`, down to its `obj`. -/
theorem subMake_buildLine (vars : List (Text × Text)) {d : Text} (hd : PlainWord d)
    {ws : List Text} (hws : ∀ w ∈ ws, PlainWord w) (rest : Text) :
    subMake vars (buildLine d ws rest) =
      readArgs false (ws ++ shellWords rest) ⟨(lit "obj", d) :: vars, []⟩ := by
  have hobj : lit "obj=" ++ d = lit "obj" ++ '=' :: d := by
    rw [define_names.1, List.append_assoc]
    rfl
  have hall : ∀ w ∈ lit "make" :: lit "-f" :: lit "scripts/Makefile" :: (lit "obj=" ++ d) :: ws,
      PlainWord w := by
    intro w hw
    simp only [List.mem_cons] at hw
    rcases hw with rfl | rfl | rfl | rfl | hw
    · exact plain_names _ (by simp)
    · exact plain_names _ (by simp)
    · exact plain_names _ (by simp)
    · exact plainWord_append (define_names.2.2.2 _ (by simp)) hd
    · exact hws w hw
  rw [subMake, buildLine, shellWords_cmdLine _ hall]
  show readArgs false (lit "-f" :: lit "scripts/Makefile" :: (lit "obj=" ++ d) ::
    (ws ++ shellWords rest)) _ = _
  rw [readArgs, if_pos rfl, readArgs, hobj, readArgs_define (var_names _ (by simp))]

/-- No command line defines `target`. -/
def NoTarget (vars : List (Text × Text)) : Prop := ∀ d ∈ vars, d.1 ≠ lit "target"

theorem targetOf_of_noTarget {p : Proc} (h : NoTarget p.vars) :
    targetOf p = if forceInstall p = lit "y" then lit "\"force-install=y install\"" else [] := by
  rw [targetOf, List.find?_eq_none.mpr fun d hd => by simpa using h d hd]

theorem downloadTargetOf_of_noTarget {p : Proc} (h : NoTarget p.vars) :
    downloadTargetOf p = lit "download" := by
  rw [downloadTargetOf, List.find?_eq_none.mpr fun d hd => by simpa using h d hd]

/-- The make of a directory under the goal `install` : it got no goal, and its
`force-install` holds two words. -/
structure Passing (d : Word) (p : Proc) : Prop where
  goals : p.goals = []
  obj : objOf p = d.val
  force : forceInstall p = lit "y install"
  noTarget : NoTarget p.vars

/-- The make a sub-project of the directory starts when its line falls apart. -/
structure Installing (d : Word) (p : Proc) : Prop where
  goals : p.goals = [lit "install", lit "post-install-project"]
  obj : objOf p = d.val
  force : forceInstall p = lit "y"
  noTarget : NoTarget p.vars

/-- The make of a directory under the goal `download`. -/
structure Downloading (d : Word) (p : Proc) : Prop where
  goals : p.goals = [lit "download"]
  obj : objOf p = d.val
  noTarget : NoTarget p.vars

/-- A make for one step of a sub-project. -/
def OneStep (p : Proc) : Prop :=
  ∃ g ∈ [lit "configure-project", lit "build-project", lit "install-project",
    lit "post-install-project"], p.goals = [g]

theorem passing_subMake {vars : List (Text × Text)} (hv : NoTarget vars) (d : Word) :
    Passing d (subMake vars (buildLine d.val [] (lit "\"force-install=y install\""))) := by
  have hw : shellWords (lit "\"force-install=y install\"") =
      [lit "force-install" ++ '=' :: lit "y install"] := by decide +kernel
  rw [subMake_buildLine vars d.property (by simp), hw, List.nil_append,
    readArgs_define (var_names _ (by simp)), readArgs]
  refine ⟨rfl, ?_, var_cons_self _ _ _ _, ?_⟩
  · rw [objOf, var_cons_of_ne var_names_ne.1 _ _ _ [], var_cons_self]
  · simp only [NoTarget, List.forall_mem_cons]
    exact ⟨var_names_ne.2.2 _ (by simp), var_names_ne.2.2 _ (by simp), hv⟩

theorem passing_subMake_nil {p : Proc} {e : Word} (hp : Passing e p) (d : Word) :
    Passing d (subMake p.vars (buildLine d.val [] [])) := by
  rw [subMake_buildLine p.vars d.property (by simp)]
  refine ⟨rfl, var_cons_self _ _ _ _, ?_, ?_⟩
  · show Proc.var ⟨(lit "obj", d.val) :: p.vars, []⟩ _ = _
    rw [var_cons_of_ne var_names_ne.1.symm _ _ _ p.goals]
    exact hp.force
  · simp only [readArgs, shellWords, shellSplit, List.append_nil, NoTarget, List.forall_mem_cons]
    exact ⟨var_names_ne.2.2 _ (by simp), hp.noTarget⟩

theorem downloading_subMake {vars : List (Text × Text)} (hv : NoTarget vars) (d : Word) :
    Downloading d (subMake vars (buildLine d.val [] (lit "download"))) := by
  have hw : shellWords (lit "download") = [lit "download"] :=
    shellWords_plain (plain_names _ (by simp))
  obtain ⟨heq, hf⟩ := goal_names (lit "download") (by simp)
  rw [subMake_buildLine vars d.property (by simp), hw, List.nil_append, readArgs_goal heq hf,
    readArgs]
  refine ⟨rfl, var_cons_self _ _ _ _, ?_⟩
  simp only [NoTarget, List.forall_mem_cons]
  exact ⟨var_names_ne.2.2 _ (by simp), hv⟩

/-- A line that defines `sprj` and `target` and names one step of a sub-project. -/
theorem oneStep_subMake (vars : List (Text × Text)) (d : Word) {g : Text} (hp : PlainWord g)
    (hg : g ∈ [lit "configure-project", lit "build-project", lit "install-project",
      lit "post-install-project"]) {ws : List Text}
    (hws : ∀ w ∈ ws, ∃ x v, w = lit x ++ '=' :: v ∧ '=' ∉ lit x ∧ PlainWord w) :
    OneStep (subMake vars (buildLine d.val ws g)) := by
  have hdef : ∀ (ws : List Text) (p : Proc),
      (∀ w ∈ ws, ∃ x v, w = lit x ++ '=' :: v ∧ '=' ∉ lit x ∧ PlainWord w) →
      (readArgs false (ws ++ [g]) p).goals = p.goals ++ [g] := by
    intro ws
    induction ws with
    | nil =>
      intro p _
      have h : '=' ∉ g ∧ g ≠ lit "-f" :=
        goal_names g (List.mem_cons_of_mem _ (List.mem_cons_of_mem _ hg))
      rw [List.nil_append, readArgs_goal h.1 h.2, readArgs]
    | cons w ws ih =>
      intro p h
      obtain ⟨x, v, rfl, hx, -⟩ := h w (by simp)
      rw [List.cons_append, readArgs_define hx, ih _ fun u hu => h u (by simp [hu])]
  refine ⟨g, hg, ?_⟩
  rw [subMake_buildLine vars d.property fun w hw => by
    obtain ⟨_, _, _, _, h⟩ := hws w hw
    exact h]
  rw [shellWords_plain hp, hdef _ _ hws]
  rfl

theorem sprj_define (sp : Word) : ∃ x v, lit "sprj=" ++ sp.val = lit x ++ '=' :: v ∧
    '=' ∉ lit x ∧ PlainWord (lit "sprj=" ++ sp.val) := by
  exact ⟨"sprj", sp.val, by rw [define_names.2.1, List.append_assoc]; rfl, var_names _ (by simp),
    plainWord_append (define_names.2.2.2 _ (by simp)) sp.property⟩

theorem target_define (t : Word) : ∃ x v, lit "target=" ++ t.val = lit x ++ '=' :: v ∧
    '=' ∉ lit x ∧ PlainWord (lit "target=" ++ t.val) := by
  exact ⟨"target", t.val, by rw [define_names.2.2.1, List.append_assoc]; rfl,
    var_names _ (by simp), plainWord_append (define_names.2.2.2 _ (by simp)) t.property⟩

/-- The line of `$(1)` splices `force-install` unquoted : `y install` falls apart into
a definition and the goal `install`. -/
theorem installing_subMake {p : Proc} {d : Word} (hp : Passing d p) (sp : Word) :
    Installing d (subMake p.vars (buildLine (objOf p) [lit "sprj=" ++ sp.val]
      (lit "force-install=" ++ forceInstall p ++ lit " post-install-project"))) := by
  have hw : shellWords (lit "force-install=" ++ lit "y install" ++ lit " post-install-project") =
      [lit "force-install" ++ '=' :: lit "y", lit "install", lit "post-install-project"] := by
    decide +kernel
  have hs : lit "sprj=" ++ sp.val = lit "sprj" ++ '=' :: sp.val := by
    rw [define_names.2.1, List.append_assoc]
    rfl
  have hplain : ∀ w ∈ [lit "sprj=" ++ sp.val], PlainWord w := fun w h => by
    rw [List.mem_singleton.mp h]
    exact plainWord_append (define_names.2.2.2 _ (by simp)) sp.property
  obtain ⟨heq, hf⟩ := goal_names (lit "install") (by simp)
  obtain ⟨heq', hf'⟩ := goal_names (lit "post-install-project") (by simp)
  rw [hp.obj, hp.force, subMake_buildLine p.vars d.property hplain, hw, hs, List.singleton_append,
    readArgs_define (var_names _ (by simp)), readArgs_define (var_names _ (by simp)),
    readArgs_goal heq hf, readArgs_goal heq' hf', readArgs]
  refine ⟨rfl, ?_, var_cons_self _ _ _ _, ?_⟩
  · rw [objOf, var_cons_of_ne var_names_ne.1 _ _ _ [], var_cons_of_ne var_names_ne.2.1 _ _ _ [],
      var_cons_self]
  · simp only [NoTarget, List.forall_mem_cons]
    exact ⟨var_names_ne.2.2 _ (by simp), var_names_ne.2.2 _ (by simp),
      var_names_ne.2.2 _ (by simp), hp.noTarget⟩

/-- With `force-install` equal to `y` the same line is one step. -/
theorem oneStep_of_installing {p : Proc} {d : Word} (hp : Installing d p) (sp : Word) :
    OneStep (subMake p.vars (buildLine (objOf p) [lit "sprj=" ++ sp.val]
      (lit "force-install=" ++ forceInstall p ++ lit " post-install-project"))) := by
  have hl : buildLine (objOf p) [lit "sprj=" ++ sp.val]
      (lit "force-install=" ++ forceInstall p ++ lit " post-install-project") =
      buildLine d.val [lit "sprj=" ++ sp.val, lit "force-install=y"]
        (lit "post-install-project") := by
    have h : lit "force-install=" ++ lit "y" ++ lit " post-install-project" =
        lit "force-install=y" ++ ' ' :: lit "post-install-project" := by decide +kernel
    rw [hp.obj, hp.force, h]
    rfl
  rw [hl]
  refine oneStep_subMake p.vars d (plain_names _ (by simp)) (by simp) fun w hw => ?_
  simp only [List.mem_cons, List.not_mem_nil, or_false] at hw
  rcases hw with rfl | rfl
  · exact sprj_define sp
  · exact ⟨"force-install", ['y'], by decide +kernel, var_names _ (by simp), plain_names _ (by simp)⟩

namespace MakeTree

variable {T : MakeTree}

/-- The other lines of a sub-project start one-step makes. -/
theorem mem_projectLines {p : Proc} {d sp : Word} (hobj : objOf p = d.val) {l : Text}
    (hl : l ∈ T.projectLines p sp) : OneStep (subMake p.vars l) ∨
      l = buildLine (objOf p) [lit "sprj=" ++ sp.val]
        (lit "force-install=" ++ forceInstall p ++ lit " post-install-project") := by
  rw [projectLines, List.mem_append] at hl
  rcases hl with hl | hl
  · refine Or.inl ?_
    rw [hobj] at hl
    split_ifs at hl
    · simp only [List.mem_append, List.mem_cons, List.mem_map, List.not_mem_nil, or_false] at hl
      rcases hl with (rfl | ⟨t, -, rfl⟩) | rfl
      · exact oneStep_subMake p.vars d (plain_names _ (by simp)) (by simp) fun w hw => by
          rw [List.mem_singleton.mp hw]
          exact sprj_define sp
      · exact oneStep_subMake p.vars d (plain_names _ (by simp)) (by simp) fun w hw => by
          simp only [List.mem_cons, List.not_mem_nil, or_false] at hw
          rcases hw with rfl | rfl
          · exact sprj_define sp
          · exact target_define t
      · exact oneStep_subMake p.vars d (plain_names _ (by simp)) (by simp) fun w hw => by
          rw [List.mem_singleton.mp hw]
          exact sprj_define sp
    · simp at hl
  · exact Or.inr (List.mem_singleton.mp hl)

/-- A one-step make starts no further make of scripts/Makefile. -/
theorem subMakes_of_oneStep {p : Proc} (hp : OneStep p) : T.subMakes p = [] := by
  obtain ⟨g, hg, hgoals⟩ := hp
  have hne : ∀ x ∈ [lit "__build", lit "install", lit "download"], g ≠ x := by
    simp only [List.mem_cons, List.not_mem_nil, or_false] at hg
    rcases hg with rfl | rfl | rfl | rfl <;> decide +kernel
  simp only [List.forall_mem_cons] at hne
  rw [subMakes, goalsOf, hgoals, if_neg (by simp)]
  simp [goalLines, hne.1, hne.2.1, hne.2.2.1]

/-- The makes of the directory `d` that start from a passing one. -/
theorem mem_subMakes_passing {p q : Proc} {d : Word} (hp : Passing d p) :
    q ∈ T.subMakes p ↔
      (∃ sp ∈ T.subprojectY d.val, ∃ l ∈ T.projectLines p sp, q = subMake p.vars l) ∨
        ∃ e ∈ T.subdirYm d.val, q = subMake p.vars (buildLine e.val [] []) := by
  have ht : targetOf p = [] := by
    rw [targetOf_of_noTarget hp.noTarget, hp.force, if_neg (by decide +kernel)]
  rw [subMakes, goalsOf, hp.goals, if_pos rfl]
  simp only [List.flatMap_cons, List.flatMap_nil, List.append_nil, goalLines, true_or, if_true,
    subdirLines, hp.obj, ht, List.mem_map, List.mem_append, List.mem_flatMap]
  constructor
  · rintro ⟨l, ⟨sp, hsp, hl⟩ | ⟨e, he, rfl⟩, rfl⟩
    · exact Or.inl ⟨sp, hsp, l, hl, rfl⟩
    · exact Or.inr ⟨e, he, rfl⟩
  · rintro (⟨sp, hsp, l, hl, rfl⟩ | ⟨e, he, rfl⟩)
    · exact ⟨l, Or.inl ⟨sp, hsp, hl⟩, rfl⟩
    · exact ⟨_, Or.inr ⟨e, he, rfl⟩, rfl⟩

theorem mem_subMakes_installing {p q : Proc} {d : Word} (hp : Installing d p)
    (hq : q ∈ T.subMakes p) : OneStep q ∨
      ∃ e ∈ T.subdirYm d.val,
        q = subMake p.vars (buildLine e.val [] (lit "\"force-install=y install\"")) := by
  have ht : targetOf p = lit "\"force-install=y install\"" := by
    rw [targetOf_of_noTarget hp.noTarget, hp.force, if_pos rfl]
  have hpost : T.goalLines p (lit "post-install-project") = [] := by
    rw [goalLines, if_neg (by decide +kernel), if_neg (by decide +kernel)]
  rw [subMakes, goalsOf, hp.goals, if_neg (by simp)] at hq
  simp only [List.flatMap_cons, List.flatMap_nil, List.append_nil, hpost, List.map_nil] at hq
  simp only [goalLines, or_true, if_true, subdirLines, hp.obj, ht, List.mem_map, List.mem_append,
    List.mem_flatMap] at hq
  obtain ⟨l, ⟨sp, -, hl⟩ | ⟨e, he, rfl⟩, rfl⟩ := hq
  · rcases mem_projectLines hp.obj hl with h | rfl
    · exact Or.inl h
    · exact Or.inl (oneStep_of_installing hp sp)
  · exact Or.inr ⟨e, he, rfl⟩

theorem mem_subMakes_downloading {p q : Proc} {d : Word} (hp : Downloading d p) :
    q ∈ T.subMakes p ↔
      ∃ e ∈ T.subdirYm d.val, q = subMake p.vars (buildLine e.val [] (lit "download")) := by
  have ht := downloadTargetOf_of_noTarget hp.noTarget
  have hne : ¬(lit "download" = lit "__build" ∨ lit "download" = lit "install") := by
    decide +kernel
  rw [subMakes, goalsOf, hp.goals, if_neg (by simp)]
  simp only [List.flatMap_cons, List.flatMap_nil, List.append_nil, goalLines, if_neg hne, if_true,
    subdirLines, hp.obj, ht, List.map_map, List.mem_map, Function.comp_apply]
  exact ⟨fun ⟨e, he, h⟩ => ⟨e, he, h.symm⟩, fun ⟨e, he, h⟩ => ⟨e, he, h.symm⟩⟩

/-! ## The whole run -/

theorem noTarget_nil : NoTarget [] := by simp [NoTarget]

/-- Under `install` every make is a passing one, an installing one of a directory with
a sub-project, or one step of a sub-project. -/
theorem runs_install {p : Proc} (hp : T.Runs .install p) :
    (∃ d, Passing d p) ∨ (∃ d, Installing d p ∧ T.subprojectY d.val ≠ []) ∨ OneStep p := by
  induction hp with
  | @top d _ => exact Or.inl ⟨d, passing_subMake noTarget_nil d⟩
  | @sub p q _ hq ih =>
    rcases ih with ⟨d, h⟩ | ⟨d, h, -⟩ | h
    · rcases (mem_subMakes_passing h).mp hq with ⟨sp, hsp, l, hl, rfl⟩ | ⟨e, -, rfl⟩
      · rcases mem_projectLines h.obj hl with hs | rfl
        · exact Or.inr (Or.inr hs)
        · exact Or.inr (Or.inl ⟨d, installing_subMake h sp, List.ne_nil_of_mem hsp⟩)
      · exact Or.inl ⟨e, passing_subMake_nil h e⟩
    · rcases mem_subMakes_installing h hq with hs | ⟨e, -, rfl⟩
      · exact Or.inr (Or.inr hs)
      · exact Or.inl ⟨e, passing_subMake h.noTarget e⟩
    · simp [subMakes_of_oneStep h] at hq

/-- A make with the goal `install` is an installing one. -/
theorem installing_of_mem_goalsOf {p : Proc} (hp : T.Runs .install p)
    (hg : lit "install" ∈ goalsOf p) : ∃ d, Installing d p ∧ T.subprojectY d.val ≠ [] := by
  rcases runs_install hp with ⟨d, h⟩ | h | ⟨g, hm, h⟩
  · rw [goalsOf, h.goals, if_pos rfl] at hg
    exact absurd hg (by decide +kernel)
  · exact h
  · rw [goalsOf, h, if_neg (by simp), List.mem_singleton] at hg
    exact absurd (hg ▸ hm) (by decide +kernel)

/-- Every directory of the tree gets a passing make. -/
theorem exists_passing {d : Text} (hd : T.InTree d) :
    ∃ p w, T.Runs .install p ∧ Passing w p ∧ d = w.val := by
  induction hd with
  | @top w hw => exact ⟨_, w, .top hw, passing_subMake noTarget_nil w, rfl⟩
  | @sub d e _ he ih =>
    obtain ⟨p, w, hp, h, rfl⟩ := ih
    exact ⟨_, e, .sub hp ((mem_subMakes_passing h).mpr (Or.inr ⟨e, he, rfl⟩)),
      passing_subMake_nil h e, rfl⟩

theorem exists_downloading {d : Text} (hd : T.InTree d) :
    ∃ p w, T.Runs .download p ∧ Downloading w p ∧ d = w.val := by
  induction hd with
  | @top w hw => exact ⟨_, w, .top hw, downloading_subMake noTarget_nil w, rfl⟩
  | @sub d e _ he ih =>
    obtain ⟨p, w, hp, h, rfl⟩ := ih
    exact ⟨_, e, .sub hp ((mem_subMakes_downloading h).mpr ⟨e, he, rfl⟩),
      downloading_subMake h.noTarget e, rfl⟩

/-- `download` reaches every directory of every tree. -/
theorem propagates_download : T.Propagates .download := by
  refine ⟨fun d hd => ?_, fun h => by simp at h⟩
  obtain ⟨p, w, hp, h, rfl⟩ := exists_downloading hd
  exact ⟨p, hp, h.obj, by rw [goalsOf, h.goals, if_neg (by simp)]; exact List.mem_singleton_self _⟩

/-- `install` reaches exactly the trees with a sub-project in every directory. -/
theorem propagates_install :
    T.Propagates .install ↔ ∀ d, T.InTree d → T.subprojectY d ≠ [] := by
  constructor
  · rintro ⟨hall, -⟩ d hd
    obtain ⟨p, hp, hobj, hg⟩ := hall d hd
    obtain ⟨w, hw, hne⟩ := installing_of_mem_goalsOf hp hg
    rwa [← hobj, hw.obj]
  · refine fun hall => ⟨fun d hd => ?_, fun _ p hp hg => ?_⟩
    · obtain ⟨p, w, hp, h, rfl⟩ := exists_passing hd
      obtain ⟨sp, hsp⟩ := List.exists_mem_of_ne_nil _ (hall _ hd)
      have hi := installing_subMake h sp
      refine ⟨_, .sub hp ((mem_subMakes_passing h).mpr (Or.inl ⟨sp, hsp, _, ?_, rfl⟩)), hi.obj, ?_⟩
      · exact List.mem_append_right _ (List.mem_singleton_self _)
      · rw [goalsOf, hi.goals, if_neg (by simp)]
        exact List.mem_cons_self
    · obtain ⟨d, h, -⟩ := installing_of_mem_goalsOf hp hg
      exact h.force

/-- A goal reaches every directory of the tree with `force-install` as it should be if and
only if it is `download`, or every directory has a sub-project. -/
theorem propagates_iff (T : MakeTree) (g : TopGoal) :
    T.Propagates g ↔ g = .download ∨ ∀ d, T.InTree d → T.subprojectY d ≠ [] := by
  cases g with
  | install => simp [propagates_install]
  | download => simp [propagates_download]

/-- A tree of one directory, `tools`, with no sub-project. -/
def toolsTree : MakeTree where
  subdirs := [⟨lit "tools", by decide +kernel⟩]
  subdirY _ := []
  subdirM _ := []
  subprojectY _ := []
  targets _ := []
  missing _ := false

/-- `make install` does not run `install` in `tools`. -/
theorem not_propagates_toolsTree :
    ¬∀ (T : MakeTree) (g : TopGoal), T.Propagates g := fun h =>
  propagates_install.mp (h toolsTree .install) (lit "tools")
    (.top (d := ⟨lit "tools", by decide +kernel⟩) (List.mem_singleton_self _)) rfl

end MakeTree

end Makeroot
