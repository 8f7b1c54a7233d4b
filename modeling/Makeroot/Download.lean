import Makeroot.MakeText
import Makeroot.Recipe

/-!
# The downloads of scripts/download.mk

Each name of `download-y` has a stamp `.name.dwl`. If the stamp is missing and there is
no `$(src)/name`, the rule fetches the source with cmd_download : an archive is unpacked
to `name-version`, a plain file or a clone goes to `name`. Then it touches the stamp.
configure-project takes the first of `name-version` and `name` that exists.

Neither the stamp nor `$(src)/name` knows a version, and what stands at `$(src)/name`
may have been cut short. `source_of_ok` : a run that succeeds leaves the complete source
of each version configured, if the steps before it were `Sound` : a version is edited
before anything is fetched or to one that is there already, and what a fetch leaves
under the plain name is complete. `not_source_edited` is an archive whose version is
edited behind its stamp.
-/

namespace Makeroot

open GnuMake

/-! ## The choice of a method -/

/-- `$(name)-url` and its siblings. -/
structure Addresses where
  url : Text
  git : Text
  hg : Text
  cvs : Text

/-- The values of `download-cmd`. -/
inductive Method
  | url
  | git
  | hg
  | cvs
deriving DecidableEq

/-- The global variables cmd_download sets. They keep their values from one stamp to the
next. -/
structure DwlVars where
  target : Text
  version : Text
  url : Text
  cmd : Option Method
deriving DecidableEq

def DwlVars.unset : DwlVars := ⟨[], [], [], none⟩

/-- The nested conditions of cmd_download, with whether a method was found. Where none
was, `download-cmd` stays as it is. -/
def selectDownload (a : Addresses) (c : DwlVars) : DwlVars × Bool :=
  if findstring (lit "hg") c.version ≠ [] then ({ c with cmd := some .hg, url := a.hg }, true)
  else if findstring (lit "git") c.version ≠ [] then
    ({ c with cmd := some .git, version := lit "master", url := a.git }, true)
  else if findstring (lit "cvs") c.version ≠ [] then
    ({ c with cmd := some .cvs, url := a.cvs }, true)
  else if a.url ≠ [] then ({ c with cmd := some .url, url := a.url }, true)
  else if a.git ≠ [] then ({ c with cmd := some .git, url := a.git }, true)
  else if a.hg ≠ [] then ({ c with cmd := some .hg, url := a.hg }, true)
  else if a.cvs ≠ [] then ({ c with cmd := some .cvs, url := a.cvs }, true)
  else ({ c with url := a.cvs }, false)

/-! ## The commands -/

/-- `$(notdir t)` of one word. -/
def notdir (t : Text) : Text := (t.reverse.takeWhile (· ≠ '/')).reverse

/-- `$(suffix t)` of one word : from its last dot on, if that is in the file name. -/
def suffix (t : Text) : Text :=
  if '.' ∈ notdir t then '.' :: ((notdir t).reverse.takeWhile (· ≠ '.')).reverse else []

/-- How an archive is unpacked. -/
inductive Archive
  | gz
  | bz2
  | xz
deriving DecidableEq

/-- The test of cmd_download-url on the suffix of the address. -/
def archive (url : Text) : Option Archive :=
  if findstring (lit ".gz") (suffix url) ≠ [] ∨ findstring (lit ".tgz") (suffix url) ≠ [] then
    some .gz
  else if findstring (lit ".bz2") (suffix url) ≠ [] then some .bz2
  else if findstring (lit ".xz") (suffix url) ≠ [] then some .xz
  else none

/-- Options of a run. -/
structure DwlOptions where
  /-- `BUILD_DOWNLOAD_PATH`. -/
  path : Text
  /-- `BUILD_DOWNLOAD_KEEP_COPY`. -/
  keepCopy : Text
  quiet : Bool

/-- The beginning of a pipeline : `cat` of a copy kept before, or `wget`, with a `tee`
that keeps one. An address that ends in a slash names no file to keep. -/
inductive Reader
  | cat (file : Text)
  | wget (url : Text)
  | wgetTee (url : Text) (copy : Option Text)
deriving DecidableEq

/-- The file under `BUILD_DOWNLOAD_PATH` that belongs to an address. -/
def keptCopy (o : DwlOptions) (url : Text) : Option Text :=
  if notdir url = [] then none else some (o.path ++ '/' :: notdir url)

/-- `download-wget`. -/
def downloadWget (o : DwlOptions) (url : Text) : Reader :=
  if findstring (lit "y") o.keepCopy ≠ [] then .wgetTee url (keptCopy o url) else .wget url

/-- `download-short`, where `kept` says which copies exist. -/
def downloadShort (o : DwlOptions) (kept : Text → Bool) (url : Text) : Reader :=
  match keptCopy o url with
  | some f => if kept f then .cat f else downloadWget o url
  | none => downloadWget o url

/-- The lines of the rule for a stamp. -/
inductive DwlCmd
  | echo
  /-- `echo download not found`. -/
  | notFound
  /-- Into `tar -x -C $(src)`. -/
  | unpack (k : Archive) (r : Reader)
  /-- `> $(src)/$(dwl-target)`. -/
  | save (r : Reader)
  /-- `git clone` into `$(src)/$*`. -/
  | gitClone (url branch : Text)
  | hgClone (url : Text)
  /-- `cvs co`, which has no directory given and works in that of the make. -/
  | cvsCheckout (url : Text)
  | touch
deriving DecidableEq

/-- `cmd_$(download-cmd)`. -/
def fetchCmd (o : DwlOptions) (kept : Text → Bool) (c : DwlVars) : List DwlCmd :=
  match c.cmd with
  | none => []
  | some .url =>
    match archive c.url with
    | some k => [.unpack k (downloadShort o kept c.url)]
    | none => [.save (downloadShort o kept c.url)]
  | some .git => [.gitClone c.url c.version]
  | some .hg => [.hgClone c.url]
  | some .cvs => [.cvsCheckout c.url]

/-- `cmd_download` : the variables it leaves and the lines it expands to. -/
def cmdDownload (o : DwlOptions) (kept : Text → Bool) (a : Addresses) (name version : Text)
    (c : DwlVars) : DwlVars × List DwlCmd :=
  let sel := selectDownload a { c with target := name, version := version }
  (sel.1, (if sel.2 then [] else [.notFound]) ++
    (if o.quiet && sel.1.cmd.isSome then [.echo] else []) ++ fetchCmd o kept sel.1)

/-! ## What the lines do -/

/-- A tree or a file that was fetched : of which project, in which version, and whether
all of it is there. -/
structure Fetched where
  name : Text
  version : Text
  whole : Bool
deriving DecidableEq

structure Downloads where
  /-- The version each project is configured to. -/
  version : Text → Text
  /-- What `$(src)` holds. -/
  src : Text → Option Fetched
  /-- Whether `$(obj)/.name.dwl` exists. -/
  stamp : Text → Bool
  /-- The copies kept in download directories. -/
  copies : Text → Option Fetched

/-- What a run does not decide about a line : whether its last command succeeds, whether
the fetch comes to its end, and whether a line that fails leaves something. -/
structure DwlEvent where
  ok : Bool
  whole : Bool
  effect : Bool
deriving DecidableEq

/-- `name-version`. -/
def dirOf (name version : Text) : Text := name ++ '-' :: version

variable (n : Text)

/-- What a reader for the project `n` writes to the pipeline. -/
def Reader.stream (e : DwlEvent) (s : Downloads) : Reader → Fetched
  | .cat f =>
    match s.copies f with
    | some t => { t with whole := t.whole && e.whole }
    | none => ⟨n, s.version n, false⟩
  | .wget url => ⟨n, s.version n, e.whole && url ≠ []⟩
  | .wgetTee url _ => ⟨n, s.version n, e.whole && url ≠ []⟩

/-- The status of a reader whose output is redirected : behind `tee`, that of `wget` is
lost. -/
def Reader.status (e : DwlEvent) : Reader → Bool
  | .cat _ => e.whole
  | .wget url => e.whole && url ≠ []
  | .wgetTee _ _ => true

/-- The copy a reader keeps. -/
def Reader.keep (e : DwlEvent) (s : Downloads) : Reader → Text → Option Fetched
  | .wgetTee url (some f) =>
    Function.update s.copies f (some (Reader.stream n e s (.wgetTee url (some f))))
  | _ => s.copies

/-- Whether a line succeeds. `tar` fails on a stream that was cut. -/
def DwlCmd.ok (e : DwlEvent) (s : Downloads) : DwlCmd → Bool
  | .unpack _ r => e.ok && (r.stream n e s).whole
  | .save r => e.ok && r.status e
  | .gitClone url _ => e.ok && e.whole && url ≠ []
  | .hgClone url => e.ok && e.whole && url ≠ []
  | _ => e.ok

/-- What a line writes under `$(src)`, and where. A line that fails leaves nothing, or
something incomplete. -/
def DwlCmd.leaves (e : DwlEvent) (s : Downloads) (c : DwlCmd) : Option (Text × Fetched) :=
  let receive (place : Text) (t : Fetched) : Option (Text × Fetched) :=
    if c.ok n e s then some (place, t)
    else if e.effect then some (place, { t with whole := false }) else none
  match c with
  | .unpack _ r => receive (dirOf (r.stream n e s).name (r.stream n e s).version) (r.stream n e s)
  | .save r => receive n (r.stream n e s)
  | .gitClone _ _ => receive n ⟨n, s.version n, true⟩
  | .hgClone _ => receive n ⟨n, s.version n, true⟩
  | _ => none

/-- The copies after a line. -/
def DwlCmd.keeps (e : DwlEvent) (s : Downloads) : DwlCmd → Text → Option Fetched
  | .unpack _ r => r.keep n e s
  | .save r => r.keep n e s
  | _ => s.copies

/-- A line of the rule for `n`. -/
def DwlCmd.line (c : DwlCmd) : Line Downloads DwlEvent := fun e s =>
  ({ s with
      src := match c.leaves n e s with
        | some (place, t) => Function.update s.src place (some t)
        | none => s.src
      stamp := if c = .touch ∧ (e.ok || e.effect) then Function.update s.stamp n true else s.stamp
      copies := c.keeps n e s }, c.ok n e s)

/-! ## Runs -/

variable (A : Text → Text → Addresses)

/-- The lines of cmd_download for `n`, and the variables it leaves. -/
def dwlLines (o : DwlOptions) (c : DwlVars) (s : Downloads) : DwlVars × List DwlCmd :=
  cmdDownload o (fun f => (s.copies f).isSome) (A n (s.version n)) n (s.version n) c

/-- The rule for the stamp of `n`. The variable `sprj-version` in its test is set in
other makes only. -/
def dwlRule (o : DwlOptions) (c : DwlVars) (es : List DwlEvent) (s : Downloads) :
    DwlVars × Outcome Downloads DwlEvent :=
  if s.stamp n then (c, ⟨s, true, es⟩)
  else if (s.src n).isSome then (c, runLines [DwlCmd.touch.line n] es s)
  else ((dwlLines n A o c s).1,
    runLines (((dwlLines n A o c s).2 ++ [DwlCmd.touch]).map (DwlCmd.line n)) es s)

/-- A run over the names of `download-y`. -/
def download (o : DwlOptions) :
    List Text → DwlVars → List DwlEvent → Downloads → Outcome Downloads DwlEvent
  | [], _, es, s => ⟨s, true, es⟩
  | n :: ns, c, es, s =>
    let r := dwlRule n A o c es s
    if r.2.ok then download o ns r.1 r.2.rest r.2.state else r.2

/-- What happens to a source tree. -/
inductive DwlStep
  /-- The version of a project is edited ; the addresses follow. -/
  | edit (name version : Text)
  /-- A run of `make download`. -/
  | run (o : DwlOptions) (es : List DwlEvent)

/-- One step, with the names of `download-y`. -/
def dwlStep (names : List Text) (s : Downloads) : DwlStep → Downloads
  | .edit n v => { s with version := Function.update s.version n v }
  | .run o es => (download A o names .unset es s).state

/-- The directory configure-project picks : `sprj-src`. -/
def sprjSrc (s : Downloads) : Option Fetched :=
  (s.src (dirOf n (s.version n))).or (s.src n)

/-- What configure-project picks is the complete source of the configured version. -/
def HasSource (s : Downloads) : Prop := sprjSrc n s = some ⟨n, s.version n, true⟩

instance (s : Downloads) : Decidable (HasSource n s) :=
  inferInstanceAs (Decidable (_ = _))

/-! ## Sound steps -/

/-- A line that is no danger to what is there. Whatever a fetch leaves is of the project
and the version configured, and stands where no other name looks ; under the plain name
it is complete, and no versioned directory is in its way. A rule with no source to
fetch, or one that cvs puts elsewhere, does not succeed. -/
def DwlCmd.Sound (names : List Text) (c : DwlCmd) (e : DwlEvent) (s : Downloads) : Prop :=
  (∀ left ∈ c.leaves n e s,
    left.2.name = n ∧ left.2.version = s.version n ∧
    (left.1 = n → left.2.whole ∧ s.src (dirOf n (s.version n)) = none) ∧
    ∀ m ∈ names, m ≠ n → left.1 ≠ m ∧ left.1 ≠ dirOf m (s.version m)) ∧
  match c with
  | .notFound => e.ok = false
  | .cvsCheckout _ => e.ok = false
  | _ => True

instance (names : List Text) (c : DwlCmd) (e : DwlEvent) (s : Downloads) :
    Decidable (c.Sound n names e s) := by
  unfold DwlCmd.Sound
  cases c <;> infer_instance

/-- All lines of the rule for `n` are sound. -/
def RuleSound (names : List Text) (o : DwlOptions) (c : DwlVars) (es : List DwlEvent)
    (s : Downloads) : Prop :=
  s.stamp n = false → s.src n = none →
    LinesMeet (DwlCmd.Sound n names) (DwlCmd.line n) ((dwlLines n A o c s).2 ++ [.touch]) es s

instance (names : List Text) (o : DwlOptions) (c : DwlVars) (es : List DwlEvent)
    (s : Downloads) : Decidable (RuleSound n A names o c es s) :=
  inferInstanceAs (Decidable (_ → _ → _))

/-- All rules of a run are sound. -/
def RunSound (names : List Text) (o : DwlOptions) :
    List Text → DwlVars → List DwlEvent → Downloads → Prop
  | [], _, _, _ => True
  | n :: ns, c, es, s =>
    let r := dwlRule n A o c es s
    RuleSound n A names o c es s ∧ (r.2.ok → RunSound names o ns r.1 r.2.rest r.2.state)

instance decidableRunSound (names : List Text) (o : DwlOptions) :
    ∀ ns c es s, Decidable (RunSound A names o ns c es s)
  | [], _, _, _ => isTrue trivial
  | n :: ns, c, es, s =>
    have : Decidable (RunSound A names o ns (dwlRule n A o c es s).1
        (dwlRule n A o c es s).2.rest (dwlRule n A o c es s).2.state) :=
      decidableRunSound names o ns _ _ _
    inferInstanceAs (Decidable (RuleSound n A names o c es s ∧ ((dwlRule n A o c es s).2.ok →
      RunSound A names o ns (dwlRule n A o c es s).1 (dwlRule n A o c es s).2.rest
        (dwlRule n A o c es s).2.state)))

/-- A version is edited before anything is fetched, or to one that is there already. -/
def EditSound (n v : Text) (s : Downloads) : Prop :=
  (s.stamp n = false ∧ s.src n = none) ∨
    HasSource n { s with version := Function.update s.version n v }

instance (n v : Text) (s : Downloads) : Decidable (EditSound n v s) :=
  inferInstanceAs (Decidable (_ ∨ _))

/-- Every step is sound in the state it starts from. -/
def StepsSound (names : List Text) : List DwlStep → Downloads → Prop
  | [], _ => True
  | .edit n v :: steps, s =>
    EditSound n v s ∧ StepsSound names steps (dwlStep A names s (.edit n v))
  | .run o es :: steps, s =>
    RunSound A names o names .unset es s ∧ StepsSound names steps (dwlStep A names s (.run o es))

instance decidableStepsSound (names : List Text) :
    ∀ steps s, Decidable (StepsSound A names steps s)
  | [], _ => isTrue trivial
  | .edit n v :: steps, s =>
    have := decidableStepsSound names steps (dwlStep A names s (.edit n v))
    inferInstanceAs (Decidable (EditSound n v s ∧ _))
  | .run o es :: steps, s =>
    have := decidableStepsSound names steps (dwlStep A names s (.run o es))
    inferInstanceAs (Decidable (RunSound A names o names .unset es s ∧ _))

/-! ## What sound steps keep -/

/-- Where there is a stamp, or something under the plain name, there is the source. -/
def Stamped (names : List Text) (s : Downloads) : Prop :=
  ∀ m ∈ names, s.stamp m ∨ (s.src m).isSome → HasSource m s

section Sound

variable {n A} {names : List Text}

theorem dirOf_ne (n v : Text) : dirOf n v ≠ n := fun h => by
  have hlen := congrArg List.length h
  simp [dirOf] at hlen

theorem line_version (c : DwlCmd) (e : DwlEvent) (s : Downloads) :
    (c.line n e s).1.version = s.version := rfl

/-- A line writes to one place of the source directory at most. -/
theorem line_src_of_ne {c : DwlCmd} {e : DwlEvent} {s : Downloads} {place : Text}
    (h : ∀ t, c.leaves n e s ≠ some (place, t)) : (c.line n e s).1.src place = s.src place := by
  cases hl : c.leaves n e s with
  | none => simp [DwlCmd.line, hl]
  | some pt =>
    have hp : place ≠ pt.1 := fun hp => h pt.2 (by rw [hl, hp])
    simp [DwlCmd.line, hl, hp]

theorem line_src_of_leaves {c : DwlCmd} {e : DwlEvent} {s : Downloads} {place : Text}
    {t : Fetched} (h : c.leaves n e s = some (place, t)) :
    (c.line n e s).1.src place = some t := by
  simp [DwlCmd.line, h]

/-- A sound line does not touch the source of another project. -/
theorem hasSource_line_iff {c : DwlCmd} {e : DwlEvent} {s : Downloads}
    (hc : c.Sound n names e s) {m : Text} (hm : m ∈ names) (hmn : m ≠ n) :
    (c.line n e s).1.src m = s.src m ∧ (HasSource m (c.line n e s).1 ↔ HasSource m s) := by
  have h₁ : (c.line n e s).1.src m = s.src m :=
    line_src_of_ne fun t ht => ((hc.1 (m, t) ht).2.2.2 m hm hmn).1 rfl
  have h₂ : (c.line n e s).1.src (dirOf m (s.version m)) = s.src (dirOf m (s.version m)) :=
    line_src_of_ne fun t ht => ((hc.1 (_, t) ht).2.2.2 m hm hmn).2 rfl
  refine ⟨h₁, ?_⟩
  rw [HasSource, HasSource, sprjSrc, sprjSrc, line_version, h₁, h₂]

/-- What the project `n` has once its fetch has left something under its plain name. -/
theorem hasSource_of_leaves_plain {c : DwlCmd} {e : DwlEvent} {s : Downloads} {t : Fetched}
    (hc : c.Sound n names e s) (hl : c.leaves n e s = some (n, t)) :
    HasSource n (c.line n e s).1 := by
  obtain ⟨hn, hv, hplain, -⟩ := hc.1 (n, t) hl
  obtain ⟨hw, hdir⟩ := hplain rfl
  have h₁ : (c.line n e s).1.src (dirOf n (s.version n)) = none := by
    rw [line_src_of_ne fun t' ht' => dirOf_ne n (s.version n) ?_, hdir]
    rw [hl, Option.some.injEq, Prod.mk.injEq] at ht'
    exact ht'.1.symm
  rw [HasSource, sprjSrc, line_version, h₁, line_src_of_leaves hl]
  obtain ⟨tn, tv, tw⟩ := t
  simp_all

/-- The fetch of a source : the last line of cmd_download. -/
def DwlCmd.Fetches : DwlCmd → Prop
  | .echo => False
  | .notFound => False
  | .touch => False
  | _ => True

/-- A sound fetch that succeeds has fetched the source. -/
theorem hasSource_of_fetch {f : DwlCmd} (hf : f.Fetches) {e : DwlEvent} {s : Downloads}
    (hs : f.Sound n names e s) (hok : f.ok n e s) : HasSource n (f.line n e s).1 := by
  cases f with
  | unpack k r =>
    have hl : DwlCmd.leaves n e s (.unpack k r) =
        some (dirOf (r.stream n e s).name (r.stream n e s).version, r.stream n e s) := by
      simp [DwlCmd.leaves, hok]
    obtain ⟨hn, hv, -, -⟩ := hs.1 _ hl
    have hw : (r.stream n e s).whole := by
      simp only [DwlCmd.ok, Bool.and_eq_true] at hok
      exact hok.2
    have hsrc := line_src_of_leaves hl
    rw [hn, hv] at hsrc
    rw [HasSource, sprjSrc, line_version, hsrc, Option.some_or, Option.some.injEq]
    generalize r.stream n e s = t at hn hv hw
    obtain ⟨tn, tv, tw⟩ := t
    simp_all
  | save r => exact hasSource_of_leaves_plain hs (if_pos hok)
  | gitClone url branch => exact hasSource_of_leaves_plain hs (if_pos hok)
  | hgClone url => exact hasSource_of_leaves_plain hs (if_pos hok)
  | cvsCheckout url =>
    have hfail : e.ok = false := hs.2
    exact absurd hok (by simp [DwlCmd.ok, hfail])
  | echo => exact hf.elim
  | notFound => exact hf.elim
  | touch => exact hf.elim

theorem line_stamp_of_fetch {f : DwlCmd} (hf : f.Fetches) (e : DwlEvent) (s : Downloads) :
    (f.line n e s).1.stamp = s.stamp := by
  have : f ≠ .touch := fun h => by simp [h, DwlCmd.Fetches] at hf
  simp [DwlCmd.line, this]

theorem line_stamp_of_ne {c : DwlCmd} {e : DwlEvent} {s : Downloads} {m : Text} (h : m ≠ n) :
    (c.line n e s).1.stamp m = s.stamp m := by
  simp only [DwlCmd.line]
  split_ifs
  · exact Function.update_of_ne h ..
  · rfl

/-- A sound fetch keeps the invariant, wherever it stops. -/
theorem stamped_fetch {f : DwlCmd} (hf : f.Fetches) {e : DwlEvent} {s : Downloads}
    (hs : f.Sound n names e s) (hstamp : s.stamp n = false) (hsrc : s.src n = none)
    (hi : Stamped names s) : Stamped names (f.line n e s).1 := by
  intro m hm h
  by_cases hmn : m = n
  · subst hmn
    rw [line_stamp_of_fetch hf, hstamp] at h
    by_cases hl : ∃ t, f.leaves m e s = some (m, t)
    · obtain ⟨t, ht⟩ := hl
      exact hasSource_of_leaves_plain hs ht
    · rw [line_src_of_ne fun t ht => hl ⟨t, ht⟩, hsrc] at h
      simp at h
  · obtain ⟨h₁, h₂⟩ := hasSource_line_iff hs hm hmn
    rw [line_stamp_of_ne hmn, h₁] at h
    exact h₂.mpr (hi m hm h)

theorem stamped_touch {e : DwlEvent} {s : Downloads} (hn : HasSource n s)
    (hi : Stamped names s) : Stamped names (DwlCmd.touch.line n e s).1 := by
  intro m hm h
  have hsame : HasSource m (DwlCmd.touch.line n e s).1 ↔ HasSource m s := Iff.rfl
  rw [hsame]
  by_cases hmn : m = n
  · exact hmn ▸ hn
  · rw [line_stamp_of_ne hmn] at h
    exact hi m hm h

/-! ## Rules and runs -/

/-- The lines of cmd_download : some that fetch nothing, and a fetch. Without the fetch
one of them says that nothing was found. -/
theorem exists_fetch (n : Text) (A : Text → Text → Addresses) (o : DwlOptions) (c : DwlVars)
    (s : Downloads) : ∃ pre fetch, (dwlLines n A o c s).2 = pre ++ fetch ∧
      (∀ d ∈ pre, d = .echo ∨ d = .notFound) ∧
      (fetch = [] ∧ .notFound ∈ pre ∨ ∃ f, fetch = [f] ∧ f.Fetches) := by
  generalize hsel : selectDownload (A n (s.version n))
    { c with target := n, version := s.version n } = sel
  refine ⟨_, fetchCmd o (fun f => (s.copies f).isSome) sel.1, by rw [dwlLines, cmdDownload, hsel],
    ?_, ?_⟩
  · intro d hd
    rcases List.mem_append.mp hd with hd | hd
    · split_ifs at hd
      · simp at hd
      · exact .inr (List.mem_singleton.mp hd)
    · split_ifs at hd
      · exact .inl (List.mem_singleton.mp hd)
      · simp at hd
  · cases hcmd : sel.1.cmd with
    | none =>
      refine .inl ⟨by simp [fetchCmd, hcmd], ?_⟩
      have hfound : sel.2 = false := by
        unfold selectDownload at hsel
        split_ifs at hsel <;> subst hsel <;> first | rfl | simp at hcmd
      simp [hfound]
    | some m =>
      refine .inr ?_
      cases m with
      | url =>
        unfold fetchCmd
        rw [hcmd]
        cases archive sel.1.url with
        | none => exact ⟨_, rfl, trivial⟩
        | some k => exact ⟨_, rfl, trivial⟩
      | git => exact ⟨.gitClone sel.1.url sel.1.version, by rw [fetchCmd, hcmd], trivial⟩
      | hg => exact ⟨.hgClone sel.1.url, by rw [fetchCmd, hcmd], trivial⟩
      | cvs => exact ⟨.cvsCheckout sel.1.url, by rw [fetchCmd, hcmd], trivial⟩

theorem runLines_touch {es : List DwlEvent} {s : Downloads} (hn : HasSource n s)
    (hi : Stamped names s) : Stamped names (runLines [DwlCmd.touch.line n] es s).state ∧
      ((runLines [DwlCmd.touch.line n] es s).ok →
        (runLines [DwlCmd.touch.line n] es s).state.stamp n) := by
  cases es with
  | nil => exact ⟨hi, fun h => by simp [runLines] at h⟩
  | cons e es =>
    have htouch := stamped_touch (e := e) hn hi
    refine ⟨?_, fun h => ?_⟩
    · rw [runLines]
      split_ifs <;> exact htouch
    · have he : e.ok = true := by
        by_contra he
        simp [runLines, DwlCmd.line, DwlCmd.ok, he] at h
      simp [runLines, DwlCmd.line, DwlCmd.ok, he]

/-- A sound rule keeps the invariant, and one that succeeds leaves the stamp. -/
theorem stamped_dwlRule {o : DwlOptions} {c : DwlVars} {es : List DwlEvent} {s : Downloads}
    (hn : n ∈ names) (hs : RuleSound n A names o c es s) (hi : Stamped names s) :
    Stamped names (dwlRule n A o c es s).2.state ∧
      ((dwlRule n A o c es s).2.ok → (dwlRule n A o c es s).2.state.stamp n) := by
  unfold dwlRule
  split_ifs with hstamp hsrc
  · exact ⟨hi, fun _ => hstamp⟩
  · exact runLines_touch (hi n hn (.inr hsrc)) hi
  rw [Bool.not_eq_true] at hstamp
  rw [Option.not_isSome_iff_eq_none] at hsrc
  have hmeet := hs hstamp hsrc
  obtain ⟨pre, fetch, hlines, hpre, hfetch⟩ := exists_fetch n A o c s
  dsimp only
  rw [hlines, List.append_assoc, linesMeet_append] at hmeet
  rw [hlines, List.append_assoc, List.map_append, runLines_append]
  -- nothing changes before the fetch
  have hsame : (runLines (pre.map (DwlCmd.line n)) es s).state = s := by
    refine runLines_inv (I := (· = s)) (fun l hl e t ht => ?_) es rfl
    obtain ⟨d, hd, rfl⟩ := List.mem_map.mp hl
    rcases hpre d hd with rfl | rfl <;> simpa [DwlCmd.line, DwlCmd.leaves, DwlCmd.keeps] using ht
  by_cases hok : (runLines (pre.map (DwlCmd.line n)) es s).ok
  · rw [andThen_of_ok hok]
    have hmeet' := hmeet.2 hok
    rw [hsame] at hmeet' ⊢
    rcases hfetch with ⟨-, hnf⟩ | ⟨f, rfl, hf⟩
    · obtain ⟨e, t, hsound, he⟩ := hmeet.1.exists_of_ok hok _ hnf
      exact absurd he (by simp [DwlCmd.line, DwlCmd.ok, hsound.2])
    · generalize (runLines (pre.map (DwlCmd.line n)) es s).rest = es' at hmeet'
      cases es' with
      | nil => exact ⟨hi, fun h => by simp [runLines] at h⟩
      | cons e es' =>
        have hsound : f.Sound n names e s := hmeet'.1
        have hfetched := stamped_fetch hf hsound hstamp hsrc hi
        by_cases hokf : f.ok n e s
        · have h : runLines (([f] ++ [DwlCmd.touch]).map (DwlCmd.line n)) (e :: es') s =
              runLines [DwlCmd.touch.line n] es' (f.line n e s).1 := if_pos hokf
          rw [h]
          exact runLines_touch (hasSource_of_fetch hf hsound hokf) hfetched
        · have h : runLines (([f] ++ [DwlCmd.touch]).map (DwlCmd.line n)) (e :: es') s =
              ⟨(f.line n e s).1, false, es'⟩ := if_neg hokf
          rw [h]
          exact ⟨hfetched, fun h => absurd h (by simp)⟩
  · rw [andThen_of_not_ok (by simpa using hok), hsame]
    exact ⟨hi, fun h => absurd h hok⟩

/-- No line takes a stamp back. -/
theorem stamp_dwlRule {o : DwlOptions} {c : DwlVars} {es : List DwlEvent} {s : Downloads}
    {m : Text} (h : s.stamp m) : (dwlRule n A o c es s).2.state.stamp m := by
  have hlines : ∀ cmds : List DwlCmd,
      (runLines (cmds.map (DwlCmd.line n)) es s).state.stamp m := by
    intro cmds
    refine runLines_inv (I := fun t : Downloads => t.stamp m) (fun l hl e t ht => ?_) es h
    obtain ⟨d, -, rfl⟩ := List.mem_map.mp hl
    simp only [DwlCmd.line]
    split_ifs
    · by_cases hmn : m = n <;> simp [hmn, ht]
    · exact ht
  unfold dwlRule
  split_ifs
  · exact h
  · exact hlines [.touch]
  · exact hlines _

/-- A sound run keeps the invariant, and one that succeeds leaves every stamp. -/
theorem stamped_download {o : DwlOptions} {ns : List Text} (hns : ∀ n ∈ ns, n ∈ names)
    {c : DwlVars} {es : List DwlEvent} {s : Downloads} (hs : RunSound A names o ns c es s)
    (hi : Stamped names s) : Stamped names (download A o ns c es s).state ∧
      ((download A o ns c es s).ok → ∀ m, s.stamp m ∨ m ∈ ns →
        (download A o ns c es s).state.stamp m) := by
  induction ns generalizing c es s with
  | nil => exact ⟨hi, fun _ m hm => hm.resolve_right (by simp)⟩
  | cons n ns ih =>
    obtain ⟨hrule, hrest⟩ := hs
    obtain ⟨hstamped, hstamp⟩ := stamped_dwlRule (hns n (by simp)) hrule hi
    rw [download]
    split_ifs with hok
    · obtain ⟨h₁, h₂⟩ := ih (fun m hm => hns m (by simp [hm])) (hrest hok) hstamped
      refine ⟨h₁, fun hok' m hm => h₂ hok' m ?_⟩
      rcases hm with hm | hm
      · exact .inl (stamp_dwlRule hm)
      · rcases List.mem_cons.mp hm with rfl | hm
        · exact .inl (hstamp hok)
        · exact .inr hm
    · exact ⟨hstamped, fun h => absurd h hok⟩

theorem stamped_edit {n v : Text} {s : Downloads} (he : EditSound n v s)
    (hi : Stamped names s) : Stamped names (dwlStep A names s (.edit n v)) := by
  intro m hm h
  by_cases hmn : m = n
  · subst hmn
    rcases he with ⟨h₁, h₂⟩ | he
    · exact absurd h (by simp [dwlStep, h₁, h₂])
    · exact he
  · have hv : (dwlStep A names s (.edit n v)).version m = s.version m :=
      Function.update_of_ne hmn ..
    rw [HasSource, sprjSrc, hv]
    exact hi m hm h

theorem stamped_steps {steps : List DwlStep} {s : Downloads} (hs : StepsSound A names steps s)
    (hi : Stamped names s) : Stamped names (steps.foldl (dwlStep A names) s) := by
  induction steps generalizing s with
  | nil => exact hi
  | cons step steps ih =>
    cases step with
    | edit n v => exact ih hs.2 (stamped_edit hs.1 hi)
    | run o es => exact ih hs.2 (stamped_download (fun _ h => h) hs.1 hi).1

/-- A source tree in which nothing has been fetched. -/
def Downloads.fresh (version : Text → Text) (copies : Text → Option Fetched) : Downloads :=
  ⟨version, fun _ => none, fun _ => false, copies⟩

/-- After any sound steps, a sound run that succeeds leaves the source of every project
in the version it is configured to. -/
theorem source_of_ok {version : Text → Text} {copies : Text → Option Fetched}
    {steps : List DwlStep} (hs : StepsSound A names steps (.fresh version copies))
    {o : DwlOptions} {es : List DwlEvent}
    (hr : RunSound A names o names .unset es
      (steps.foldl (dwlStep A names) (.fresh version copies)))
    (hok : (download A o names .unset es
      (steps.foldl (dwlStep A names) (.fresh version copies))).ok) :
    ∀ n ∈ names, HasSource n (download A o names .unset es
      (steps.foldl (dwlStep A names) (.fresh version copies))).state := by
  have hi : Stamped names (.fresh version copies) := fun m _ h =>
    absurd h (by simp [Downloads.fresh])
  obtain ⟨h₁, h₂⟩ := stamped_download (fun _ h => h) hr (stamped_steps hs hi)
  exact fun n hn => h₁ n hn (.inl (h₂ hok n (.inr hn)))

/-- Where busybox is fetched from. -/
def testAddresses (name version : Text) : Addresses where
  url := lit "http://busybox.net/downloads/" ++ name ++ '-' :: version ++ lit ".tar.bz2"
  git := []
  hg := []
  cvs := []

def testOptions : DwlOptions := ⟨lit "Download", lit "n", false⟩

/-- A source tree with busybox in version 1.20.0, and nothing fetched. -/
def testFresh : Downloads := .fresh (fun _ => lit "1.20.0") fun _ => none

theorem source_of_ok_busybox :
    HasSource (lit "busybox") (download testAddresses testOptions [lit "busybox"] .unset
      [⟨true, true, true⟩, ⟨true, true, true⟩] (List.foldl (dwlStep testAddresses [lit "busybox"])
        testFresh [.edit (lit "busybox") (lit "1.21.0"),
          .run testOptions [⟨true, false, true⟩]])).state :=
  source_of_ok (by decide +kernel) (by decide +kernel) (by decide +kernel) (lit "busybox")
    (List.mem_singleton_self _)

/-- The version is edited behind the stamp : the next run does nothing and succeeds, and
configure-project finds no source of the new version. -/
theorem not_source_edited :
    ¬∀ (A : Text → Text → Addresses) (names : List Text) (version : Text → Text)
      (copies : Text → Option Fetched) (steps : List DwlStep) (o : DwlOptions)
      (es : List DwlEvent),
      (download A o names .unset es (steps.foldl (dwlStep A names) (.fresh version copies))).ok →
        ∀ n ∈ names, HasSource n (download A o names .unset es
          (steps.foldl (dwlStep A names) (.fresh version copies))).state := fun h =>
  absurd (h testAddresses [lit "busybox"] (fun _ => lit "1.20.0") (fun _ => none)
    [.run testOptions [⟨true, true, true⟩, ⟨true, true, true⟩],
      .edit (lit "busybox") (lit "1.21.0")] testOptions [] (by decide +kernel)
    (lit "busybox") (by simp)) (by decide +kernel)

end Sound

end Makeroot
