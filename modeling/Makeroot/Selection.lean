import Makeroot.Download

/-!
# Which names are downloaded, and how

scripts/Makefile puts a name on `download-y` if it has an address of a kind that its list is
asked about : a `-url`, or a `-git` for a sub-project. cmd_download goes by the version of
the name and knows four kinds. `downloadsAgree_iff` : they agree just in case no name has
only an address that is not asked about, and the two lists of host programs, which are
written side by side, do not run into one another.

cmd_download leaves its choice in global variables. `ownDownload_iff` : what is fetched for a
name does not depend on the names before it, and a name without an address is refused, just
in case there is an address.
-/

namespace Makeroot

open GnuMake

/-! ## The lists of scripts/Makefile -/

/-- What scripts/Makefile finds : the lists of a directory, what is on `download-y` already,
and the variables of the names. -/
structure DirectoryVars where
  hostprogsY : Text
  hostprogsM : Text
  toolchainY : Text
  subprojectY : Text
  subprojectM : Text
  downloadY : Text
  addresses : Text → Addresses
  version : Text → Text

namespace DirectoryVars

variable (v : DirectoryVars)

/-- What the host programs add. -/
def hostDownloads : Text :=
  foreach (fun prog => if (v.addresses prog).url ≠ [] then prog else [])
    (v.hostprogsY ++ v.hostprogsM)

/-- What the toolchain adds. -/
def toolchainDownloads : Text :=
  foreach (fun prog => if (v.addresses prog).url ≠ [] then prog else []) v.toolchainY

/-- What the sub-projects add. -/
def subprojectDownloads : Text :=
  foreach (fun prog => if (v.addresses prog).url ≠ [] then prog
    else if (v.addresses prog).git ≠ [] then prog else []) (v.subprojectY ++ ' ' :: v.subprojectM)

/-- `download-y` after the three rules. -/
def allDownloads : Text :=
  let host := if v.hostprogsY ++ v.hostprogsM ≠ [] then appendVar v.downloadY v.hostDownloads
    else v.downloadY
  let toolchain := appendVar host v.toolchainDownloads
  if v.subprojectY ++ ' ' :: v.subprojectM ≠ [] then appendVar toolchain v.subprojectDownloads
  else toolchain

/-- The names on the lists. -/
def subprojects : List Text := words v.subprojectY ++ words v.subprojectM

def listed : List Text :=
  words v.hostprogsY ++ words v.hostprogsM ++ words v.toolchainY ++ v.subprojects

/-- The address cmd_download chooses for a name. -/
def chosen (n : Text) : Text :=
  (selectDownload (v.addresses n)
    { DwlVars.unset with target := n, version := v.version (notdir n) }).1.url

/-- Every listed name that something is fetched for is on `download-y`, and every name that
the rules put there is listed. -/
structure DownloadsAgree : Prop where
  scheduled : ∀ n ∈ v.listed, v.chosen n ≠ [] → n ∈ words v.allDownloads
  listed : ∀ n, n ∈ words v.hostDownloads ∨ n ∈ words v.toolchainDownloads ∨
    n ∈ words v.subprojectDownloads → n ∈ v.listed

/-- A name that something is fetched for has an address its list is asked about. Where the
last program of `hostprogs-y` and the first of `hostprogs-m` are read as one name, they are
on a list in another place too, and the one name is listed or has no address. -/
structure Asked : Prop where
  address : ∀ n ∈ v.listed, v.chosen n ≠ [] → n ∈ words v.downloadY ∨
    (v.addresses n).url ≠ [] ∨ (n ∈ v.subprojects ∧ (v.addresses n).git ≠ [])
  seam : Joined v.hostprogsY v.hostprogsM → ∀ ys a b ms,
    words v.hostprogsY = ys ++ [a] → words v.hostprogsM = b :: ms →
    ((v.addresses (a ++ b)).url ≠ [] → a ++ b ∈ v.listed) ∧
    ∀ n, n = a ∨ n = b → v.chosen n ≠ [] →
      n ∈ words v.downloadY ++ ys ++ ms ++ words v.toolchainY ++ v.subprojects

theorem words_subprojects : words (v.subprojectY ++ ' ' :: v.subprojectM) = v.subprojects :=
  words_append_space _ _ (by decide)

theorem mem_hostDownloads {n : Text} : n ∈ words v.hostDownloads ↔
    n ∈ words (v.hostprogsY ++ v.hostprogsM) ∧ (v.addresses n).url ≠ [] :=
  mem_foreach_if

theorem mem_toolchainDownloads {n : Text} : n ∈ words v.toolchainDownloads ↔
    n ∈ words v.toolchainY ∧ (v.addresses n).url ≠ [] :=
  mem_foreach_if

theorem mem_subprojectDownloads {n : Text} : n ∈ words v.subprojectDownloads ↔
    n ∈ v.subprojects ∧ ((v.addresses n).url ≠ [] ∨ (v.addresses n).git ≠ []) := by
  have h : v.subprojectDownloads = foreach (fun prog =>
      if (v.addresses prog).url ≠ [] ∨ (v.addresses prog).git ≠ [] then prog else [])
      (v.subprojectY ++ ' ' :: v.subprojectM) := by
    unfold subprojectDownloads
    congr 1
    funext prog
    by_cases hu : (v.addresses prog).url ≠ [] <;> simp [hu]
  rw [h, mem_foreach_if, words_subprojects]

theorem mem_allDownloads {n : Text} : n ∈ words v.allDownloads ↔ n ∈ words v.downloadY ∨
    n ∈ words v.hostDownloads ∨ n ∈ words v.toolchainDownloads ∨
    n ∈ words v.subprojectDownloads := by
  unfold allDownloads
  by_cases h : v.hostprogsY ++ v.hostprogsM = []
  · have hnone : words v.hostDownloads = [] := by
      simp [hostDownloads, h, foreach, unwords]
    simp [h, hnone]
  · simp [h]

/-- The names of host programs that are asked for. -/
theorem mem_hostprogs {n : Text} (h : ¬Joined v.hostprogsY v.hostprogsM) :
    n ∈ words (v.hostprogsY ++ v.hostprogsM) ↔ n ∈ words v.hostprogsY ∨ n ∈ words v.hostprogsM := by
  rw [words_append_of_not_joined h, List.mem_append]

/-- A name with a `-url` that make reads on a list is downloaded. -/
theorem mem_of_url {n : Text} (hu : (v.addresses n).url ≠ [])
    (h : n ∈ words (v.hostprogsY ++ v.hostprogsM) ∨ n ∈ words v.toolchainY ∨ n ∈ v.subprojects) :
    n ∈ words v.allDownloads := by
  rw [mem_allDownloads, mem_hostDownloads, mem_toolchainDownloads, mem_subprojectDownloads]
  rcases h with h | h | h
  · exact .inr (.inl ⟨h, hu⟩)
  · exact .inr (.inr (.inl ⟨h, hu⟩))
  · exact .inr (.inr (.inr ⟨h, .inl hu⟩))

/-- The downloads agree just in case every address is asked about. -/
theorem downloadsAgree_iff : v.DownloadsAgree ↔ v.Asked := by
  constructor
  · intro h
    refine ⟨fun n hn hc => ?_, fun hj ys a b ms hy hm => ?_⟩
    · rcases v.mem_allDownloads.mp (h.scheduled n hn hc) with hd | hd | hd | hd
      · exact .inl hd
      · exact .inr (.inl (v.mem_hostDownloads.mp hd).2)
      · exact .inr (.inl (v.mem_toolchainDownloads.mp hd).2)
      · obtain ⟨hs, hu | hg⟩ := v.mem_subprojectDownloads.mp hd
        · exact .inr (.inl hu)
        · exact .inr (.inr ⟨hs, hg⟩)
    · obtain ⟨ys', a', b', ms', hy', hm', hym⟩ := words_append_of_joined hj
      obtain ⟨rfl, ha⟩ := List.append_inj' (hy.symm.trans hy') rfl
      obtain ⟨rfl, rfl⟩ := List.cons.inj (hm.symm.trans hm')
      obtain rfl : a = a' := by simpa using ha
      constructor
      · exact fun hu => h.listed _ (.inl (v.mem_hostDownloads.mpr ⟨by simp [hym], hu⟩))
      · intro n hn hc
        have hab : n ≠ a ++ b := by
          have ha₀ := (mem_words (t := v.hostprogsY) (w := a) (by simp [hy])).1
          have hb₀ := (mem_words (t := v.hostprogsM) (w := b) (by simp [hm])).1
          rcases hn with rfl | rfl <;> simp [ha₀, hb₀]
        have hlisted : n ∈ v.listed := by
          rcases hn with rfl | rfl <;> simp [listed, hy, hm]
        rcases v.mem_allDownloads.mp (h.scheduled n hlisted hc) with hd | hd | hd | hd
        · simp [hd]
        · have := (v.mem_hostDownloads.mp hd).1
          rw [hym] at this
          simp only [List.mem_append, List.mem_cons, hab, false_or] at this
          rcases this with hd | hd <;> simp [hd]
        · simp [(v.mem_toolchainDownloads.mp hd).1]
        · simp [(v.mem_subprojectDownloads.mp hd).1]
  · intro h
    constructor
    · intro n hn hc
      rcases h.address n hn hc with hd | hu | ⟨hs, hg⟩
      · exact v.mem_allDownloads.mpr (.inl hd)
      · simp only [listed, List.mem_append] at hn
        rcases hn with (hprog | ht) | hs
        · by_cases hj : Joined v.hostprogsY v.hostprogsM
          · obtain ⟨ys, a, b, ms, hy, hm, hym⟩ := words_append_of_joined hj
            rw [hy, hm, List.mem_append, List.mem_singleton, List.mem_cons] at hprog
            have hseam : n = a ∨ n = b → n ∈ words v.allDownloads := fun hab => by
              have := (h.seam hj ys a b ms hy hm).2 n hab hc
              simp only [List.mem_append] at this
              rcases this with (((hd | hd) | hd) | hd) | hd
              · exact v.mem_allDownloads.mpr (.inl hd)
              · exact v.mem_of_url hu (.inl (by simp [hym, hd]))
              · exact v.mem_of_url hu (.inl (by simp [hym, hd]))
              · exact v.mem_of_url hu (.inr (.inl hd))
              · exact v.mem_of_url hu (.inr (.inr hd))
            rcases hprog with (hp | hab) | hab | hp
            · exact v.mem_of_url hu (.inl (by simp [hym, hp]))
            · exact hseam (.inl hab)
            · exact hseam (.inr hab)
            · exact v.mem_of_url hu (.inl (by simp [hym, hp]))
          · exact v.mem_of_url hu (.inl ((v.mem_hostprogs hj).mpr hprog))
        · exact v.mem_of_url hu (.inr (.inl ht))
        · exact v.mem_of_url hu (.inr (.inr hs))
      · exact v.mem_allDownloads.mpr
          (.inr (.inr (.inr (v.mem_subprojectDownloads.mpr ⟨hs, .inr hg⟩))))
    · rintro n (hd | hd | hd)
      · obtain ⟨hn, hu⟩ := v.mem_hostDownloads.mp hd
        by_cases hj : Joined v.hostprogsY v.hostprogsM
        · obtain ⟨ys, a, b, ms, hy, hm, hym⟩ := words_append_of_joined hj
          rw [hym, List.mem_append, List.mem_cons] at hn
          rcases hn with hn | rfl | hn
          · simp [listed, hy, hn]
          · exact (h.seam hj ys a b ms hy hm).1 hu
          · simp [listed, hm, hn]
        · rcases (v.mem_hostprogs hj).mp hn with hn | hn <;> simp [listed, hn]
      · simp [listed, (v.mem_toolchainDownloads.mp hd).1]
      · simp [listed, (v.mem_subprojectDownloads.mp hd).1]

/-- A sub-project with no address but that of a hg repository. -/
theorem not_downloadsAgree : ¬DownloadsAgree
    ⟨[], [], [], lit "ushare", [], [],
      fun _ => ⟨[], [], lit "http://hg.geexbox.org/ushare", []⟩, fun _ => lit "hg"⟩ := fun h => by
  have := h.scheduled (lit "ushare") (by decide +kernel) (by decide +kernel)
  revert this
  decide +kernel

end DirectoryVars

/-! ## One target after another -/

/-- An address for some method. -/
def Addresses.Some (a : Addresses) : Prop := a.url ≠ [] ∨ a.git ≠ [] ∨ a.hg ≠ [] ∨ a.cvs ≠ []

instance (a : Addresses) : Decidable a.Some := inferInstanceAs (Decidable (_ ∨ _))

section Sequence

variable (A : Text → Text → Addresses) (o : DwlOptions)

/-- The global variables after the rules for some targets, each run in a state of its own :
between two targets make may do anything else. -/
def varsAfter : List (Text × Downloads) → DwlVars
  | [] => .unset
  | (n, s) :: before => (dwlRule n A o (varsAfter before) [] s).1

/-- The method and the address of the command that is executed for a target. -/
def executed (n : Text) (c : DwlVars) (s : Downloads) : Option (Method × Text) :=
  if s.stamp n ∨ (s.src n).isSome then none
  else (dwlLines n A o c s).1.cmd.map fun m => (m, (dwlLines n A o c s).1.url)

end Sequence

/-- What is executed for a target whose source is to be fetched is a function of its own
variables, whatever the others are and whichever were processed before it, and without an
address nothing is executed and the rule fails. -/
structure OwnDownload (o : DwlOptions) (n version : Text) (a : Addresses) : Prop where
  own : ∃ command, ∀ (A : Text → Text → Addresses) (before : List (Text × Downloads))
    (s : Downloads), s.version n = version → A n version = a → s.stamp n = false →
    s.src n = none → executed A o n (varsAfter A o before) s = command
  refused : ¬a.Some → ∀ (A : Text → Text → Addresses) (before : List (Text × Downloads))
    (s : Downloads), s.version n = version → A n version = a → s.stamp n = false →
    s.src n = none → executed A o n (varsAfter A o before) s = none ∧
      ∀ es, (dwlRule n A o (varsAfter A o before) es s).2.ok = false

/-- With an address the choice does not go by what is left from other targets. -/
theorem selectDownload_of_some {a : Addresses} (h : a.Some) (c c' : DwlVars)
    (hc : c.version = c'.version) : (selectDownload a c).1.cmd = (selectDownload a c').1.cmd ∧
      (selectDownload a c).1.url = (selectDownload a c').1.url ∧
      ((selectDownload a c).1.cmd).isSome := by
  unfold selectDownload
  rw [hc]
  split_ifs with h₁ h₂ h₃ h₄ h₅ h₆ h₇
  all_goals try exact ⟨rfl, rfl, rfl⟩
  exact absurd h (by simp only [Addresses.Some]; tauto)

/-- Where no method is found, that of the last target stays. -/
theorem selectDownload_cmd (a : Addresses) (c : DwlVars) :
    (selectDownload a c).1.cmd = c.cmd ∧ (selectDownload a c).2 = false ∨
      ((selectDownload a c).1.cmd).isSome := by
  unfold selectDownload
  split_ifs
  all_goals first | exact .inr rfl | exact .inl ⟨rfl, rfl⟩

theorem executed_of_missing {A : Text → Text → Addresses} {o : DwlOptions} {n : Text}
    {c : DwlVars} {s : Downloads} (hs : s.stamp n = false) (hn : s.src n = none) :
    executed A o n c s =
      (selectDownload (A n (s.version n)) { c with target := n, version := s.version n }).1.cmd.map
        fun m => (m, (selectDownload (A n (s.version n))
          { c with target := n, version := s.version n }).1.url) := by
  rw [executed, if_neg (by simp [hs, hn])]
  rfl

/-- Nothing has been fetched. -/
def Downloads.bare (version : Text) : Downloads where
  version := fun _ => version
  src := fun _ => none
  stamp := fun _ => false
  copies := fun _ => none

/-- A target that is the first and has no address : `echo` and `touch`. -/
theorem dwlRule_notFound {A : Text → Text → Addresses} {o : DwlOptions} {n version : Text}
    (h : (selectDownload (A n version) ⟨n, version, [], none⟩).1.cmd = none)
    (hfound : (selectDownload (A n version) ⟨n, version, [], none⟩).2 = false) :
    (dwlRule n A o .unset [⟨true, true, true⟩, ⟨true, true, true⟩] (.bare version)).2.ok = true := by
  have hlines : (dwlLines n A o .unset (.bare version)).2 = [.notFound] := by
    change (if (selectDownload (A n version) ⟨n, version, [], none⟩).2 then [] else [.notFound]) ++
      (if o.quiet && (selectDownload (A n version) ⟨n, version, [], none⟩).1.cmd.isSome
        then [.echo] else []) ++ fetchCmd o _ (selectDownload (A n version) ⟨n, version, [], none⟩).1
      = _
    simp [h, hfound, fetchCmd]
  rw [dwlRule, if_neg (by simp [Downloads.bare]), if_neg (by simp [Downloads.bare]), hlines]
  rfl

/-- Targets are kept apart just in case they have an address. -/
theorem ownDownload_iff (o : DwlOptions) (n version : Text) (a : Addresses) :
    OwnDownload o n version a ↔ a.Some := by
  constructor
  · intro h
    by_contra ha
    obtain ⟨hex, hfail⟩ := h.refused ha (fun _ _ => a) [] (.bare version) rfl rfl rfl rfl
    rw [executed_of_missing rfl rfl, Option.map_eq_none_iff] at hex
    rcases selectDownload_cmd a ⟨n, version, [], none⟩ with ⟨hcmd, hfound⟩ | hsome
    · have := hfail [⟨true, true, true⟩, ⟨true, true, true⟩]
      rw [varsAfter, dwlRule_notFound hcmd hfound] at this
      cases this
    · change (selectDownload a ⟨n, version, [], none⟩).1.cmd = none at hex
      simp [hex] at hsome
  · intro ha
    refine ⟨⟨(selectDownload a ⟨n, version, [], none⟩).1.cmd.map fun m =>
      (m, (selectDownload a ⟨n, version, [], none⟩).1.url), ?_⟩, fun h => absurd ha h⟩
    intro A before s hv hA hs hn
    obtain ⟨hcmd, hurl, -⟩ := selectDownload_of_some ha
      { varsAfter A o before with target := n, version := version } ⟨n, version, [], none⟩ rfl
    rw [executed_of_missing hs hn, hv, hA, hcmd, hurl]

/-- A target without an address : when it is the first of a make, its stamp is touched. -/
theorem not_ownDownload : ¬OwnDownload ⟨lit "download", [], false⟩ (lit "ldd") []
    ⟨[], [], [], []⟩ := fun h => by
  have := (h.refused (by decide) (fun _ _ => ⟨[], [], [], []⟩) [] (.bare [])
    rfl rfl rfl rfl).2 [⟨true, true, true⟩, ⟨true, true, true⟩]
  revert this
  decide +kernel

end Makeroot
