import Makeroot.MakeText

/-!
# The host programs of scripts/host.mk

host.mk sorts the entries of `hostprogs-y` and `hostprogs-m` into lists of programs and
libraries, by the objects they are linked from and by whether they are installed, and
collects the objects that are to be compiled from some of these lists. A list is often used
before it is narrowed, or after : the objects of C++ programs and of shared libraries are
taken from the lists without the installed ones.

`covered_iff` : every object is compiled, and installing an entry does not change that, just
in case all that is lost is named again for something else.
-/

namespace Makeroot

open GnuMake

/-! ## host.mk -/

/-- `$(sort ws)`. -/
def sortWords (ws : List Text) : List Text := (ws.mergeSort fun a b => decide (a ≤ b)).dedup

@[simp] theorem mem_sortWords {w : Text} {ws : List Text} : w ∈ sortWords ws ↔ w ∈ ws := by
  simp [sortWords]

/-- `%.so`. -/
def Shared (w : Text) : Prop := lit ".so" <:+ w

/-- `%.a`. -/
def Static (w : Text) : Prop := lit ".a" <:+ w

/-- `%.pc`. -/
def Pkgconfig (w : Text) : Prop := lit ".pc" <:+ w

/-- `-l%`. -/
def LinkerOption (w : Text) : Prop := lit "-l" <+: w

instance (w : Text) : Decidable (Shared w) := inferInstanceAs (Decidable (_ <:+ _))
instance (w : Text) : Decidable (Static w) := inferInstanceAs (Decidable (_ <:+ _))
instance (w : Text) : Decidable (Pkgconfig w) := inferInstanceAs (Decidable (_ <:+ _))
instance (w : Text) : Decidable (LinkerOption w) := inferInstanceAs (Decidable (_ <+: _))

/-- The lists of a directory, and the variables `name-objs`, `name-cxxobjs` and
`name-install`. -/
structure HostVars where
  hostprogsY : Text
  hostprogsM : Text
  objs : Text → Text
  cxxobjs : Text → Text
  install : Text → Text

namespace HostVars

variable (v : HostVars)

/-- `$(hostprogs-y) $(hostprogs-m)`. -/
def entries : List Text := words v.hostprogsY ++ words v.hostprogsM

/-- `__hostlibs`. -/
def hostlibs : List Text := sortWords (v.entries.filter (Shared ·))

/-- `__hostprogs`, at first with the files of pkg-config. -/
def hostprogsPc : List Text := sortWords (v.entries.filter (¬Shared ·))

/-- `__hostprogs`. -/
def hostprogs : List Text := sortWords (v.hostprogsPc.filter (¬Pkgconfig ·))

/-- The names of a list that are installed. -/
def sdkPart (ms : List Text) : List Text := ms.filter (v.install · ≠ [])

/-- The names of a list that are not. -/
def hostPart (ms : List Text) : List Text := ms.filter (v.install · = [])

/-- `host-csingle`, before it is split. -/
def csingle : List Text := v.hostprogs.filter fun m => v.cxxobjs m = [] ∧ v.objs m = []

def sdkCsingle : List Text := v.sdkPart v.csingle
def hostCsingle : List Text := v.hostPart v.csingle

/-- `host-cmulti`, before it is split. -/
def cmulti : List Text := v.hostprogs.filter fun m => v.cxxobjs m = [] ∧ v.objs m ≠ []

def sdkCmulti : List Text := v.sdkPart v.cmulti
def hostCmulti : List Text := v.hostPart v.cmulti

/-- `host-cobjs`, before libraries and options are taken out. -/
def allCobjs : List Text := sortWords (v.hostprogs.flatMap fun m => words (v.objs m))

/-- `host-cxxmulti`, before it is split. -/
def cxxmulti : List Text := v.hostprogs.filter fun m => v.cxxobjs m ≠ []

def sdkCxxmulti : List Text := v.sdkPart v.cxxmulti
def hostCxxmulti : List Text := v.hostPart v.cxxmulti

/-- `host-cxxobjs`. -/
def hostCxxobjs : List Text := sortWords (v.hostCxxmulti.flatMap fun m => words (v.cxxobjs m))

/-- `host-cshlib`, before it is split. -/
def cshlib : List Text := sortWords (v.allCobjs.filter (Shared ·))

def sdkCshlib : List Text := sortWords (v.sdkPart v.cshlib ++ v.hostlibs.filter (Shared ·))
def hostCshlib : List Text := v.hostPart v.cshlib

/-- `host-cobjs`. -/
def hostCobjs : List Text := (v.allCobjs.filter (¬Shared ·)).filter (¬LinkerOption ·)

/-- `$($(m:.so=-objs))`. -/
def sharedObjs (m : Text) : List Text := words (v.objs (m.take (m.length - (lit ".so").length)))

/-- `$($(m:.a=-objs))`. -/
def staticObjs (m : Text) : List Text := words (v.objs (m.take (m.length - (lit ".a").length)))

/-- `host-cshobjs`. -/
def hostCshobjs : List Text := sortWords (v.hostCshlib.flatMap v.sharedObjs)

/-- The rules that compile an object. -/
inductive CompileRule
  | cobjs
  | cxxobjs
  | cshobjs
deriving DecidableEq

/-- The rule for `$(hostobj)/o`. Each rule is for the targets of its list that end in `.o`,
and of several rules with a recipe for one target make uses the last. -/
def compileRule (o : Text) : Option CompileRule :=
  if ¬lit ".o" <:+ o then none
  else if o ∈ v.hostCshobjs then some .cshobjs
  else if o ∈ v.hostCxxobjs then some .cxxobjs
  else if o ∈ v.hostCobjs then some .cobjs
  else none

/-! ## Classes -/

/-- The lists a program may be on. -/
inductive ProgramClass
  | hostCsingle
  | sdkCsingle
  | hostCmulti
  | sdkCmulti
  | hostCxxmulti
  | sdkCxxmulti
deriving DecidableEq

def members : ProgramClass → List Text
  | .hostCsingle => v.hostCsingle
  | .sdkCsingle => v.sdkCsingle
  | .hostCmulti => v.hostCmulti
  | .sdkCmulti => v.sdkCmulti
  | .hostCxxmulti => v.hostCxxmulti
  | .sdkCxxmulti => v.sdkCxxmulti

/-- The lists a shared library may be on. -/
inductive SharedClass
  | hostCshlib
  | sdkCshlib
deriving DecidableEq

def sharedMembers : SharedClass → List Text
  | .hostCshlib => v.hostCshlib
  | .sdkCshlib => v.sdkCshlib

/-- The list a program is on. -/
def classOf (m : Text) : ProgramClass :=
  if v.cxxobjs m ≠ [] then if v.install m ≠ [] then .sdkCxxmulti else .hostCxxmulti
  else if v.objs m ≠ [] then if v.install m ≠ [] then .sdkCmulti else .hostCmulti
  else if v.install m ≠ [] then .sdkCsingle else .hostCsingle

theorem mem_hostprogs {m : Text} :
    m ∈ v.hostprogs ↔ m ∈ v.entries ∧ ¬Shared m ∧ ¬Pkgconfig m := by
  simp [hostprogs, hostprogsPc, and_assoc]

theorem mem_members {m : Text} (hm : m ∈ v.hostprogs) (c : ProgramClass) :
    m ∈ v.members c ↔ c = v.classOf m := by
  unfold classOf
  by_cases hx : v.cxxobjs m = [] <;> by_cases ho : v.objs m = [] <;>
    by_cases hi : v.install m = [] <;> cases c <;>
    simp [members, hostCsingle, sdkCsingle, csingle, hostCmulti, sdkCmulti, cmulti,
      hostCxxmulti, sdkCxxmulti, cxxmulti, hostPart, sdkPart, hm, hx, ho, hi]

/-- Every program is on one list. -/
theorem existsUnique_members {m : Text} (hm : m ∈ v.hostprogs) : ∃! c, m ∈ v.members c :=
  ⟨v.classOf m, (v.mem_members hm _).mpr rfl, fun c hc => (v.mem_members hm c).mp hc⟩

/-! ## Objects -/

/-- An object to be compiled : the words with `-l` are for the linker. -/
def IsObject (o : Text) : Prop := lit ".o" <:+ o ∧ ¬LinkerOption o

instance (o : Text) : Decidable (IsObject o) := inferInstanceAs (Decidable (_ ∧ _))

/-- A library in the `-objs` of a program. -/
def Used (l : Text) : Prop := ∃ p ∈ v.hostprogs, l ∈ words (v.objs p)

/-- A library in the `-objs` of a program, or of a shared library that is an entry or used. -/
def Referenced (l : Text) : Prop :=
  v.Used l ∨ ∃ m, Shared m ∧ (m ∈ v.entries ∨ v.Used m) ∧ l ∈ v.sharedObjs m

/-- The objects of an entry. -/
def objectsOf (m : Text) : List Text :=
  if Shared m then v.sharedObjs m else words (v.objs m) ++ words (v.cxxobjs m)

/-- An entry is installed. -/
def withInstall (m t : Text) : HostVars := { v with install := Function.update v.install m t }

/-- Each program and each shared library is on one list, each of their objects has a rule that
compiles it, and installing an entry does not change which of its objects have one. -/
structure Covered : Prop where
  program : ∀ m ∈ v.entries, ¬Shared m → ¬Pkgconfig m → ∃! c, m ∈ v.members c
  shared : ∀ l, Shared l → l ∈ v.entries ∨ v.Used l → ∃! c, l ∈ v.sharedMembers c
  programObjects : ∀ m ∈ v.hostprogs, ∀ o ∈ words (v.objs m) ++ words (v.cxxobjs m),
    IsObject o → (v.compileRule o).isSome
  sharedObjects : ∀ l, Shared l → l ∈ v.entries ∨ v.Referenced l → ∀ o ∈ v.sharedObjs l,
    IsObject o → v.compileRule o = some .cshobjs
  staticObjects : ∀ l, Static l → l ∈ v.entries ∨ v.Referenced l → ∀ o ∈ v.staticObjs l,
    IsObject o → (v.compileRule o).isSome
  install : ∀ m ∈ v.entries, v.install m = [] → ∀ t ≠ [], ∀ o ∈ v.objectsOf m, IsObject o →
    ((v.compileRule o).isSome ↔ ((v.withInstall m t).compileRule o).isSome)

/-- An object of a shared library that a program uses and that is not installed. -/
def InHostShared (o : Text) : Prop :=
  ∃ l, Shared l ∧ v.Used l ∧ v.install l = [] ∧ o ∈ v.sharedObjs l

/-- An object that is compiled whether or not C++ programs name it. -/
def Named (o : Text) : Prop := (∃ p ∈ v.hostprogs, o ∈ words (v.objs p)) ∨ v.InHostShared o

/-- An object of a C++ program that is not installed. -/
def InHostCxx (P : Text → Prop) (o : Text) : Prop :=
  ∃ p ∈ v.hostprogs, P p ∧ v.install p = [] ∧ o ∈ words (v.cxxobjs p)

/-- What is lost is named again. A shared library that is an entry and used is installed. The
objects of a C++ program belong to something else too. Those of a shared library that is an
entry, or installed, or used by a library only, belong to a used one that is not installed.
Those of a static library belong to something else. -/
structure NamedAgain : Prop where
  entry : ∀ l ∈ v.entries, Shared l → v.Used l → v.install l ≠ []
  cxx : ∀ m ∈ v.hostprogs, ∀ o ∈ words (v.cxxobjs m), IsObject o →
    v.Named o ∨ v.InHostCxx (· ≠ m) o
  shared : ∀ l, Shared l →
    l ∈ v.entries ∨ (v.Referenced l ∧ (¬v.Used l ∨ v.install l ≠ [])) →
    ∀ o ∈ v.sharedObjs l, IsObject o → v.InHostShared o
  static : ∀ l, Static l → l ∈ v.entries ∨ v.Referenced l →
    ∀ o ∈ v.staticObjs l, IsObject o → v.Named o ∨ v.InHostCxx (fun _ => True) o

theorem mem_cshlib {l : Text} : l ∈ v.cshlib ↔ Shared l ∧ v.Used l := by
  simp [cshlib, allCobjs, Used, and_comm]

theorem mem_hostCshlib {l : Text} : l ∈ v.hostCshlib ↔ Shared l ∧ v.Used l ∧ v.install l = [] := by
  simp [hostCshlib, hostPart, mem_cshlib, and_assoc]

theorem mem_sdkCshlib {l : Text} : l ∈ v.sdkCshlib ↔
    Shared l ∧ (l ∈ v.entries ∨ (v.Used l ∧ v.install l ≠ [])) := by
  simp only [sdkCshlib, sdkPart, hostlibs, mem_sortWords, List.mem_append, List.mem_filter,
    mem_cshlib, decide_eq_true_eq]
  tauto

theorem mem_hostCshobjs {o : Text} : o ∈ v.hostCshobjs ↔ v.InHostShared o := by
  simp [hostCshobjs, InHostShared, mem_hostCshlib, and_assoc]

theorem mem_hostCxxobjs {o : Text} : o ∈ v.hostCxxobjs ↔ v.InHostCxx (fun _ => True) o := by
  simp only [hostCxxobjs, hostCxxmulti, hostPart, cxxmulti, InHostCxx, mem_sortWords,
    List.mem_flatMap, List.mem_filter, decide_eq_true_eq]
  constructor
  · rintro ⟨p, ⟨⟨hp, -⟩, hi⟩, ho⟩
    exact ⟨p, hp, trivial, hi, ho⟩
  · rintro ⟨p, hp, -, hi, ho⟩
    exact ⟨p, ⟨⟨hp, fun hx => by simp [hx] at ho⟩, hi⟩, ho⟩

theorem not_shared_of_object {o : Text} (h : lit ".o" <:+ o) : ¬Shared o := fun hs => by
  have := List.suffix_or_suffix_of_suffix h hs
  revert this
  decide +kernel

theorem mem_hostCobjs {o : Text} (h : IsObject o) :
    o ∈ v.hostCobjs ↔ ∃ p ∈ v.hostprogs, o ∈ words (v.objs p) := by
  simp [hostCobjs, allCobjs, not_shared_of_object h.1, h.2]

theorem isSome_compileRule {o : Text} (h : IsObject o) :
    (v.compileRule o).isSome ↔ v.Named o ∨ v.InHostCxx (fun _ => True) o := by
  unfold compileRule Named
  rw [if_neg (not_not_intro h.1), ← mem_hostCshobjs, ← mem_hostCxxobjs, ← v.mem_hostCobjs h]
  split_ifs <;> simp_all

theorem compileRule_eq_cshobjs {o : Text} (h : IsObject o) :
    v.compileRule o = some .cshobjs ↔ v.InHostShared o := by
  unfold compileRule
  rw [if_neg (not_not_intro h.1), ← mem_hostCshobjs]
  split_ifs <;> simp_all

/-- Where a shared library is on both lists. -/
theorem existsUnique_sharedMembers {l : Text} (hl : Shared l) (h : l ∈ v.entries ∨ v.Used l) :
    (∃! c, l ∈ v.sharedMembers c) ↔ (l ∈ v.entries → v.Used l → v.install l ≠ []) := by
  have hhost : l ∈ v.sharedMembers .hostCshlib ↔ v.Used l ∧ v.install l = [] := by
    rw [sharedMembers, mem_hostCshlib, and_iff_right hl]
  have hsdk : l ∈ v.sharedMembers .sdkCshlib ↔ l ∈ v.entries ∨ (v.Used l ∧ v.install l ≠ []) := by
    rw [sharedMembers, mem_sdkCshlib, and_iff_right hl]
  constructor
  · rintro ⟨c, -, hc⟩ he hu hi
    have h₁ := hc _ (hhost.mpr ⟨hu, hi⟩)
    have h₂ := hc _ (hsdk.mpr (.inl he))
    simp [← h₁] at h₂
  · intro himp
    by_cases hu : v.Used l ∧ v.install l = []
    · refine ⟨.hostCshlib, hhost.mpr hu, fun c hc => ?_⟩
      cases c with
      | hostCshlib => rfl
      | sdkCshlib => rcases hsdk.mp hc with he | ⟨-, hi⟩ <;> tauto
    · refine ⟨.sdkCshlib, hsdk.mpr (by tauto), fun c hc => ?_⟩
      cases c with
      | hostCshlib => exact absurd (hhost.mp hc) hu
      | sdkCshlib => rfl

/-! ## Installing an entry -/

variable {v} {m t : Text}

theorem install_withInstall (ht : t ≠ []) (p : Text) :
    (v.withInstall m t).install p = [] ↔ p ≠ m ∧ v.install p = [] := by
  by_cases hp : p = m
  · subst hp
    simp [withInstall, ht]
  · simp [withInstall, hp]

theorem inHostShared_withInstall (ht : t ≠ []) {o : Text} :
    (v.withInstall m t).InHostShared o ↔
      ∃ l, l ≠ m ∧ Shared l ∧ v.Used l ∧ v.install l = [] ∧ o ∈ v.sharedObjs l := by
  constructor
  · rintro ⟨l, hl, hu, hi, ho⟩
    obtain ⟨hne, hi⟩ := (install_withInstall ht l).mp hi
    exact ⟨l, hne, hl, hu, hi, ho⟩
  · rintro ⟨l, hne, hl, hu, hi, ho⟩
    exact ⟨l, hl, hu, (install_withInstall ht l).mpr ⟨hne, hi⟩, ho⟩

theorem inHostCxx_withInstall (ht : t ≠ []) {P : Text → Prop} {o : Text} :
    (v.withInstall m t).InHostCxx P o ↔ v.InHostCxx (fun p => P p ∧ p ≠ m) o := by
  constructor
  · rintro ⟨p, hp, hP, hi, ho⟩
    obtain ⟨hne, hi⟩ := (install_withInstall ht p).mp hi
    exact ⟨p, hp, ⟨hP, hne⟩, hi, ho⟩
  · rintro ⟨p, hp, ⟨hP, hne⟩, hi, ho⟩
    exact ⟨p, hp, hP, (install_withInstall ht p).mpr ⟨hne, hi⟩, ho⟩

/-- What is compiled when an entry is installed was compiled before. -/
theorem isSome_of_withInstall (ht : t ≠ []) {o : Text} (h : IsObject o)
    (hsome : ((v.withInstall m t).compileRule o).isSome) : (v.compileRule o).isSome := by
  rw [isSome_compileRule _ h] at hsome ⊢
  rcases hsome with (hp | hs) | hx
  · exact .inl (.inl hp)
  · obtain ⟨l, -, hl⟩ := (inHostShared_withInstall ht).mp hs
    exact .inl (.inr ⟨l, hl⟩)
  · obtain ⟨p, hp, -, hi, ho⟩ := (inHostCxx_withInstall ht).mp hx
    exact .inr ⟨p, hp, trivial, hi, ho⟩

/-- Unless a shared library is used it does not matter whether it is installed, and for the
objects of a C++ program there is another place. -/
theorem NamedAgain.isSome_withInstall (h : v.NamedAgain) (hm : m ∈ v.entries)
    (hi : v.install m = []) (ht : t ≠ []) {o : Text} (ho : o ∈ v.objectsOf m) (hobj : IsObject o)
    (hsome : (v.compileRule o).isSome) : ((v.withInstall m t).compileRule o).isSome := by
  have hshared : v.InHostShared o → (v.withInstall m t).InHostShared o := by
    rintro ⟨l, hl, hu, hil, hol⟩
    exact (inHostShared_withInstall ht).mpr
      ⟨l, fun hlm => h.entry m hm (hlm ▸ hl) (hlm ▸ hu) hi, hl, hu, hil, hol⟩
  have hnamed : v.Named o → (v.withInstall m t).Named o := fun hn => hn.imp id hshared
  rw [isSome_compileRule _ hobj] at hsome ⊢
  rcases hsome with hn | ⟨p, hp, -, hip, hop⟩
  · exact .inl (hnamed hn)
  · by_cases hpm : p = m
    · subst hpm
      rcases h.cxx p hp o hop hobj with hn | hx
      · exact .inl (hnamed hn)
      · refine .inr ((inHostCxx_withInstall ht).mpr ?_)
        simpa only [true_and] using hx
    · exact .inr ((inHostCxx_withInstall ht).mpr ⟨p, hp, ⟨trivial, hpm⟩, hip, hop⟩)

theorem NamedAgain.covered (h : v.NamedAgain) : v.Covered where
  program m hm hs hp := v.existsUnique_members (v.mem_hostprogs.mpr ⟨hm, hs, hp⟩)
  shared l hl hu := (v.existsUnique_sharedMembers hl hu).mpr fun he hu => h.entry l he hl hu
  programObjects m hm o ho hobj := by
    rw [v.isSome_compileRule hobj]
    rcases List.mem_append.mp ho with ho | ho
    · exact .inl (.inl ⟨m, hm, ho⟩)
    · rcases h.cxx m hm o ho hobj with hn | ⟨p, hp, -, hi, hop⟩
      · exact .inl hn
      · exact .inr ⟨p, hp, trivial, hi, hop⟩
  sharedObjects l hl hr o ho hobj := by
    rw [v.compileRule_eq_cshobjs hobj]
    by_cases hu : v.Used l ∧ v.install l = []
    · exact ⟨l, hl, hu.1, hu.2, ho⟩
    · exact h.shared l hl (hr.imp id fun hr => ⟨hr, by tauto⟩) o ho hobj
  staticObjects l hl hr o ho hobj := (v.isSome_compileRule hobj).mpr (h.static l hl hr o ho hobj)
  install m hm hi t ht o ho hobj :=
    ⟨h.isSome_withInstall hm hi ht ho hobj, isSome_of_withInstall ht hobj⟩

theorem Covered.namedAgain (h : v.Covered) : v.NamedAgain where
  entry l he hl hu := (v.existsUnique_sharedMembers hl (.inl he)).mp (h.shared l hl (.inl he)) he hu
  cxx m hm o ho hobj := by
    have hsome := h.programObjects m hm o (List.mem_append_right _ ho) hobj
    by_cases hi : v.install m = []
    · -- with the program installed, the object is still compiled
      obtain ⟨he, hs, -⟩ := v.mem_hostprogs.mp hm
      have hmem : o ∈ v.objectsOf m := by
        rw [objectsOf, if_neg hs]
        exact List.mem_append_right _ ho
      have ht : lit "y" ≠ [] := by decide +kernel
      have hnew := (h.install m he hi _ ht o hmem hobj).mp hsome
      rw [isSome_compileRule _ hobj] at hnew
      rcases hnew with (hp | hs) | hx
      · exact .inl (.inl hp)
      · obtain ⟨l, -, hl⟩ := (inHostShared_withInstall ht).mp hs
        exact .inl (.inr ⟨l, hl⟩)
      · have := (inHostCxx_withInstall ht).mp hx
        exact .inr (by simpa only [true_and] using this)
    · rcases (v.isSome_compileRule hobj).mp hsome with hn | ⟨p, hp, -, hip, hop⟩
      · exact .inl hn
      · exact .inr ⟨p, hp, fun hpm => hi (hpm ▸ hip), hip, hop⟩
  shared l hl hr o ho hobj :=
    (v.compileRule_eq_cshobjs hobj).mp (h.sharedObjects l hl (hr.imp id And.left) o ho hobj)
  static l hl hr o ho hobj := (v.isSome_compileRule hobj).mp (h.staticObjects l hl hr o ho hobj)

variable (v)

end HostVars

end Makeroot
