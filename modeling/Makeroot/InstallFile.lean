import Makeroot.CopyFile
import Makeroot.MakePath

/-!
# The functions of install.c

What is common to the ways a file is installed : the parts of `install_file_in_file` after
the copy, and the way `install_file_in_dir` goes.
-/

namespace Makeroot

open Posix

section Attributes

variable {S p : Loc} {f : Flags} {src dst : Path} {w : World}

theorem changeAttributes_spec (hp : w.fs.resolve w.cwd true dst = .ok (.there p)) :
    wp (changeAttributes f dst) (fun failed w' => AttrSet S p w w' ∧ (w.Calm → failed = false))
      (fun _ _ => False) w := by
  rw [changeAttributes, wp_bind]
  refine wp_mono (setAttr_spec (S := S) .chmod _ hp) (fun r w' h => ?_) fun _ _ h => h
  cases r with
  | error e => exact ⟨h.1, fun hc => by simpa using h.2 hc⟩
  | ok u => exact ⟨h.1, fun _ => rfl⟩

theorem changeTimestamps_spec (hp : w.fs.resolve w.cwd true dst = .ok (.there p)) :
    wp (changeTimestamps src dst) (fun failed w' => AttrSet S p w w' ∧
      (w.Calm → (∃ s, w.stat true src = .ok s) → failed = false)) (fun _ _ => False) w := by
  rw [changeTimestamps, wp_bind, wp_stat]
  cases hs : w.stat true src with
  | error e => exact ⟨.refl .., fun _ ⟨s, h⟩ => by simp at h⟩
  | ok s =>
    dsimp only
    rw [wp_bind]
    refine wp_mono (setAttr_spec (S := S) .utime _ hp) (fun r w' h => ?_) fun _ _ h => h
    cases r with
    | error e => exact ⟨h.1, fun hc _ => by simpa using h.2 hc⟩
    | ok u => exact ⟨h.1, fun _ _ => rfl⟩

end Attributes

section Install

variable {tools : Tools} {f : Flags} {depth : ℕ} {src dst toDir : Path} {h : HTab} {w : World}

theorem wp_copyFile {Q : Bool × HTab → World → Prop} {E : Stop → World → Prop}
    (hrec : f.recursive = true) : wp (copyFile f depth src dst h) Q E w ↔
      wp (copyInternal f.cpOptions depth src dst false [] h) Q E w := by
  simp [copyFile, hrec, copy]

theorem wp_installFileInDir {Q : Bool × HTab → World → Prop} {E : Stop → World → Prop}
    (hthere : World.isdir w toDir = true →
      wp (installFileInFile tools f depth src (pathConcat toDir (baseName src)) h) Q E w)
    (hmake : World.isdir w toDir = false → wp (makePath toDir 0o755) (fun failed w' =>
      (failed = true → Q (true, h) w') ∧ (failed = false →
        wp (installFileInFile tools f depth src (pathConcat toDir (baseName src)) h) Q E w')) E w) :
    wp (installFileInDir tools f depth src toDir h) Q E w := by
  rw [installFileInDir, wp_bind, wp_isdir]
  by_cases hd : World.isdir w toDir = true
  · rw [if_pos hd]
    exact hthere hd
  · rw [if_neg hd, wp_bind]
    refine wp_mono (hmake (by simpa using hd)) (fun failed w' hw => ?_) fun _ _ h => h
    cases failed with
    | true => exact hw.1 rfl
    | false => exact hw.2 rfl

end Install

end Makeroot
