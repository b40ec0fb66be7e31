import CkCore.Model.Directory
import CkCore.Spec.Path

namespace CkCore
open Lib

/-- stat reports which directories exist, and mkdir makes the named directory
or changes nothing. Which directory a name stands for is the same with a
delimiter behind it. -/
structure FileSystem.Lawful {σ δ : Type} (fs : FileSystem σ) (dir : List Byte → δ)
    (dirs : σ → δ → Prop) : Prop where
  stat : ∀ files name, Directory.exist fs files name = true ↔ dirs files (dir name)
  made : ∀ files name mode, (fs.mkdir files name mode).1 = 0 →
    ∀ d, dirs (fs.mkdir files name mode).2 d ↔ dirs files d ∨ d = dir name
  refused : ∀ files name mode, (fs.mkdir files name mode).1 ≠ 0 →
    ∀ d, dirs (fs.mkdir files name mode).2 d ↔ dirs files d
  delimiter : ∀ name, name ≠ [] → dir (name ++ [slash]) = dir name

/-- The names joined one after the other onto a front. -/
def joined : List Byte → List (List Byte) → List (List Byte)
  | _, [] => []
  | front, name :: names =>
    (front ++ (name ++ [slash])) :: joined (front ++ (name ++ [slash])) names

theorem joined_append (front : List Byte) (names others : List (List Byte)) :
    joined front (names ++ others) =
      joined front names ++ joined (front ++ closed slash names) others := by
  induction names generalizing front with
  | nil => simp [joined, closed]
  | cons name names ih =>
    simp only [List.cons_append, joined, ih]
    simp [closed]

/-- The last of the names joined is all of them. -/
theorem joined_last {front : List Byte} {names : List (List Byte)} (h : names ≠ []) :
    front ++ closed slash names ∈ joined front names := by
  induction names generalizing front with
  | nil => exact absurd rfl h
  | cons name names ih =>
    by_cases hnil : names = []
    · subst hnil
      simp [joined, closed]
    · have hlast := @ih (front ++ (name ++ [slash])) hnil
      refine List.mem_cons_of_mem _ ?_
      simpa [closed] using hlast

namespace Path

/-- The prefix directories of a path. -/
def prefixes (self : Path) : List (List Byte) :=
  joined self.rootName.chars (components self.pathName.chars)

/-- The prefix directories the loop of create comes to. -/
def reached (self : Path) : List (List Byte) :=
  joined self.rootName.chars (visible self.pathName.chars)

theorem prefixes_split (self : Path) : self.prefixes = self.reached ++
    joined (self.rootName.chars ++ closed slash (visible self.pathName.chars))
      (hidden self.pathName.chars) := by
  unfold prefixes reached
  rw [← joined_append, visible_hidden]

/-- The names create never looks at: the prefix directories behind, and a path
that has no components. -/
def skipped (self : Path) : List (List Byte) :=
  if components self.pathName.chars = [] then [self.pathName.chars]
  else joined (self.rootName.chars ++ closed slash (visible self.pathName.chars))
    (hidden self.pathName.chars)

end Path

/-- A file system of directories only, with one name each: the name without
delimiters at the end, and none for the empty name. -/
def directoryOf (name : List Byte) : Option (List Byte) :=
  if name = [] then none else some (name.reverse.dropWhile (· = slash)).reverse

def directories : FileSystem (List (Option (List Byte))) where
  stat files name := if directoryOf name ∈ files then some 0o040700 else none
  mkdir files name _ :=
    if name = [] ∨ directoryOf name ∈ files then (-1, files) else (0, directoryOf name :: files)

theorem directories_lawful : directories.Lawful directoryOf (fun files d => d ∈ files) := by
  refine ⟨?_, ?_, ?_, ?_⟩
  · intro files name
    have hbit : 0 < 0o040700 &&& Directory.dirMode := by decide
    by_cases hmem : directoryOf name ∈ files
    · simp [Directory.exist, directories, hmem, hbit]
    · simp [Directory.exist, directories, hmem]
  · intro files name mode h d
    unfold directories at h ⊢
    dsimp only at h ⊢
    split at h
    · simp at h
    · rename_i hnew
      rw [if_neg hnew, List.mem_cons, or_comm]
  · intro files name mode h d
    unfold directories at h ⊢
    dsimp only at h ⊢
    split at h
    · rename_i hold
      rw [if_pos hold]
    · exact absurd rfl h
  · intro name hne
    simp [directoryOf, hne]

end CkCore
