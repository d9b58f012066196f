import Mathlib.Data.List.TakeWhile
import Shuriken.Fs.Directories

/-!
# Small file systems

One without directories, with regular files under their paths, in which builds can be run. The other one has
room for a number of regular files and directories. A directory holds what is found under the paths it is the
`dirname` of.
-/
namespace Shuriken
open List

structure FlatFile where
  ino : UInt64
  mtime : Int64 := 0
  contents : Bytes := []
  deriving DecidableEq

abbrev FlatFiles := List (Path × FlatFile)

def FlatFiles.view (files : FlatFiles) (path : Path) : FileView :=
  match files.lookup path with
  | none =>
    { stat := { result := ENOENT }
      readError := some ⟨"No such file or directory", ENOENT⟩ }
  | some file =>
    { stat := { metadata := { mode := S_IFREG, size := file.contents.length.toUInt64, ino := file.ino, dev := 1 }
                mtime := file.mtime }
      contents := file.contents }

def FlatFiles.remove (files : FlatFiles) (path : Path) : FlatFiles := files.filter (·.1 ≠ path)

def flatFileSystem : FileSystem FlatFiles where
  view := FlatFiles.view
  stat files path := (files.view path).stat
  mkdir files _ := (files, some ⟨"Not a directory", ENOTDIR⟩)
  rmdir files _ := (files, some ⟨"Not a directory", ENOTDIR⟩)
  unlink files path :=
    match files.lookup path with
    | none => (files, some ⟨"No such file or directory", ENOENT⟩)
    | some _ => (files.remove path, none)
  writeFile files path contents :=
    ((path, { ino := (files.map (·.2.ino)).foldl max 0 + 1, contents }) :: files.remove path, none)
  blake2b := .ofBytes
  lstat_failed files path h := by
    rw [FlatFiles.view] at h ⊢
    split
    · rfl
    · next hfile =>
      rw [hfile] at h
      exact absurd rfl h

def EEXIST : Nat := 17
def EISDIR : Nat := 21
def ENOSPC : Nat := 28

def DirEntry.isDots (entry : DirEntry) : Bool := entry.name == [dot] || entry.name == [dot, dot]

namespace FileSystem
variable {σ : Type} (F : FileSystem σ)

def IsEmpty (s : σ) (path : Path) : Prop := ∀ entry ∈ (F.view s path).entries, entry.isDots = true

instance (s : σ) (path : Path) : Decidable (F.IsEmpty s path) := inferInstanceAs (Decidable (∀ entry ∈ _, _))

def IsDirectory (s : σ) (path : Path) : Prop :=
  (F.lstat s path).result = 0 ∧ sIsDir (F.lstat s path).metadata.mode = true

instance (s : σ) (path : Path) : Decidable (F.IsDirectory s path) := inferInstanceAs (Decidable (_ ∧ _))

end FileSystem

structure NestedFile where
  ino : UInt64
  isDir : Bool := false
  contents : Bytes := []
  deriving DecidableEq

structure NestedFiles where
  files : List (Path × NestedFile)
  room : Nat
  distinct : (files.map (·.2.ino)).Nodup
  deriving DecidableEq

def lastName (path : Path) : Bytes := (path.reverse.takeWhile (· != slash)).reverse

namespace NestedFiles
variable (t : NestedFiles)

def lookup (path : Path) : Option NestedFile := t.files.lookup path

def remove (path : Path) : NestedFiles where
  files := t.files.filter (·.1 ≠ path)
  room := t.room
  distinct := t.distinct.sublist (filter_sublist.map _)

def replace (path : Path) (contents : Bytes) : NestedFiles where
  files := t.files.map fun file => if file.1 = path then (path, { file.2 with contents }) else file
  room := t.room
  distinct := by
    rw [map_map, show (·.2.ino) ∘ (fun file : Path × NestedFile =>
      if file.1 = path then (path, { file.2 with contents }) else file) = (·.2.ino) from ?_]
    · exact t.distinct
    · funext file
      simp only [Function.comp]
      split <;> rfl

def entries (dir : Path) : List DirEntry :=
  (t.files.filter fun file => dirname file.1 = dir ∧ file.1 ≠ dir).map fun (path, file) =>
    { type := if file.isDir then .dir else .reg
      name := (lastName path).takeWhile (· != 0)
      terminated := fun h => by simpa using mem_takeWhile_imp h }

def view (path : Path) : FileView :=
  match t.lookup path with
  | none =>
    { stat := { result := ENOENT }
      readError := some ⟨"No such file or directory", ENOENT⟩ }
  | some file =>
    { stat := { metadata := { mode := if file.isDir then S_IFDIR else S_IFREG
                              size := file.contents.length.toUInt64, ino := file.ino, dev := 1 } }
      contents := file.contents
      entries := if file.isDir then t.entries path else [] }

def create (path : Path) (isDir : Bool) (contents : Bytes) : NestedFiles × Option IoError :=
  if (t.lookup (dirname path)).any (·.isDir) then
    let ino := (t.files.map (·.2.ino)).foldl max 0 + 1
    if h : t.files.length < t.room ∧ ino ∉ t.files.map (·.2.ino) then
      (⟨(path, { ino, isDir, contents }) :: t.files, t.room, nodup_cons.mpr ⟨h.2, t.distinct⟩⟩, none)
    else (t, some ⟨"No space left on device", ENOSPC⟩)
  else (t, some ⟨"No such file or directory", ENOENT⟩)

def mkdir (path : Path) : NestedFiles × Option IoError :=
  match t.lookup path with
  | some _ => (t, some ⟨"File exists", EEXIST⟩)
  | none => t.create path true []

def rmdir (path : Path) : NestedFiles × Option IoError :=
  match t.lookup path with
  | none => (t, some ⟨"No such file or directory", ENOENT⟩)
  | some file =>
    if file.isDir then
      if (t.entries path).all (·.isDots) then (t.remove path, none)
      else (t, some ⟨"Directory not empty", ENOTEMPTY⟩)
    else (t, some ⟨"Not a directory", ENOTDIR⟩)

def unlink (path : Path) : NestedFiles × Option IoError :=
  match t.lookup path with
  | none => (t, some ⟨"No such file or directory", ENOENT⟩)
  | some file => if file.isDir then (t, some ⟨"Is a directory", EISDIR⟩) else (t.remove path, none)

def writeFile (path : Path) (contents : Bytes) : NestedFiles × Option IoError :=
  match t.lookup path with
  | none => t.create path false contents
  | some file =>
    if file.isDir then (t, some ⟨"Is a directory", EISDIR⟩)
    else (t.replace path contents, none)

end NestedFiles

def nestedFileSystem : FileSystem NestedFiles where
  view := NestedFiles.view
  stat t path := (t.view path).stat
  mkdir := NestedFiles.mkdir
  rmdir := NestedFiles.rmdir
  unlink := NestedFiles.unlink
  writeFile := NestedFiles.writeFile
  blake2b := .ofBytes
  lstat_failed t path h := by
    rw [NestedFiles.view] at h ⊢
    cases hfile : t.lookup path with
    | none => rfl
    | some file =>
      rw [hfile] at h
      exact absurd rfl h

section
variable {t : NestedFiles} {path : Path}

theorem NestedFiles.lookup_remove (t : NestedFiles) (path q : Path) :
    (t.remove path).lookup q = if q = path then none else t.lookup q := by
  simp only [lookup, remove]
  induction t.files with
  | nil => simp
  | cons file files ih =>
    by_cases hfile : file.1 = path
    · rw [filter_cons_of_neg (by simpa using hfile), ih]
      split
      · rfl
      · next hq => rw [lookup_cons, beq_eq_false_iff_ne.mpr (hfile ▸ hq)]
    · rw [filter_cons_of_pos (by simpa using hfile), lookup_cons, lookup_cons, ih]
      by_cases hq : q = file.1
      · subst hq
        rw [beq_self_eq_true, if_neg hfile, if_neg hfile]
      · rw [beq_eq_false_iff_ne.mpr hq]

theorem NestedFiles.lookup_replace (t : NestedFiles) (path : Path) (contents : Bytes) (q : Path) :
    (t.replace path contents).lookup q =
      (t.lookup q).map fun file => if q = path then { file with contents } else file := by
  simp only [lookup, replace]
  induction t.files with
  | nil => rfl
  | cons file files ih =>
    have hkey : (if file.1 = path then (path, { file.2 with contents }) else file).1 = file.1 := by
      split
      · next h => exact h.symm
      · rfl
    rw [map_cons, lookup_cons, lookup_cons, hkey]
    by_cases hq : q = file.1
    · subst hq
      rw [beq_self_eq_true]
      simp only [Option.map_some]
      split <;> rfl
    · rw [beq_eq_false_iff_ne.mpr hq]
      exact ih

theorem nested_isDirectory : nestedFileSystem.IsDirectory t path ↔ (t.lookup path).any (·.isDir) = true := by
  simp only [FileSystem.IsDirectory, FileSystem.lstat, nestedFileSystem, NestedFiles.view]
  cases t.lookup path with
  | none => exact ⟨fun h => absurd h.1 (by decide : ENOENT ≠ 0), by simp⟩
  | some file =>
    cases hdir : file.isDir with
    | true => simp [hdir, show sIsDir S_IFDIR = true by decide]
    | false => simp [hdir, show sIsDir S_IFREG = false by decide]

theorem nested_isEmpty (h : nestedFileSystem.IsDirectory t path) :
    nestedFileSystem.IsEmpty t path ↔ (t.entries path).all (·.isDots) = true := by
  obtain ⟨file, hfile, hdir⟩ := (Option.any_eq_true _ _).mp (nested_isDirectory.mp h)
  simp only [FileSystem.IsEmpty, nestedFileSystem, NestedFiles.view, hfile, hdir, if_true, all_eq_true]

/-- A directory is removed exactly if it is empty. -/
theorem NestedFiles.rmdir_cases (t : NestedFiles) (path : Path) :
    nestedFileSystem.rmdir t path = (t.remove path, none) ∧ nestedFileSystem.IsDirectory t path ∧
      nestedFileSystem.IsEmpty t path ∨
    ∃ error, nestedFileSystem.rmdir t path = (t, some error) ∧
      (nestedFileSystem.IsDirectory t path → ¬ nestedFileSystem.IsEmpty t path) ∧
      (error.code = ENOTEMPTY → ¬ nestedFileSystem.IsEmpty t path) := by
  by_cases hdir : nestedFileSystem.IsDirectory t path
  · obtain ⟨file, hfile, hisDir⟩ := (Option.any_eq_true _ _).mp (nested_isDirectory.mp hdir)
    by_cases hempty : nestedFileSystem.IsEmpty t path
    · refine .inl ⟨?_, hdir, hempty⟩
      rw [nested_isEmpty hdir] at hempty
      simp only [nestedFileSystem, NestedFiles.rmdir, hfile, hisDir, hempty, if_true]
    · have hentries := (nested_isEmpty hdir).not.mp hempty
      refine .inr ⟨⟨"Directory not empty", ENOTEMPTY⟩, ?_, fun _ => hempty, fun _ => hempty⟩
      simp only [nestedFileSystem, NestedFiles.rmdir, hfile, hisDir, hentries, if_true]
      rfl
  · refine .inr ?_
    have hnot := nested_isDirectory.not.mp hdir
    simp only [nestedFileSystem, NestedFiles.rmdir]
    cases hfile : t.lookup path with
    | none => exact ⟨_, rfl, fun h => absurd h hdir, fun h => absurd h (by decide)⟩
    | some file =>
      rw [hfile] at hnot
      have hisDir : file.isDir = false := by simpa using hnot
      simp only [hisDir]
      exact ⟨_, rfl, fun h => absurd h hdir, fun h => absurd h (by decide)⟩

end

end Shuriken
