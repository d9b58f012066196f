import Shuriken.Fs.Directories

/-!
# What is changed in a file system

A file system that records the operations that have changed it, each with the files as they were before.
-/
namespace Shuriken

inductive Change where
  | mkdir (path : Path)
  | rmdir (path : Path)
  | unlink (path : Path)
  | writeFile (path : Path) (contents : Bytes)
  deriving DecidableEq

def Change.mkdir? : Change → Option Path
  | .mkdir path => some path
  | _ => none

def Change.rmdir? : Change → Option Path
  | .rmdir path => some path
  | _ => none

structure Journal (σ : Type) where
  fs : σ
  changes : List (σ × Change) := []

section
variable {σ : Type} (F : FileSystem σ)

def FileSystem.perform (s : σ) : Change → σ × Option IoError
  | .mkdir path => F.mkdir s path
  | .rmdir path => F.rmdir s path
  | .unlink path => F.unlink s path
  | .writeFile path contents => F.writeFile s path contents

/-- An operation is recorded when it has succeeded. -/
def Journal.perform (j : Journal σ) (change : Change) : Journal σ × Option IoError :=
  match F.perform j.fs change with
  | (fs, none) => (⟨fs, j.changes ++ [(j.fs, change)]⟩, none)
  | (fs, some error) => (⟨fs, j.changes⟩, some error)

def FileSystem.journaled : FileSystem (Journal σ) where
  view j := F.view j.fs
  stat j := F.stat j.fs
  mkdir j path := j.perform F (.mkdir path)
  rmdir j path := j.perform F (.rmdir path)
  unlink j path := j.perform F (.unlink path)
  writeFile j path contents := j.perform F (.writeFile path contents)
  blake2b := F.blake2b
  lstat_failed j := F.lstat_failed j.fs

/-- The files after some operations that all succeed are the last ones. -/
inductive FileSystem.Performs : σ → List (σ × Change) → σ → Prop
  | nil (s : σ) : Performs s [] s
  | cons {s s₁ s' : σ} {change : Change} {changes : List (σ × Change)} :
      F.perform s change = (s₁, none) → Performs s₁ changes s' → Performs s ((s, change) :: changes) s'

variable {F}

theorem FileSystem.Performs.append {s s₁ s' : σ} {changes more : List (σ × Change)}
    (h : F.Performs s changes s₁) (h' : F.Performs s₁ more s') : F.Performs s (changes ++ more) s' := by
  induction h with
  | nil => exact h'
  | cons hchange _ ih => exact .cons hchange (ih h')

@[simp] theorem journaled_stat (j : Journal σ) (path : Path) : F.journaled.stat j path = F.stat j.fs path := rfl

@[simp] theorem journaled_lstat (j : Journal σ) (path : Path) : F.journaled.lstat j path = F.lstat j.fs path :=
  rfl

end
end Shuriken
