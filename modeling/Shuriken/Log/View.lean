import Shuriken.Log.Persistent

/-!
# What a log says

The meaning of a log, without records, ids or bytes: for each step the command that is logged for it, and the
directories under their file ids.
-/
namespace Shuriken
open Function

/-- A logged command, by its files rather than by indices. -/
structure LoggedCommand where
  outputs : List (Path × Fingerprint)
  inputs : List (Path × Fingerprint)
  ignoredDependencies : List UInt32
  additionalDependencies : List Hash
  deriving DecidableEq

def notDirectory (file : Path × Fingerprint) : Bool := !file.2.stat.isDir

/-- Directories are not logged as files. -/
def RanCommand.logged (c : RanCommand) : LoggedCommand where
  outputs := c.outputFiles.filter notDirectory
  inputs := c.inputFiles.filter notDirectory
  ignoredDependencies := c.ignoredDependencies
  additionalDependencies := c.additionalDependencies

@[ext]
structure LogView where
  /-- The paths that occur in the log. -/
  known : Path → Bool
  commands : Hash → Option LoggedCommand
  directories : FileId → Option Path

namespace LogView

def empty : LogView := ⟨fun _ => false, fun _ => none, fun _ => none⟩

def addPath (path : Path) (v : LogView) : LogView := { v with known := update v.known path true }

/-- A directory is kept if it exists, and under the first path that it was created as. -/
def addDirectory (lstat : Path → Stat) (path : Path) (v : LogView) : LogView :=
  if (lstat path).result = 0 then
    let id := FileId.ofStat (lstat path)
    { v with directories := update v.directories id (some ((v.directories id).getD path)) }
  else v

def removeDirectory (lstat : Path → Stat) (path : Path) (v : LogView) : LogView :=
  if (lstat path).result = 0 then
    { v with directories := update v.directories (FileId.ofStat (lstat path)) none }
  else v

def setCommand (hash : Hash) (command : Option LoggedCommand) (v : LogView) : LogView :=
  { v with commands := update v.commands hash command }

/-- The effect of a file of a command: its path is known from then on, and a directory is
taken for created if `WriteType` says so. -/
def addFile (lstat : Path → Stat) (type : WriteType) (file : Path × Fingerprint) (v : LogView) : LogView :=
  if file.2.stat.isDir ∧ type = .directoryAsDirectoryEntry then
    (v.addPath file.1).addDirectory lstat file.1
  else v.addPath file.1

def addFiles (lstat : Path → Stat) (type : WriteType) (files : List (Path × Fingerprint)) (v : LogView) : LogView :=
  files.foldl (fun v file => v.addFile lstat type file) v

/-- The effect of a call. A directory that does not occur in the log cannot be removed. -/
def apply (lstat : Path → Stat) (v : LogView) : LogCall → LogView
  | .createdDirectory path => (v.addPath path).addDirectory lstat path
  | .removedDirectory path => if v.known path then v.removeDirectory lstat path else v
  | .ranCommand c =>
    ((v.addFiles lstat .directoryAsDirectoryEntry c.outputFiles).addFiles lstat .ignoreDirectory
      c.inputFiles).setCommand c.buildStepHash (some c.logged)
  | .cleanedCommand hash => v.setCommand hash none

def applyAll (lstat : Path → Stat) (v : LogView) (calls : List LogCall) : LogView := calls.foldl (apply lstat) v

section
variable (lstat : Path → Stat) (path : Path) (v : LogView)

@[simp] theorem addPath_known : (v.addPath path).known = update v.known path true := rfl

@[simp] theorem addPath_commands : (v.addPath path).commands = v.commands := rfl

@[simp] theorem addPath_directories : (v.addPath path).directories = v.directories := rfl

@[simp] theorem addDirectory_commands : (v.addDirectory lstat path).commands = v.commands := by
  unfold addDirectory
  split <;> rfl

theorem addDirectory_directories (h : (lstat path).result = 0) : (v.addDirectory lstat path).directories =
      update v.directories (FileId.ofStat (lstat path))
        (some ((v.directories (FileId.ofStat (lstat path))).getD path)) := by
  rw [addDirectory, if_pos h]

theorem addDirectory_of_missing (h : (lstat path).result ≠ 0) : v.addDirectory lstat path = v := if_neg h

@[simp] theorem addDirectory_known : (v.addDirectory lstat path).known = v.known := by
  unfold addDirectory
  split <;> rfl

@[simp] theorem removeDirectory_commands : (v.removeDirectory lstat path).commands = v.commands := by
  unfold removeDirectory
  split <;> rfl

theorem removeDirectory_directories (h : (lstat path).result = 0) :
    (v.removeDirectory lstat path).directories = update v.directories (FileId.ofStat (lstat path)) none := by
  rw [removeDirectory, if_pos h]

theorem removeDirectory_of_missing (h : (lstat path).result ≠ 0) : v.removeDirectory lstat path = v := if_neg h

@[simp] theorem removeDirectory_known : (v.removeDirectory lstat path).known = v.known := by
  unfold removeDirectory
  split <;> rfl

@[simp] theorem setCommand_commands (hash : Hash) (command : Option LoggedCommand) :
    (v.setCommand hash command).commands = update v.commands hash command := rfl

@[simp] theorem setCommand_known (hash : Hash) (command : Option LoggedCommand) :
    (v.setCommand hash command).known = v.known := rfl

@[simp] theorem setCommand_directories (hash : Hash) (command : Option LoggedCommand) :
    (v.setCommand hash command).directories = v.directories := rfl

@[simp] theorem addFile_commands (type : WriteType) (file : Path × Fingerprint) :
    (v.addFile lstat type file).commands = v.commands := by
  unfold addFile
  split <;> simp only [addDirectory_commands, addPath_commands]

@[simp] theorem addFile_known (type : WriteType) (file : Path × Fingerprint) :
    (v.addFile lstat type file).known = update v.known file.1 true := by
  unfold addFile
  split
  · rw [addDirectory_known]
    rfl
  · rfl

@[simp] theorem addFiles_commands (type : WriteType) (files : List (Path × Fingerprint)) :
    (v.addFiles lstat type files).commands = v.commands := by
  induction files generalizing v with
  | nil => rfl
  | cons file files ih => exact (ih _).trans (addFile_commands lstat v type file)

theorem addFiles_known (type : WriteType) (files : List (Path × Fingerprint)) :
    (v.addFiles lstat type files).known path = true ↔ v.known path = true ∨ ∃ file ∈ files, file.1 = path := by
  induction files generalizing v with
  | nil => simp only [addFiles, List.foldl_nil, List.not_mem_nil, false_and, exists_false, or_false]
  | cons file files ih =>
    refine (ih (v.addFile lstat type file)).trans ?_
    rw [addFile_known]
    by_cases heq : path = file.1
    · simp [heq]
    · simp [update_of_ne heq, Ne.symm heq]

variable {c : LogCall}

theorem known_of_apply (h : (v.apply lstat c).known path = true) : v.known path = true ∨ path ∈ c.paths := by
  cases c with
  | createdDirectory p =>
    by_cases heq : path = p
    · exact .inr (List.mem_singleton.mpr heq)
    · simp only [apply, addDirectory_known, addPath_known, update_of_ne heq] at h
      exact .inl h
  | removedDirectory p =>
    simp only [apply] at h
    split at h
    · exact .inl (by simpa only [removeDirectory_known] using h)
    · exact .inl h
  | ranCommand c =>
    simp only [apply, setCommand_known, addFiles_known, or_assoc] at h
    refine h.imp_right fun hfiles => ?_
    simp only [LogCall.paths, List.map_append, List.mem_append, List.mem_map]
    exact hfiles
  | cleanedCommand hash => exact .inl h

theorem known_apply (h : v.known path = true) : (v.apply lstat c).known path = true := by
  cases c with
  | createdDirectory p =>
    simp only [apply, addDirectory_known, addPath_known]
    by_cases heq : path = p
    · rw [heq, update_self]
    · rwa [update_of_ne heq]
  | removedDirectory p =>
    simp only [apply]
    split
    · rwa [removeDirectory_known]
    · exact h
  | ranCommand c => simp only [apply, setCommand_known, addFiles_known, h, true_or]
  | cleanedCommand hash => exact h

theorem applyAll_concat (calls : List LogCall) (c : LogCall) :
    v.applyAll lstat (calls ++ [c]) = (v.applyAll lstat calls).apply lstat c := by
  simp only [applyAll, List.foldl_append, List.foldl_cons, List.foldl_nil]

end
end LogView

/-- The entry refers to exactly the files of the command. -/
structure InvocationEntry.RefersTo (fingerprints : List (Path × Fingerprint)) (entry : InvocationEntry)
    (command : LoggedCommand) : Prop where
  outputs : entry.outputFiles.map (fileAt fingerprints) = command.outputs.map some
  inputs : entry.inputFiles.map (fileAt fingerprints) = command.inputs.map some
  ignored : entry.ignoredDependencies = command.ignoredDependencies
  additional : entry.additionalDependencies = command.additionalDependencies

structure Invocations.Represents (invocations : Invocations) (v : LogView) : Prop where
  commands : ∀ hash, Option.Rel (InvocationEntry.RefersTo invocations.fingerprints)
    (invocations.entries.lookup hash) (v.commands hash)
  directories : ∀ id, invocations.createdDirectories.lookup id = v.directories id

/-- The parser has come to a state that shows the view. -/
structure Parsing.Shows (st : Parsing) (v : LogView) : Prop where
  represents : st.invocations.Represents v
  known : ∀ path, v.known path = (st.pathIds.lookup path).isSome

end Shuriken
