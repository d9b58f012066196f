import Shuriken.Build.Restat

/-!
# The clean tool

`toolClean` is a build on a file system that claims that there are no files, in which every command succeeds
without being run.
-/
namespace Shuriken

section
variable {σ : Type} {n : Nat}

/-- The state has the number of removed files. -/
def cleaningFileSystem (F : FileSystem σ) : FileSystem (σ × Nat) where
  view s path := { F.view s.1 path with stat := { result := ENOENT } }
  stat _ _ := { result := ENOENT }
  mkdir s _ := (s, none)
  rmdir s path := (((F.rmdir s.1 path).1, s.2 + 1), (F.rmdir s.1 path).2)
  unlink s path :=
    (((F.unlink s.1 path).1, if (F.unlink s.1 path).2.isNone then s.2 + 1 else s.2), (F.unlink s.1 path).2)
  writeFile s path contents := (((F.writeFile s.1 path contents).1, s.2), (F.writeFile s.1 path contents).2)
  blake2b := F.blake2b
  lstat_failed _ _ _ := rfl

/-- The loop over the entries of the log, in the order that the hash map has. -/
def deleteStaleOutputs (F : FileSystem σ) (manifest : CompiledManifest n) (invocations : Invocations)
    (now : Int64) : Disk σ → List Hash → Disk σ × Option Failure
  | disk, [] => (disk, none)
  | disk, hash :: hashes =>
    if (List.finRange n).any fun i => (manifest.steps i).hash == hash then
      deleteStaleOutputs F manifest invocations now disk hashes
    else
      match deleteBuildProducts F invocations now disk ((invocations.outputs hash).map Prod.fst) with
      | (disk, some failure) => (disk, some failure)
      | (disk, none) =>
        deleteStaleOutputs F manifest invocations now (disk.call now (.cleanedCommand hash)) hashes

namespace World

/-- What happens next in a dry run. The runner calls the callbacks in the order in which the
commands were invoked, also of those that are invoked meanwhile. -/
def dryRunEvent (w : World σ n) : Option (Event σ n) :=
  match w.phase with
  | .discarding .. => some .discard
  | .enqueueing => some (.enqueue true)
  | .waiting =>
    match w.running with
    | [] => some .finish
    | stepIdx :: _ => some (.commandDone stepIdx {})
  | .finished _ | .thrown _ => none

def dryRun (params : BuildCommandParameters σ n) : Nat → World σ n → World σ n
  | 0, w => w
  | rounds + 1, w =>
    match w.dryRunEvent.bind (w.next params) with
    | none => w
    | some w' => dryRun params rounds w'

end World

structure CleanResult (σ : Type) where
  exitCode : Nat
  fs : σ
  removedCount : Nat

/-- The end of `toolClean`, when the build has returned. -/
def cleanInvocationLog (F : FileSystem σ) (invocationLogPath : Path) (s : σ × Nat) : CleanResult σ :=
  match (cleaningFileSystem F).unlink s invocationLogPath with
  | (s, none) => ⟨0, s.1, s.2⟩
  | (s, some error) => ⟨if error.code = ENOENT then 0 else 1, s.1, s.2⟩

/-- `toolClean` without targets. It has no result when the process ends by an exception that is not
caught, or when the bound on the rounds of the build is too small. -/
def toolClean (F : FileSystem σ) (manifest : CompiledManifest n) (invocations : Invocations)
    (hashes : List Hash) (checkClock : Fin n → Int64) (clock : Int64) (invocationLogPath : Path)
    (rounds : Nat) (disk : Disk σ) : Option (CleanResult σ) :=
  match deleteStaleOutputs F manifest invocations clock disk hashes with
  | (disk, some _) => some ⟨1, disk.fs, 0⟩
  | (disk, none) =>
    match startBuild (cleaningFileSystem F) manifest invocations 1 [] checkClock clock
        ⟨(disk.fs, 0), disk.log⟩ with
    | .error (.ioError _) | .error (.buildError _) => some ⟨1, disk.fs, 0⟩
    | .error _ => none
    | .ok (params, w₀) =>
      let w := w₀.dryRun params rounds
      match w.phase with
      | .finished .success | .finished .noWorkToDo =>
        some (cleanInvocationLog F invocationLogPath w.disk.fs)
      | .finished .interrupted => some ⟨2, w.disk.fs.1, w.disk.fs.2⟩
      | .finished .failure | .thrown (.ioError _) | .thrown (.buildError _) =>
        some ⟨1, w.disk.fs.1, w.disk.fs.2⟩
      | _ => none

def FileSystem.Found (F : FileSystem σ) (s : σ) (path : Path) : Prop := (F.lstat s path).result = 0

instance (F : FileSystem σ) (s : σ) (path : Path) : Decidable (F.Found s path) := inferInstanceAs (Decidable (_ = _))

/-- Something else than a directory. -/
def FileSystem.HasFile (F : FileSystem σ) (s : σ) (path : Path) : Prop :=
  F.Found s path ∧ sIsDir (F.lstat s path).metadata.mode = false

instance (F : FileSystem σ) (s : σ) (path : Path) : Decidable (F.HasFile s path) := inferInstanceAs (Decidable (_ ∧ _))

/-- Files come and go one by one, under all paths that name the same file. Nothing is said about
directories, and about operations that fail. -/
structure PlainFiles (F : FileSystem σ) (Has : σ → Path → Prop) (Same : Path → Path → Prop) : Prop where
  refl : ∀ path, Same path path
  unlink : ∀ s path q, (∀ error ∈ (F.unlink s path).2, error.code = ENOENT) →
    (Has (F.unlink s path).1 q ↔ Has s q ∧ ¬ Same path q)
  rmdir : ∀ s path q, Has (F.rmdir s path).1 q ↔ Has s q
  writeFile : ∀ s path contents q, (F.writeFile s path contents).2 = none →
    (Has (F.writeFile s path contents).1 q ↔ Has s q ∨ Same path q)

def Names (Same : Path → Path → Prop) (paths : List Path) (q : Path) : Prop := ∃ path ∈ paths, Same path q

variable {Same : Path → Path → Prop}

@[simp] theorem names_nil (q : Path) : ¬ Names Same [] q := nofun

@[simp] theorem names_cons (path : Path) (paths : List Path) (q : Path) :
    Names Same (path :: paths) q ↔ Same path q ∨ Names Same paths q := by
  simp [Names]

@[simp] theorem names_append (paths₁ paths₂ : List Path) (q : Path) :
    Names Same (paths₁ ++ paths₂) q ↔ Names Same paths₁ q ∨ Names Same paths₂ q := by
  simp [Names, or_and_right, exists_or]

variable {F : FileSystem σ} {Has : σ → Path → Prop} {invocations : Invocations} {now : Int64}

theorem PlainFiles.cleaning (hF : PlainFiles F Has Same) : PlainFiles (cleaningFileSystem F) (Has ·.1) Same where
  refl := hF.refl
  unlink s := hF.unlink s.1
  rmdir s := hF.rmdir s.1
  writeFile s := hF.writeFile s.1

section
variable (hF : PlainFiles F Has Same) {disk disk' : Disk σ}
include hF

theorem deleteAncestors_has (rounds : Nat) (disk : Disk σ) (path q : Path) :
    Has (deleteAncestors F invocations now rounds disk path).1.fs q ↔ Has disk.fs q := by
  induction rounds generalizing disk path with
  | zero => rfl
  | succ rounds ih =>
    simp only [deleteAncestors]
    split
    · rfl
    · split
      · rfl
      · split
        · rfl
        · have hrmdir := hF.rmdir disk.fs (dirname path) q
          split
          · next heq =>
            rw [heq] at hrmdir
            exact (ih ..).trans hrmdir
          · next heq =>
            rw [heq] at hrmdir
            split <;> exact hrmdir

theorem deleteBuildProduct_has {path : Path} (h : deleteBuildProduct F invocations now disk path = (disk', none))
    (q : Path) : Has disk'.fs q ↔ Has disk.fs q ∧ ¬ Same path q := by
  have hancestors := @deleteAncestors_has σ Same F Has invocations now hF (path.length + 1)
    { disk with fs := (F.unlink disk.fs path).1 } path q
  have hunlink := hF.unlink disk.fs path q
  rw [deleteBuildProduct] at h
  split at h
  · next heq =>
    rw [heq] at hancestors hunlink
    split at h
    · cases h
    · next hcode =>
      rw [h] at hancestors
      exact hancestors.trans (hunlink (by simpa using hcode))
  · next heq =>
    rw [heq] at hunlink
    rw [heq, h] at hancestors
    exact hancestors.trans (hunlink (by simp))

theorem deleteBuildProducts_has {paths : List Path}
    (h : deleteBuildProducts F invocations now disk paths = (disk', none)) (q : Path) :
    Has disk'.fs q ↔ Has disk.fs q ∧ ¬ Names Same paths q := by
  induction paths generalizing disk with
  | nil =>
    obtain rfl := (Prod.mk.inj h).1
    simp
  | cons path paths ih =>
    rw [deleteBuildProducts] at h
    split at h
    · cases h
    · next hone => rw [ih h, deleteBuildProduct_has hF hone, names_cons, not_or, and_assoc]

theorem deleteStaleOutputs_has {manifest : CompiledManifest n} {hashes : List Hash}
    (h : deleteStaleOutputs F manifest invocations now disk hashes = (disk', none)) (q : Path) :
    Has disk'.fs q ↔ Has disk.fs q ∧ ∀ hash ∈ hashes, (∀ i, (manifest.steps i).hash ≠ hash) →
      ¬ Names Same ((invocations.outputs hash).map Prod.fst) q := by
  induction hashes generalizing disk with
  | nil =>
    obtain rfl := (Prod.mk.inj h).1
    simp
  | cons hash hashes ih =>
    rw [deleteStaleOutputs] at h
    rw [List.forall_mem_cons]
    split at h
    · next hstep =>
      obtain ⟨i, -, hi⟩ := List.any_eq_true.mp hstep
      rw [ih h, and_iff_right (a := _ → _) fun hne => absurd (eq_of_beq hi) (hne i)]
    · next hstale =>
      have hne : ∀ i, (manifest.steps i).hash ≠ hash := by simpa using hstale
      split at h
      · nomatch h
      · next hdelete =>
        rw [ih h, ← and_assoc, forall_prop_of_true hne]
        exact and_congr_left' (deleteBuildProducts_has hF hdelete q)

end

theorem mkdirsBelow_cleaning (depth : Nat) (s : σ × Nat) (path : Path) (createdDirs : List Path) :
    (mkdirsBelow (cleaningFileSystem F) depth s path createdDirs).1 = s := by
  induction depth generalizing path createdDirs with
  | zero => rfl
  | succ depth ih =>
    rw [mkdirsBelow]
    split
    · rfl
    · next canonical _ =>
      have hbelow := ih (dirname canonical) createdDirs
      split
      · rfl
      · simp only
        rw [if_pos (.inl rfl)]
        split
        · next heq =>
          rw [heq] at hbelow
          exact hbelow
        · next heq =>
          rw [heq] at hbelow
          exact hbelow

theorem mkdirsAndLog_cleaning (disk : Disk (σ × Nat)) (path : Path) :
    (mkdirsAndLog (cleaningFileSystem F) now disk path).1.fs = disk.fs := by
  have hmkdirs := @mkdirsBelow_cleaning σ F (path.length + 2) disk.fs path []
  rw [mkdirsAndLog, mkdirs]
  split
  · next heq =>
    rw [heq] at hmkdirs
    exact hmkdirs
  · next heq =>
    rw [heq] at hmkdirs
    rw [foldl_createdDirectory]
    exact hmkdirs

theorem mkdirsAndLogAll_cleaning (disk : Disk (σ × Nat)) (paths : List Path) :
    (mkdirsAndLogAll (cleaningFileSystem F) now disk paths).1.fs = disk.fs :=
  mkdirsAndLogAll_invariant (P := fun disk' => disk'.fs = disk.fs) (fun h => (mkdirsAndLog_cleaning _ _).trans h) rfl

def Step.rspfiles (step : Step n) : List Path := if step.rspfile.isEmpty then [] else [step.rspfile]

variable {params : BuildCommandParameters (σ × Nat) n}

/-- Starting a command deletes what its step has left behind, and writes the response file. -/
theorem prepareCommand_cleaning (hF : PlainFiles F Has Same) (hparams : params.fileSystem = cleaningFileSystem F)
    {disk disk' : Disk (σ × Nat)} {step : Step n} (h : prepareCommand params now disk step = (disk', none)) (q : Path) :
    Has disk'.fs.1 q ↔ Has disk.fs.1 q ∧ ¬ Names Same ((params.invocations.outputs step.hash).map Prod.fst) q ∨
        Names Same step.rspfiles q := by
  rw [prepareCommand] at h
  split at h
  · cases h
  · next disk₁ hdelete =>
    have hdeleted : Has disk₁.fs.1 q ↔
        Has disk.fs.1 q ∧ ¬ Names Same ((params.invocations.outputs step.hash).map Prod.fst) q := by
      rw [deleteOldOutputs, hparams] at hdelete
      rw [Invocations.outputs]
      cases hentry : params.invocations.entries.lookup step.hash with
      | none =>
        rw [hentry] at hdelete
        obtain rfl := (Prod.mk.inj hdelete).1
        simp
      | some entry =>
        rw [hentry] at hdelete
        exact deleteBuildProducts_has hF.cleaning hdelete q
    split at h
    · cases h
    · next disk₂ hrspfile =>
      have hdirs := @mkdirsAndLogAll_cleaning σ F now disk₂ step.outputDirs
      rw [← hparams, h] at hdirs
      rw [hdirs, ← hdeleted]
      rw [writeRspfile, hparams] at hrspfile
      split at hrspfile
      · next hempty =>
        obtain rfl := (Prod.mk.inj hrspfile).1
        simp [Step.rspfiles, hempty]
      · next hnonempty =>
        have hmkdirs := @mkdirsAndLog_cleaning σ F now disk₁ (dirname step.rspfile)
        split at hrspfile
        · cases hrspfile
        · next disk₃ heq =>
          rw [heq] at hmkdirs
          obtain ⟨rfl, herror⟩ := Prod.mk.inj hrspfile
          have hwrite := hF.writeFile disk₃.fs.1 step.rspfile step.rspfileContent q
            (Option.map_eq_none_iff.mp herror)
          have hrspfiles : Names Same step.rspfiles q ↔ Same step.rspfile q := by
            simp [Step.rspfiles, hnonempty]
          rw [hrspfiles, ← show disk₃.fs = disk₁.fs from hmkdirs]
          exact hwrite

/-- What `commandDone` deletes of the files that served a command that has succeeded. -/
def Step.commandFiles (step : Step n) : List Path :=
  (if step.depfile.isEmpty then [] else [step.depfile]) ++ step.rspfiles

theorem deleteCommandFiles_cleaning (hF : PlainFiles F Has Same) (hparams : params.fileSystem = cleaningFileSystem F)
    {disk disk' : Disk (σ × Nat)} {step : Step n} (h : deleteCommandFiles params now disk step .success = (disk', none))
    (q : Path) : Has disk'.fs.1 q ↔ Has disk.fs.1 q ∧ ¬ Names Same step.commandFiles q := by
  rw [deleteCommandFiles, hparams] at h
  rw [deleteBuildProducts_has hF.cleaning h q]
  simp [Step.commandFiles, Step.rspfiles]

end
end Shuriken
