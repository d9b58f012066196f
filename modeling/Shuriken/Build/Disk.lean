import Shuriken.Build.Graph
import Shuriken.Log.Delayed

/-!
# The files and the log of a build

What a build changes outside of its own data structures: the file system, and
the invocation log, which is a delayed log around a persistent one.
-/
namespace Shuriken

/-- The log of a build, by the persistent log that was opened for it and the calls that were
made since. -/
structure InvocationLog where
  opened : PersistentInvocationLog
  calls : List (Int64 × LogCall) := []

namespace InvocationLog

def state (log : InvocationLog) : DelayedInvocationLog PersistentInvocationLog :=
  (DelayedInvocationLog.mk log.opened []).run (fun _ => PersistentInvocationLog.call) log.calls

def call (log : InvocationLog) (now : Int64) (c : LogCall) : InvocationLog :=
  { log with calls := log.calls ++ [(now, c)] }

def callAll (log : InvocationLog) (now : Int64) (cs : List LogCall) : InvocationLog :=
  { log with calls := log.calls ++ cs.map (now, ·) }

@[simp] theorem callAll_nil (log : InvocationLog) (now : Int64) : log.callAll now [] = log := by
  simp [callAll]

@[simp] theorem callAll_call (log : InvocationLog) (now : Int64) (c : LogCall) (cs : List LogCall) :
    (log.call now c).callAll now cs = log.callAll now (c :: cs) := by
  simp [callAll, call]

/-- `fingerprint` is forwarded to the inner log, which does not see delayed entries. -/
def fingerprint {σ : Type} (F : FileSystem σ) (s : σ) (now : Int64) (log : InvocationLog) (path : Path) :
    Except IoError (Fingerprint × FileId) :=
  log.state.innerLog.fingerprint F s now path

end InvocationLog

structure Disk (σ : Type) where
  fs : σ
  log : InvocationLog

namespace Disk

def call {σ : Type} (disk : Disk σ) (now : Int64) (c : LogCall) : Disk σ := { disk with log := disk.log.call now c }

theorem fs_ite_call {σ : Type} (disk : Disk σ) (now : Int64) (c : LogCall) (logged : Bool) :
    (if logged then disk.call now c else disk).fs = disk.fs := by
  cases logged <;> rfl

end Disk

section
variable {σ : Type} (F : FileSystem σ) (invocations : Invocations) (now : Int64)

/-- Deletes the ancestor directories that builds have made and that have become empty. The path
gets shorter in each round, and the first argument bounds the rounds. -/
def deleteAncestors : Nat → Disk σ → Path → Disk σ × Option Failure
  | 0, disk, _ => (disk, none)
  | rounds + 1, disk, dir =>
    let parent := dirname dir
    if parent = dir then (disk, none)
    else
      let stat := F.lstat disk.fs parent
      if stat.result ≠ 0 then (disk, none)
      else if (invocations.createdDirectories.lookup (FileId.ofStat stat)).isNone then (disk, none)
      else
        match F.rmdir disk.fs parent with
        | (fs, none) =>
          deleteAncestors rounds ({ disk with fs }.call now (.removedDirectory parent)) parent
        | (fs, some error) =>
          if error.code = ENOTEMPTY then ({ disk with fs }, none)
          else ({ disk with fs }, some (.ioError error))

def deleteBuildProduct (disk : Disk σ) (path : Path) : Disk σ × Option Failure :=
  match F.unlink disk.fs path with
  | (fs, some error) =>
    if error.code ≠ ENOENT then
      ({ disk with fs }, some (.ioError
        ⟨"Failed to unlink build product " ++ displayPath path ++ ": " ++ error.what, error.code⟩))
    else deleteAncestors F invocations now (path.length + 1) { disk with fs } path
  | (fs, none) => deleteAncestors F invocations now (path.length + 1) { disk with fs } path

/-- The loops over build products stop at the first exception. -/
def deleteBuildProducts : Disk σ → List Path → Disk σ × Option Failure
  | disk, [] => (disk, none)
  | disk, path :: paths =>
    match deleteBuildProduct F invocations now disk path with
    | (disk, some failure) => (disk, some failure)
    | (disk, none) => deleteBuildProducts disk paths

/-- Directories that were created before an error are not logged. -/
def mkdirsAndLog (disk : Disk σ) (path : Path) : Disk σ × Option Failure :=
  match mkdirs F disk.fs path with
  | (fs, _, some error) => ({ disk with fs }, some (.ioError error))
  | (fs, createdDirs, none) =>
    (createdDirs.foldl (fun disk path => disk.call now (.createdDirectory path)) { disk with fs }, none)

def mkdirsAndLogAll : Disk σ → List Path → Disk σ × Option Failure
  | disk, [] => (disk, none)
  | disk, path :: paths =>
    match mkdirsAndLog F now disk path with
    | (disk, some failure) => (disk, some failure)
    | (disk, none) => mkdirsAndLogAll disk paths

def fingerprintFiles (disk : Disk σ) (paths : List Path) : Except Failure (List (Path × Fingerprint)) :=
  paths.mapM fun path =>
    match disk.log.fingerprint F disk.fs now path with
    | .ok (fp, _) => .ok (path, fp)
    | .error error => .error (.ioError error)

end

def InvocationLog.AddsDirectories (log log' : InvocationLog) : Prop :=
  ∃ new, log' = { log with calls := log.calls ++ new } ∧ ∀ c ∈ new, c.2.isCommand = false

theorem InvocationLog.AddsDirectories.refl (log : InvocationLog) : log.AddsDirectories log :=
  ⟨[], by rw [List.append_nil], nofun⟩

theorem InvocationLog.AddsDirectories.trans {log log' log'' : InvocationLog} (h : log.AddsDirectories log')
    (h' : log'.AddsDirectories log'') : log.AddsDirectories log'' := by
  obtain ⟨new, rfl, hnew⟩ := h
  obtain ⟨new', rfl, hnew'⟩ := h'
  exact ⟨new ++ new', by rw [List.append_assoc], List.forall_mem_append.mpr ⟨hnew, hnew'⟩⟩

theorem InvocationLog.AddsDirectories.opened_eq {log log' : InvocationLog} (h : log.AddsDirectories log') :
    log'.opened = log.opened := by
  obtain ⟨new, rfl, -⟩ := h
  rfl

section
variable {σ : Type} {F : FileSystem σ} {invocations : Invocations} {now : Int64} {disk : Disk σ}

theorem deleteAncestors_addsDirectories {rounds : Nat} {dir : Path} :
    disk.log.AddsDirectories (deleteAncestors F invocations now rounds disk dir).1.log := by
  induction rounds generalizing disk dir with
  | zero => exact .refl _
  | succ rounds ih =>
    simp only [deleteAncestors]
    split
    · exact .refl _
    · split
      · exact .refl _
      · split
        · exact .refl _
        · split
          · exact .trans ⟨[_], rfl, List.forall_mem_singleton.mpr rfl⟩ ih
          · split <;> exact .refl _

variable {path : Path} {P : Disk σ → Prop} {paths : List Path}

theorem deleteBuildProduct_addsDirectories :
    disk.log.AddsDirectories (deleteBuildProduct F invocations now disk path).1.log := by
  rw [deleteBuildProduct]
  split
  · split
    · exact .refl _
    · exact deleteAncestors_addsDirectories
  · exact deleteAncestors_addsDirectories

theorem deleteBuildProducts_invariant
    (hone : ∀ {disk path}, P disk → P (deleteBuildProduct F invocations now disk path).1) (h : P disk) :
    P (deleteBuildProducts F invocations now disk paths).1 := by
  induction paths generalizing disk with
  | nil => exact h
  | cons path paths ih =>
    have hpath : P (deleteBuildProduct F invocations now disk path).1 := hone h
    rw [deleteBuildProducts]
    cases hdelete : deleteBuildProduct F invocations now disk path with
    | mk disk' failure =>
      rw [hdelete] at hpath
      cases failure with
      | some failure => exact hpath
      | none => exact ih hpath

theorem deleteBuildProducts_addsDirectories :
    disk.log.AddsDirectories (deleteBuildProducts F invocations now disk paths).1.log :=
  deleteBuildProducts_invariant (P := fun disk' => disk.log.AddsDirectories disk'.log)
    (fun h => h.trans deleteBuildProduct_addsDirectories) (.refl _)

theorem foldl_createdDirectory (now : Int64) (dirs : List Path) (disk : Disk σ) :
    dirs.foldl (fun disk path => disk.call now (.createdDirectory path)) disk =
      { disk with log := disk.log.callAll now (dirs.map .createdDirectory) } := by
  induction dirs generalizing disk with
  | nil => simp
  | cons dir dirs ih => rw [List.foldl_cons, ih, Disk.call, List.map_cons, ← InvocationLog.callAll_call]

theorem mkdirsAndLog_addsDirectories : disk.log.AddsDirectories (mkdirsAndLog F now disk path).1.log := by
  rw [mkdirsAndLog]
  split
  · exact .refl _
  · rw [foldl_createdDirectory]
    exact ⟨_, rfl, List.forall_mem_map.mpr (List.forall_mem_map.mpr fun _ _ => rfl)⟩

theorem mkdirsAndLogAll_invariant (hone : ∀ {disk path}, P disk → P (mkdirsAndLog F now disk path).1) (h : P disk) :
    P (mkdirsAndLogAll F now disk paths).1 := by
  induction paths generalizing disk with
  | nil => exact h
  | cons path paths ih =>
    have hpath : P (mkdirsAndLog F now disk path).1 := hone h
    rw [mkdirsAndLogAll]
    cases hmkdirs : mkdirsAndLog F now disk path with
    | mk disk' failure =>
      rw [hmkdirs] at hpath
      cases failure with
      | some failure => exact hpath
      | none => exact ih hpath

theorem mkdirsAndLogAll_addsDirectories : disk.log.AddsDirectories (mkdirsAndLogAll F now disk paths).1.log :=
  mkdirsAndLogAll_invariant (P := fun disk' => disk.log.AddsDirectories disk'.log)
    (fun h => h.trans mkdirsAndLog_addsDirectories) (.refl _)

end
end Shuriken
