import Shuriken.Build.Clean

/-!
# Running commands

`enqueueBuildCommand`, which takes a ready step and skips it or starts its
command, and `commandDone`, which is called when a command has finished.
-/
namespace Shuriken

inductive ExitStatus where
  | success
  | failure
  | interrupted
  deriving DecidableEq

/-- `CommandRunner::Result`, without the output of the command. -/
structure CommandResult where
  inputFiles : List Path := []
  outputFiles : List Path := []
  exitStatus : ExitStatus := .success
  deriving DecidableEq

/-- What stays the same while the commands of a build run. -/
structure BuildCommandParameters (σ : Type) (n : Nat) where
  fileSystem : FileSystem σ
  manifest : CompiledManifest n
  invocations : Invocations
  cleanSteps : Fin n → Bool
  fingerprintMatchesMemo : FingerprintMatchesMemo
  failuresAllowed : UInt64

section
variable {σ : Type} {n : Nat} (params : BuildCommandParameters σ n)

def inputUnchanged (writtenFiles : Finmap fun _ : FileId => Hash) (s : σ) (file : Path × Fingerprint) : Bool :=
  let newStat := params.fileSystem.lstat s file.1
  match writtenFiles.lookup (FileId.ofStat newStat) with
  | none => true
  | some newHash => fingerprintMatchesStat file.2 newStat newHash

def canSkipBuildCommand (s : σ) (build : Build n) (stepIdx : Fin n) : Bool :=
  if !params.cleanSteps stepIdx then false
  else if (build.stepNodes stepIdx).noDirectDependenciesBuilt then true
  else
    match params.invocations.entries.lookup (params.manifest.steps stepIdx).hash with
    | none => false
    | some entry =>
      (params.invocations.files entry.inputFiles).all (inputUnchanged params build.writtenFiles s)

def commandBypassed (build : Build n) (stepIdx : Fin n) : Except Failure (Build n) := do
  let outputFileIds ← outputFileIdsForBuildStep params.invocations params.fingerprintMatchesMemo
    (params.manifest.steps stepIdx)
  build.markStepNodeAsDone params.manifest params.invocations stepIdx outputFileIds true

variable (now : Int64)

def deleteOldOutputs (disk : Disk σ) (stepHash : Hash) : Disk σ × Option Failure :=
  match params.invocations.entries.lookup stepHash with
  | none => (disk, none)
  | some entry =>
    deleteBuildProducts params.fileSystem params.invocations now disk
      ((params.invocations.files entry.outputFiles).map Prod.fst)

def writeRspfile (disk : Disk σ) (step : Step n) : Disk σ × Option Failure :=
  if step.rspfile.isEmpty then (disk, none)
  else
    match mkdirsAndLog params.fileSystem now disk (dirname step.rspfile) with
    | (disk, some failure) => (disk, some failure)
    | (disk, none) =>
      match params.fileSystem.writeFile disk.fs step.rspfile step.rspfileContent with
      | (fs, error) => ({ disk with fs }, error.map .ioError)

/-- What is done to the file system before the command of a step is invoked. -/
def prepareCommand (disk : Disk σ) (step : Step n) : Disk σ × Option Failure :=
  match deleteOldOutputs params now disk step.hash with
  | (disk, some failure) => (disk, some failure)
  | (disk, none) =>
    match writeRspfile params now disk step with
    | (disk, some failure) => (disk, some failure)
    | (disk, none) => mkdirsAndLogAll params.fileSystem now disk step.outputDirs

def deleteCommandFiles (disk : Disk σ) (step : Step n) (exitStatus : ExitStatus) : Disk σ × Option Failure :=
  deleteBuildProducts params.fileSystem params.invocations now disk
    ((if step.depfile.isEmpty then [] else [step.depfile]) ++
      if step.rspfile.isEmpty || exitStatus == .failure then [] else [step.rspfile])

structure OutputFiles where
  files : List (Path × Fingerprint) := []
  fileIds : List FileId := []
  writtenFiles : Finmap fun _ : FileId => Hash
  exitStatus : ExitStatus

/-- A file that another step has written makes the command fail. -/
def fingerprintOutput (disk : Disk σ) (outputs : OutputFiles) (path : Path) : Except Failure OutputFiles :=
  match disk.log.fingerprint params.fileSystem disk.fs now path with
  | .error error => .error (.ioError error)
  | .ok (fp, fileId) =>
    let written := (outputs.writtenFiles.lookup fileId).isSome
    .ok { files := outputs.files ++ [(path, fp)]
          fileIds := outputs.fileIds ++ [fileId]
          writtenFiles :=
            if fp.stat.couldAccess && !written then outputs.writtenFiles.insert fileId fp.hash
            else outputs.writtenFiles
          exitStatus := if fp.stat.couldAccess && written then .failure else outputs.exitStatus }

def fingerprintInputs (disk : Disk σ) (paths : List Path) : Except Failure (List ((Path × Fingerprint) × FileId)) :=
  paths.mapM fun path =>
    match disk.log.fingerprint params.fileSystem disk.fs now path with
    | .error error => .error (.ioError error)
    | .ok (fp, fileId) => .ok ((path, fp), fileId)

def commandToLog (build : Build n) (stepIdx : Fin n) (outputs : List (Path × Fingerprint))
    (inputs : List ((Path × Fingerprint) × FileId)) : RanCommand :=
  let step := params.manifest.steps stepIdx
  let dependencies := ignoredAndAdditionalDependencies build.outputFiles params.manifest step (inputs.map Prod.snd)
  { buildStepHash := step.hash
    outputFiles := outputs
    inputFiles := inputs.map Prod.fst
    ignoredDependencies := dependencies.1
    additionalDependencies := dependencies.2 }

/-- Steps of the console pool and phony steps are not logged. -/
def Step.logged (step : Step n) : Bool := !isConsolePool step.poolName && !step.phony

def Build.countFailure (build : Build n) : Build n := { build with
    remainingFailures :=
      if build.remainingFailures ≠ 0 then build.remainingFailures - 1 else build.remainingFailures }

/-- `commandDone` up to the point where more commands are enqueued. The last component tells
whether the step is done. -/
def commandDone (disk : Disk σ) (build : Build n) (stepIdx : Fin n) (result : CommandResult) :
    Disk σ × Except Failure (Build n × Bool) :=
  let step := params.manifest.steps stepIdx
  match deleteCommandFiles params now disk step result.exitStatus with
  | (disk, some failure) => (disk, .error failure)
  | (disk, none) =>
    match result.outputFiles.foldlM (fingerprintOutput params now disk)
        { writtenFiles := build.writtenFiles, exitStatus := result.exitStatus } with
    | .error failure => (disk, .error failure)
    | .ok outputs =>
      let build := { build with writtenFiles := outputs.writtenFiles }
      match fingerprintInputs params now disk result.inputFiles with
      | .error failure => (disk, .error failure)
      | .ok inputs =>
        if outputs.exitStatus = .success then
          (if step.logged then
              disk.call now (.ranCommand (commandToLog params build stepIdx outputs.files inputs))
            else disk,
            do
              let build ← build.markStepNodeAsDone params.manifest params.invocations stepIdx
                outputs.fileIds false
              return (build, true))
        else
          (disk, .ok (build.countFailure, false))

end
end Shuriken
