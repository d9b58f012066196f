import Shuriken.Build.Disk
import Shuriken.Build.Graph

/-!
# Clean steps

The functions of `build.cpp` that decide, before anything is run, which steps
are clean, and the functions that relate the files of a step to the steps that
have written them.
-/
namespace Shuriken

/-- The result of `fingerprintMatches` for the fingerprints that the build refers to. -/
abbrev FingerprintMatchesMemo := UInt32 → Option MatchesResult

def Invocations.files (invocations : Invocations) (indices : List UInt32) : List (Path × Fingerprint) :=
  indices.filterMap (fileAt invocations.fingerprints)

def Invocations.fingerprintsFor (invocations : Invocations) (entries : List InvocationEntry) : List UInt32 :=
  ((List.range invocations.fingerprints.length).filter fun i => entries.any (·.uses i)).map UInt32.ofNat

namespace Build
variable {n : Nat}

def entries (manifest : CompiledManifest n) (invocations : Invocations) (build : Build n) : List InvocationEntry :=
  ((List.finRange n).filter fun i => (build.stepNodes i).shouldBuild).filterMap fun i =>
    invocations.entries.lookup (manifest.steps i).hash

end Build

section
variable {σ : Type} {n : Nat} (F : FileSystem σ)

/-- The threads of the source only divide the work. -/
def computeFingerprintMatchesMemo (s : σ) (fingerprints : List (Path × Fingerprint))
    (usedFingerprints : List UInt32) : Except Failure FingerprintMatchesMemo :=
  usedFingerprints.foldlM (fun memo index =>
    match fileAt fingerprints index with
    | none => .ok memo
    | some (path, fp) =>
      match fingerprintMatches F s path fp with
      | .ok result => .ok (Function.update memo index (some result))
      | .error error => .error (.uncaught error)) fun _ => none

/-- `process_files` in `nonGeneratorStepIsClean`; the state is `clean` and `should_update`. -/
def processFiles (memo : FingerprintMatchesMemo) : List UInt32 → Bool × Bool → Except Failure (Bool × Bool)
  | [], state => .ok state
  | index :: indices, (clean, shouldUpdate) =>
    if !clean then .ok (clean, shouldUpdate)
    else
      match memo index with
      | none => .error (.assertionFailed "match")
      | some result => processFiles memo indices (result.clean, shouldUpdate || result.shouldUpdate)

def foldMtime (s : σ) (combine : Int64 → Int64 → Int64) : List Path → Option Int64 → Option Int64
  | [], ans => ans
  | file :: files, ans =>
    let stat := F.stat s file
    if stat.result ≠ 0 then none
    else foldMtime s combine files (some ((ans.map (combine · stat.mtime)).getD stat.mtime))

def generatorStepIsClean (s : σ) (step : Step n) : Bool :=
  if step.generatorInputs.isEmpty || step.generatorOutputs.isEmpty then true
  else
    match foldMtime F s max step.generatorInputs none, foldMtime F s min step.generatorOutputs none with
    | some inputMtime, some outputMtime => decide (inputMtime ≤ outputMtime)
    | _, _ => false

variable (invocations : Invocations) (now : Int64)

def relogCommand (disk : Disk σ) (entry : InvocationEntry) (stepHash : Hash) : Except Failure RanCommand := do
  let outputFiles ← fingerprintFiles F now disk ((invocations.files entry.outputFiles).map Prod.fst)
  let inputFiles ← fingerprintFiles F now disk ((invocations.files entry.inputFiles).map Prod.fst)
  return { buildStepHash := stepHash
           outputFiles, inputFiles
           ignoredDependencies := entry.ignoredDependencies
           additionalDependencies := entry.additionalDependencies }

def nonGeneratorStepIsClean (memo : FingerprintMatchesMemo) (disk : Disk σ) (step : Step n) :
    Except Failure (Disk σ × Bool) :=
  match invocations.entries.lookup step.hash with
  | none => .ok (disk, false)
  | some entry => do
      let state ← processFiles memo entry.outputFiles (true, false)
      let (clean, shouldUpdate) ← processFiles memo entry.inputFiles state
      if shouldUpdate && clean then
        let command ← relogCommand F invocations now disk entry step.hash
        return (disk.call now (.ranCommand command), clean)
      else return (disk, clean)

def isClean (memo : FingerprintMatchesMemo) (disk : Disk σ) (step : Step n) : Except Failure (Disk σ × Bool) :=
  if step.generator then .ok (disk, generatorStepIsClean F disk.fs step)
  else nonGeneratorStepIsClean F invocations now memo disk step

/-- One round of `computeCleanSteps`. The clock can advance from round to round. -/
def computeCleanStep (clock : Fin n → Int64) (manifest : CompiledManifest n) (build : Build n)
    (memo : FingerprintMatchesMemo) (state : Disk σ × (Fin n → Bool)) (i : Fin n) :
    Except Failure (Disk σ × (Fin n → Bool)) :=
  if (build.stepNodes i).shouldBuild then do
    let (disk, clean) ← isClean F invocations (clock i) memo state.1 (manifest.steps i)
    return (disk, Function.update state.2 i clean)
  else .ok state

def computeCleanSteps (clock : Fin n → Int64) (manifest : CompiledManifest n) (build : Build n)
    (memo : FingerprintMatchesMemo) (disk : Disk σ) : Except Failure (Disk σ × (Fin n → Bool)) :=
  (List.finRange n).foldlM (computeCleanStep F invocations clock manifest build memo)
    (disk, fun _ => false)

end

section
variable {n : Nat}

def outputFileIdsForBuildStep (invocations : Invocations) (memo : FingerprintMatchesMemo) (step : Step n) :
    Except Failure (List FileId) :=
  if step.phony || step.generator then .ok []
  else
    match invocations.entries.lookup step.hash with
    | none => .error (.runtimeError
        "internal error: outputFileIdsForBuildStep invoked with invalid step hash")
    | some entry => entry.outputFiles.mapM fun index =>
      match memo index with
      | none => .error (.runtimeError
          "internal error: outputFileIdsForBuildStep invoked with step that is not included in the build")
      | some result => .ok result.fileId

def usedDependencies (outputFiles : Finmap fun _ : FileId => Fin n) (inputFileIds : List FileId) : List (Fin n) :=
  ((inputFileIds.filterMap fun id => if id.missing then none else outputFiles.lookup id).insertionSort
    (· ≤ ·)).eraseReps

/-- The rounds of the merge up to the one in which `dep` is consumed. `rest` is the merge with the
dependencies after it. -/
def mergeDependency (dep : Fin n) (rest : List (Fin n) → List (Fin n) × List (Fin n)) :
    List (Fin n) → List (Fin n) × List (Fin n)
  | [] => ((rest []).1.cons dep, (rest []).2)
  | used :: useds =>
    if dep = used then rest useds
    else if dep < used then ((rest (used :: useds)).1.cons dep, (rest (used :: useds)).2)
    else ((mergeDependency dep rest useds).1, (mergeDependency dep rest useds).2.cons used)

/-- The loop that merges the dependencies with those that were used: the ones that were not used,
and the used ones that are not direct dependencies. -/
def mergeDependencies (deps : List (Fin n)) : List (Fin n) → List (Fin n) × List (Fin n) :=
  deps.foldr mergeDependency fun useds => ([], useds)

def Hash.le (a b : Hash) : Bool := decide (a = b ∨ a.data < b.data)

def ignoredAndAdditionalDependencies (outputFiles : Finmap fun _ : FileId => Fin n)
    (manifest : CompiledManifest n) (step : Step n) (inputFileIds : List FileId) :
    List UInt32 × List Hash :=
  let (ignored, additional) := mergeDependencies step.dependencies (usedDependencies outputFiles inputFileIds)
  (ignored.map fun i => UInt32.ofNat i, (additional.map fun i => (manifest.steps i).hash).insertionSort (Hash.le · ·))

end
end Shuriken
