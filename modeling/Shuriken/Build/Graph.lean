import Shuriken.Fs.Directories
import Shuriken.Log.Format

/-!
# The build graph

The steps of a build as `manifest/step.h` gives them, and `Build` with the operations that maintain it:
`construct` visits the steps to build and links them, `markStepNodeAsDone` releases the steps that wait for one
that is done. A step index is a number below the number of steps, so that a manifest cannot refer to a step that
it does not have.
-/
namespace Shuriken

/-- The ways in which a build is left by an exception, and failed assertions. -/
inductive Failure where
  | ioError (error : IoError)
  | buildError (what : String)
  | runtimeError (what : String)
  | assertionFailed (what : String)
  /-- An exception that leaves a worker thread ends the process. -/
  | uncaught (error : IoError)
  deriving DecidableEq

structure Step (n : Nat) where
  hash : Hash
  /-- The steps that must be done before this step can be run. -/
  dependencies : List (Fin n) := []
  /-- Empty for phony steps. -/
  command : Bytes := []
  generator : Bool := false
  poolName : Bytes := []
  depfile : Path := []
  rspfile : Path := []
  rspfileContent : Bytes := []
  outputDirs : List Path := []
  generatorInputs : List Path := []
  generatorOutputs : List Path := []
  deriving DecidableEq

def Step.phony {n : Nat} (step : Step n) : Bool := step.command.isEmpty

def isConsolePool (poolName : Bytes) : Bool := poolName == [99, 111, 110, 115, 111, 108, 101]

structure CompiledManifest (n : Nat) where
  steps : Fin n → Step n
  defaults : List (Fin n) := []
  roots : List (Fin n) := []

def computeStepsToBuild {n : Nat} (manifest : CompiledManifest n) (specifiedSteps : List (Fin n)) :
    Except Failure (List (Fin n)) :=
  if specifiedSteps ≠ [] then .ok specifiedSteps
  else if manifest.defaults ≠ [] then .ok manifest.defaults
  else if manifest.roots = [] ∧ n ≠ 0 then
    .error (.buildError "Could not determine root nodes of build graph. Cyclic dependency?")
  else .ok manifest.roots

structure StepNode (n : Nat) where
  /-- The steps that wait for this step, once for each edge. -/
  dependents : List (Fin n) := []
  /-- How many steps that are not yet built this step waits for. -/
  dependencies : Nat := 0
  noDirectDependenciesBuilt : Bool := true
  shouldBuild : Bool := false
  currentlyVisited : Bool := false
  deriving DecidableEq

namespace StepNode
variable {n : Nat}

def addDependent (idx : Fin n) (node : StepNode n) : StepNode n := { node with dependents := node.dependents ++ [idx] }

def addDependency (node : StepNode n) : StepNode n := { node with dependencies := node.dependencies + 1 }

def setDependenciesBuilt (node : StepNode n) : StepNode n := { node with noDirectDependenciesBuilt := false }

def startVisit (node : StepNode n) : StepNode n := { node with shouldBuild := true, currentlyVisited := true }

def endVisit (node : StepNode n) : StepNode n := { node with currentlyVisited := false }

end StepNode

structure Build (n : Nat) where
  stepNodes : Fin n → StepNode n := fun _ => {}
  /-- A stack, the last one is run first. -/
  readySteps : List (Fin n) := []
  remainingFailures : Int32 := 0
  invokedCommands : Nat := 0
  writtenFiles : Finmap fun _ : FileId => Hash := ∅
  outputFiles : Finmap fun _ : FileId => Fin n := ∅

def lowerBound (xs : List UInt32) (x : UInt32) : Nat → Nat → Nat → Nat
  | 0, first, _ => first
  | rounds + 1, first, len =>
    if len = 0 then first
    else if xs.getD (first + len / 2) 0 < x then
      lowerBound xs x rounds (first + len / 2 + 1) (len - len / 2 - 1)
    else lowerBound xs x rounds first (len / 2)

def binarySearch (xs : List UInt32) (x : UInt32) : Bool :=
  match xs[lowerBound xs x xs.length 0 xs.length]? with
  | none => false
  | some y => !decide (x < y)

def stepIsIgnored {n : Nat} (invocations : Invocations) (possiblyIgnoringStepHash : Hash)
    (possiblyIgnoredStep : Fin n) : Bool :=
  match invocations.entries.lookup possiblyIgnoringStepHash with
  | none => false
  | some entry => binarySearch entry.ignoredDependencies (UInt32.ofNat possiblyIgnoredStep)

namespace Build

section
variable {n : Nat}

def updateNode (build : Build n) (i : Fin n) (f : StepNode n → StepNode n) : Build n :=
  { build with stepNodes := Function.update build.stepNodes i (f (build.stepNodes i)) }

variable (manifest : CompiledManifest n) (invocations : Invocations)

def stepIndex (hash : Hash) : Option (Fin n) := (List.finRange n).reverse.find? fun i => (manifest.steps i).hash = hash

def addDependency (visit : Build n → Fin n → Except Failure (Build n)) (idx : Fin n) (build : Build n)
    (dependencyIdx : Fin n) : Except Failure (Build n) :=
  visit ((build.updateNode dependencyIdx (.addDependent idx)).updateNode idx .addDependency) dependencyIdx

/-- An additional dependency that is no longer in the manifest only sets the flag. -/
def addAdditionalDependency (visit : Build n → Fin n → Except Failure (Build n)) (idx : Fin n)
    (build : Build n) (hash : Hash) : Except Failure (Build n) :=
  match stepIndex manifest hash with
  | none => .ok (build.updateNode idx .setDependenciesBuilt)
  | some dependencyIdx => addDependency visit idx build dependencyIdx

def additionalDependencies (idx : Fin n) : List Hash :=
  match invocations.entries.lookup (manifest.steps idx).hash with
  | none => []
  | some entry => entry.additionalDependencies

/-- The traversal. Each level marks a step that was not marked before, and the first argument
bounds the depth. -/
def visitStep : Nat → Build n → Fin n → Except Failure (Build n)
  | 0, _, _ => .error (.runtimeError "stack overflow")
  | depth + 1, build, idx =>
    if (build.stepNodes idx).currentlyVisited then .error (.buildError "Dependency cycle")
    else if (build.stepNodes idx).shouldBuild then .ok build
    else do
      let build := build.updateNode idx .startVisit
      let build ← (manifest.steps idx).dependencies.foldlM (addDependency (visitStep depth) idx) build
      let build ← (additionalDependencies manifest invocations idx).foldlM
        (addAdditionalDependency manifest (visitStep depth) idx) build
      return build.updateNode idx .endVisit

def computeReadySteps (stepNodes : Fin n → StepNode n) : List (Fin n) :=
  (List.finRange n).filter fun i => (stepNodes i).shouldBuild ∧ (stepNodes i).dependencies = 0

def construct (failuresAllowed : UInt64) (stepsToBuild : List (Fin n)) : Except Failure (Build n) := do
  let build ← stepsToBuild.foldlM (visitStep manifest invocations (n + 1)) {}
  return { build with
    readySteps := computeReadySteps build.stepNodes
    remainingFailures := failuresAllowed.toUInt32.toInt32 }

def emplaceOutputFiles (stepIdx : Fin n) :
    List FileId → (Finmap fun _ : FileId => Fin n) → Except Failure (Finmap fun _ : FileId => Fin n)
  | [], outputFiles => .ok outputFiles
  | fileId :: fileIds, outputFiles =>
    if fileId.missing then emplaceOutputFiles stepIdx fileIds outputFiles
    else if (outputFiles.lookup fileId).isSome then
      .error (.buildError "More than one step wrote to the same file")
    else emplaceOutputFiles stepIdx fileIds (.insert fileId stepIdx outputFiles)

/-- One round of the second loop. The flag stays if the step was skipped or is ignored. -/
def releaseDependent (stepIdx : Fin n) (stepWasSkipped : Bool) (build : Build n) (dependentIdx : Fin n) :
    Except Failure (Build n) :=
  let node := build.stepNodes dependentIdx
  let flag := node.noDirectDependenciesBuilt &&
    (stepWasSkipped || stepIsIgnored invocations (manifest.steps dependentIdx).hash stepIdx)
  if node.dependencies = 0 then .error (.assertionFailed "dependent.dependencies")
  else
    .ok { build.updateNode dependentIdx fun node =>
            { node with noDirectDependenciesBuilt := flag, dependencies := node.dependencies - 1 } with
          readySteps :=
            if node.dependencies = 1 then build.readySteps ++ [dependentIdx] else build.readySteps }

def markStepNodeAsDone (stepIdx : Fin n) (outputFileIds : List FileId) (stepWasSkipped : Bool)
    (build : Build n) : Except Failure (Build n) := do
  let outputFiles ← emplaceOutputFiles stepIdx outputFileIds build.outputFiles
  (build.stepNodes stepIdx).dependents.foldlM
    (releaseDependent manifest invocations stepIdx stepWasSkipped) { build with outputFiles }

end
end Build
end Shuriken
