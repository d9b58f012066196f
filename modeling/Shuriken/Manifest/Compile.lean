import Shuriken.Build.Graph
import Shuriken.Fs.Paths
import Shuriken.Lib.Search
import Shuriken.Lib.Lists

/-!
# Compiling a manifest

`CompiledManifest::compile` turns the steps as they are written in a manifest,
which refer to each other by paths, into steps that refer to each other by
index. A step index is a number below the number of steps.
-/
namespace Shuriken
open Function Search List

structure RawStep where
  inputs : List PathObject := []
  implicitInputs : List PathObject := []
  /-- The order-only dependencies. -/
  dependencies : List PathObject := []
  outputs : List PathObject := []
  poolName : Bytes := []
  /-- Empty for phony steps. -/
  command : Bytes := []
  description : Bytes := []
  generator : Bool := false
  depfile : Path := []
  rspfile : Path := []
  rspfileContent : Bytes := []

structure RawManifest where
  steps : List RawStep
  defaults : List PathObject := []
  pools : List (Bytes × Int) := []
  buildDir : Bytes := []
  manifestFiles : List Path := []

structure CompiledStep (n : Nat) extends Step n where
  orderOnlyDependencies : List (Fin n) := []
  description : Bytes := []
  directInputs : List Path := []

structure ManifestBuffer (n : Nat) where
  outputs : List (Path × Fin n)
  inputs : List (Path × Fin n)
  steps : Fin n → CompiledStep n
  defaults : List (Fin n)
  roots : List (Fin n)
  pools : List (Bytes × Int)
  buildDir : Bytes
  manifestStep : Option (Fin n)
  manifestFiles : List Path

def ManifestBuffer.toCompiledManifest {n : Nat} (buffer : ManifestBuffer n) : CompiledManifest n where
  steps i := (buffer.steps i).toStep
  defaults := buffer.defaults
  roots := buffer.roots

/-- The ways in which `compile` does not return true. -/
inductive CompileError where
  | buildError (what : String)
  /-- It returns false. -/
  | failed (err : String)
  deriving DecidableEq

/-- With the trailing zero. -/
def hashString (string : Bytes) : Bytes := string ++ [0]

/-- An empty string is the separator. -/
def hashPaths (paths : List PathObject) : Bytes := paths.flatMap (fun path => hashString path.original) ++ hashString []

def RawStep.hash (blake2b : Bytes → Hash) (raw : RawStep) : Hash :=
  blake2b (hashPaths raw.inputs ++ hashPaths raw.implicitInputs ++ hashPaths raw.dependencies ++
    hashPaths raw.outputs ++ hashString (if raw.generator then [] else raw.command) ++
    hashString raw.rspfile ++ hashString raw.rspfileContent)

/-- The entries of a hash map that compares with `isSame`. -/
abbrev PathToStepMap (n : Nat) : Type := List (PathObject × Fin n)

section
variable {n : Nat}

def PathToStepMap.find (map : PathToStepMap n) (path : PathObject) : Option (Fin n) :=
  (map.find? fun entry => entry.1.isSame path).map (·.2)

/-- The map, and the step that it has for the path afterwards. -/
def PathToStepMap.emplace (map : PathToStepMap n) (path : PathObject) (idx : Fin n) : PathToStepMap n × Fin n :=
  match map.find path with
  | some present => (map, present)
  | none => (map ++ [(path, idx)], idx)

def addOutput (idx : Fin n) (map : PathToStepMap n) (output : PathObject) : Except CompileError (PathToStepMap n) :=
  let (map, present) := map.emplace output idx
  if present ≠ idx then .error (.buildError ("Multiple rules generate " ++ displayPath output.original))
  else .ok map

def computeOutputPathMap (steps : List RawStep) : Except CompileError (PathToStepMap steps.length) :=
  (finRange steps.length).foldlM (fun map i => (steps.get i).outputs.foldlM (addOutput i) map) []

def RawStep.allInputs (raw : RawStep) : List PathObject := raw.inputs ++ raw.implicitInputs ++ raw.dependencies

def computeInputPathMap (steps : List RawStep) : PathToStepMap steps.length := (finRange steps.length).foldl
    (fun map i => (steps.get i).allInputs.foldl (fun map path => (map.emplace path i).1) map) []

/-- `operator<` on the pair of path and index, made total. -/
def stepPathReferenceLe (a b : Path × Fin n) : Prop := a.1 < b.1 ∨ (a.1 = b.1 ∧ a.2 ≤ b.2)

instance : DecidableRel (stepPathReferenceLe (n := n)) := fun _ _ => inferInstanceAs (Decidable (_ ∨ _))

def computePathList (map : PathToStepMap n) : List (Path × Fin n) := (map.filterMap fun entry =>
    match canonicalizePath entry.1.original with
    | .error _ => none
    | .ok path => some (path, entry.2)).insertionSort stepPathReferenceLe

/-- The variables that `process_inputs` in `convertRawStep` changes. -/
structure StepInputs (n : Nat) where
  dependencies : List (Fin n) := []
  directInputs : List Path := []
  roots : Fin n → Bool

def StepInputs.process (outputPathMap : PathToStepMap n) (processDirectInputs : Bool) (vars : StepInputs n)
    (path : PathObject) : StepInputs n :=
  match outputPathMap.find path with
  | some dependencyIdx =>
    { vars with
      dependencies := vars.dependencies ++ [dependencyIdx]
      roots := update vars.roots dependencyIdx false }
  | none =>
    if processDirectInputs then { vars with directInputs := vars.directInputs ++ [path.original] } else vars

def processInputs (outputPathMap : PathToStepMap n) (vars : StepInputs n) (paths : List PathObject)
    (processDirectInputs : Bool) : StepInputs n :=
  paths.foldl (StepInputs.process outputPathMap processDirectInputs) vars

variable (blake2b : Bytes → Hash)

def convertRawStep (outputPathMap : PathToStepMap n) (roots : Fin n → Bool) (raw : RawStep) :
    Except CompileError (CompiledStep n × (Fin n → Bool)) :=
  if raw.generator ∧ raw.depfile ≠ [] then .error (.failed "Generator build steps must not have depfile")
  else
    let vars := processInputs outputPathMap { roots } raw.inputs true
    let vars := processInputs outputPathMap vars raw.implicitInputs true
    let vars := processInputs outputPathMap vars raw.dependencies false
    let orderOnly := processInputs outputPathMap { vars with dependencies := [] } raw.dependencies false
    .ok
      ({ hash := raw.hash blake2b
         dependencies := sortAndDedup vars.dependencies
         orderOnlyDependencies := sortAndDedup orderOnly.dependencies
         outputDirs := (raw.outputs.map fun output => dirname output.original).eraseDups.filter (· ≠ [dot])
         poolName := raw.poolName
         command := raw.command
         description := raw.description
         depfile := raw.depfile
         rspfile := raw.rspfile
         rspfileContent := raw.rspfileContent
         generator := raw.generator
         generatorInputs := if raw.generator then (raw.inputs ++ raw.implicitInputs).map (·.original) else []
         generatorOutputs := if raw.generator then raw.outputs.map (·.original) else []
         directInputs := (vars.directInputs.insertionSort (· ≤ ·)).destutter (· ≠ ·) },
        orderOnly.roots)

def convertStepVector (outputPathMap : PathToStepMap n) : (steps : List RawStep) → (Fin n → Bool) →
    Except CompileError ({ ans : List (CompiledStep n) // ans.length = steps.length } × (Fin n → Bool))
  | [], roots => .ok (⟨[], rfl⟩, roots)
  | step :: steps, roots => do
      let (converted, roots) ← convertRawStep blake2b outputPathMap roots step
      let (ans, roots) ← convertStepVector outputPathMap steps roots
      return (⟨converted :: ans.1, congrArg (· + 1) ans.2⟩, roots)

def computeStepsToBuildFromPaths (paths : List PathObject) (outputPathMap : PathToStepMap n) :
    Except CompileError (List (Fin n)) :=
  paths.mapM fun path =>
    match outputPathMap.find path with
    | none => .error (.buildError ("Specified target does not exist: " ++ displayPath path.original))
    | some idx => .ok idx

def getManifestStep (outputPathMap : PathToStepMap n) (manifestPath : PathObject) : Option (Fin n) :=
  outputPathMap.find manifestPath

def cycleErrorMessage (cycle : List PathObject) : String :=
  match cycle with
  | [] => "[internal error]"
  | front :: _ =>
    cycle.foldl (fun error path => error ++ (displayPath path.original ++ " -> ")) "" ++ displayPath front.original

structure CycleSearch (n : Nat) where
  currentlyVisited : Fin n → Bool := fun _ => false
  alreadyVisited : Fin n → Bool := fun _ => false
  cyclePaths : List PathObject := []

def CycleSearch.processInput (visit : CycleSearch n → Fin n → CycleSearch n × Option String)
    (outputPathMap : PathToStepMap n) (search : CycleSearch n) (input : PathObject) :
    CycleSearch n × Option String :=
  match outputPathMap.find input with
  | none => (search, none)
  | some dependencyIdx =>
    match visit { search with cyclePaths := search.cyclePaths ++ [input] } dependencyIdx with
    | (search, some cycle) => (search, some cycle)
    | (search, none) => ({ search with cyclePaths := search.cyclePaths.dropLast }, none)

/-- Each level marks a step that was not marked before, and the first argument bounds the depth. The
answer is the message, if there is a cycle. -/
def hasDependencyCycle (outputPathMap : PathToStepMap n) (rawSteps : Fin n → RawStep) :
    Nat → CycleSearch n → Fin n → CycleSearch n × Option String
  | 0, search, _ => (search, none)
  | depth + 1, search, idx =>
    if search.currentlyVisited idx then (search, some (cycleErrorMessage search.cyclePaths))
    else if search.alreadyVisited idx then (search, none)
    else
      let search := { search with
        alreadyVisited := update search.alreadyVisited idx true
        currentlyVisited := update search.currentlyVisited idx true }
      let (search, foundCycle) := firstSome
        (CycleSearch.processInput (hasDependencyCycle outputPathMap rawSteps depth) outputPathMap)
        search (rawSteps idx).allInputs
      ({ search with currentlyVisited := update search.currentlyVisited idx false }, foundCycle)

def getDependencyCycle (outputPathMap : PathToStepMap n) (rawSteps : Fin n → RawStep) : String :=
  (firstSome (hasDependencyCycle outputPathMap rawSteps (n + 1)) {} (finRange n)).2.getD ""

structure StepSearch (n : Nat) where
  alreadyVisited : Fin n → Bool := fun _ => false
  result : Fin n → Option (Fin n) := fun _ => none

/-- The first argument bounds the depth, as above. -/
def searchStepDependenciesHelper (steps : Fin n → Step n) (predicate : Step n → Bool) :
    Nat → StepSearch n → Fin n → StepSearch n × Option (Fin n)
  | 0, search, _ => (search, none)
  | depth + 1, search, idx =>
    if search.alreadyVisited idx then (search, search.result idx)
    else
      let search := { search with alreadyVisited := update search.alreadyVisited idx true }
      if predicate (steps idx) then
        ({ search with result := update search.result idx (some idx) }, some idx)
      else
        match firstSome (searchStepDependenciesHelper steps predicate depth) search
            (steps idx).dependencies with
        | (search, some found) =>
          ({ search with result := update search.result idx (some found) }, some found)
        | (search, none) => (search, none)

/-- For each step the index of a dependency for which the predicate holds, or of the step itself. -/
def searchStepDependencies (steps : Fin n → Step n) (predicate : Step n → Bool) : Fin n → Option (Fin n) :=
  ((finRange n).foldl (fun search idx => (searchStepDependenciesHelper steps predicate (n + 1) search idx).1) {}).result

/-- One round of the loop of `getBadGeneratorDependency`. -/
def badGeneratorDependency (steps : Fin n → Step n)
    (generatorDependency nonGeneratorDependency : Fin n → Option (Fin n)) (idx : Fin n) : Option String :=
  if (steps idx).phony then none
  else
    match (if (steps idx).generator then nonGeneratorDependency else generatorDependency) idx with
    | none => none
    | some illegalDependencyIndex =>
      some ((if (steps idx).generator then "Generator build steps must not depend on normal build steps: "
          else "Normal build steps must not depend on generator build steps: ") ++
        displayPath (steps idx).command ++ " depends on " ++
        displayPath (steps illegalDependencyIndex).command)

def getBadGeneratorDependency (steps : Fin n → Step n) : String :=
  let generatorDependency := searchStepDependencies steps fun step => !step.phony && step.generator
  let nonGeneratorDependency := searchStepDependencies steps fun step => !step.phony && !step.generator
  ((finRange n).findSome? (badGeneratorDependency steps generatorDependency nonGeneratorDependency)).getD ""

end

/-- `CompiledManifest::compile`, called with an empty `err`. -/
def compile (blake2b : Bytes → Hash) (manifestPath : PathObject) (manifest : RawManifest) :
    Except CompileError (ManifestBuffer manifest.steps.length) := do
  let outputPathMap ← computeOutputPathMap manifest.steps
  let (steps, roots) ← convertStepVector blake2b outputPathMap manifest.steps fun _ => true
  let defaults ← computeStepsToBuildFromPaths manifest.defaults outputPathMap
  let cycle := getDependencyCycle outputPathMap manifest.steps.get
  let buffer : ManifestBuffer manifest.steps.length :=
    { outputs := computePathList outputPathMap
      inputs := computePathList (computeInputPathMap manifest.steps)
      steps := fun i => steps.1.get (i.cast steps.2.symm)
      defaults
      roots := (finRange manifest.steps.length).filter (roots ·)
      pools := manifest.pools
      buildDir := manifest.buildDir
      manifestStep := getManifestStep outputPathMap manifestPath
      manifestFiles := manifest.manifestFiles }
  let bad := getBadGeneratorDependency fun i => (buffer.steps i).toStep
  if bad ≠ "" then .error (.failed bad)
  else if cycle ≠ "" then .error (.failed ("Dependency cycle: " ++ cycle))
  else .ok buffer

end Shuriken
