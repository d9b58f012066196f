import Shuriken.Build.Commands
import Mathlib.Data.Fintype.Basic

/-!
# Builds as a transition system

`build` as a machine that takes one step for each round of its loops, for each completion of a command, and
for each change that a running command makes to the file system. A build begins with the log that the builds
before it have left.
-/
namespace Shuriken
open Option

inductive BuildResult where
  | noWorkToDo
  | success
  | interrupted
  | failure
  deriving DecidableEq

inductive Phase (n : Nat) where
  /-- The loop of `discardCleanSteps`, with its local variables. -/
  | discarding (visited : Fin n → Bool) (newReadySteps : List (Fin n)) (discardedSteps : Nat)
  /-- The loop of `enqueueBuildCommands` -/
  | enqueueing
  /-- The command runner has control. -/
  | waiting
  | finished (result : BuildResult)
  | thrown (failure : Failure)
  deriving DecidableEq

/-- What has happened to the steps of a build, in the order in which it happened. -/
structure StepHistory (n : Nat) where
  /-- The steps that `computeReadySteps` and `markStepNodeAsDone` have made ready. A step that
  `discardCleanSteps` sets aside and puts back is not counted again. -/
  entered : List (Fin n) := []
  started : List (Fin n) := []
  skipped : List (Fin n) := []
  /-- The steps for which `markStepNodeAsDone` was called. -/
  done : List (Fin n) := []
  /-- The steps whose commands did not succeed, or wrote to a file that was already written. -/
  failed : List (Fin n) := []

/-- The state of a build, with the file system and the commands that it runs. -/
structure World (σ : Type) (n : Nat) where
  disk : Disk σ
  clock : Int64
  build : Build n
  phase : Phase n
  running : List (Fin n) := []
  history : StepHistory n

inductive Event (σ : Type) (n : Nat) where
  | discard
  /-- A round of `enqueueBuildCommands`, with the answer of the command runner. -/
  | enqueue (canRunMore : Bool)
  | commandDone (stepIdx : Fin n) (result : CommandResult)
  /-- A running command changes the file system. -/
  | effect (stepIdx : Fin n) (fs : σ)
  | tick (clock : Int64)
  /-- `runCommands` was interrupted. -/
  | interrupt
  | finish

namespace World

section
variable {σ : Type} {n : Nat} (params : BuildCommandParameters σ n)

def throw (w : World σ n) (failure : Failure) : World σ n := { w with phase := .thrown failure }

def markDone (w : World σ n) (stepIdx : Fin n) (stepWasSkipped : Bool) (build : Build n) : World σ n := { w with
    build
    history := { w.history with
      entered := w.history.entered ++ build.readySteps.drop w.build.readySteps.length
      skipped := if stepWasSkipped then w.history.skipped ++ [stepIdx] else w.history.skipped
      done := w.history.done ++ [stepIdx] } }

def bypass (w : World σ n) (stepIdx : Fin n) : World σ n :=
  match commandBypassed params w.build stepIdx with
  | .error failure => w.throw failure
  | .ok build => w.markDone stepIdx true build

def discard (w : World σ n) (visited : Fin n → Bool) (newReadySteps : List (Fin n))
    (discardedSteps : Nat) : World σ n :=
  match w.build.readySteps.getLast? with
  | none => { w with build.readySteps := newReadySteps, phase := .enqueueing }
  | some stepIdx =>
    let w := { w with build.readySteps := w.build.readySteps.dropLast }
    if visited stepIdx then w
    else
      let visited := Function.update visited stepIdx true
      let phony := (params.manifest.steps stepIdx).phony
      if params.cleanSteps stepIdx || phony then
        { w with phase := .discarding visited newReadySteps (if phony then discardedSteps else discardedSteps + 1) }
          |>.bypass params stepIdx
      else { w with phase := .discarding visited (newReadySteps ++ [stepIdx]) discardedSteps }

def invoke (w : World σ n) (stepIdx : Fin n) : World σ n :=
  match prepareCommand params w.clock w.disk (params.manifest.steps stepIdx) with
  | (disk, some failure) => { w with disk }.throw failure
  | (disk, none) =>
    { w with
      disk
      running := w.running ++ [stepIdx]
      history.started := w.history.started ++ [stepIdx] }

def takeReady (w : World σ n) (stepIdx : Fin n) : World σ n := { w with
    build.readySteps := w.build.readySteps.dropLast
    build.invokedCommands := w.build.invokedCommands +
      if (params.manifest.steps stepIdx).phony then 0 else 1 }

def enqueueStep (w : World σ n) (stepIdx : Fin n) : World σ n :=
  let w := w.takeReady params stepIdx
  if canSkipBuildCommand params w.disk.fs w.build stepIdx then w.bypass params stepIdx
  else w.invoke params stepIdx

def enqueue (w : World σ n) (canRunMore : Bool) : World σ n :=
  match w.build.readySteps.getLast? with
  | none => { w with phase := .waiting }
  | some stepIdx =>
    if !canRunMore || w.build.remainingFailures == 0 then { w with phase := .waiting }
    else w.enqueueStep params stepIdx

def complete (w : World σ n) (stepIdx : Fin n) (result : CommandResult) : World σ n :=
  match commandDone params w.clock w.disk w.build stepIdx result with
  | (disk, .error failure) => { w with disk, running := w.running.erase stepIdx }.throw failure
  | (disk, .ok (build, true)) =>
    { w with disk, running := w.running.erase stepIdx, phase := .enqueueing }.markDone stepIdx false build
  | (disk, .ok (build, false)) =>
    { w with
      disk, build
      running := w.running.erase stepIdx
      phase := .enqueueing
      history.failed := w.history.failed ++ [stepIdx] }

/-- The result of `build` when the runner has become empty. The comparison is that of an `int`
with a `size_t`. -/
def result (w : World σ n) : BuildResult :=
  if w.build.remainingFailures.toInt64.toUInt64 = params.failuresAllowed then
    if w.build.invokedCommands = 0 then .noWorkToDo else .success
  else .failure

/-- The next state, if the event can happen. A runner that is empty can run more. -/
def next (w : World σ n) : Event σ n → Option (World σ n)
  | .discard =>
    match w.phase with
    | .discarding visited newReadySteps discardedSteps =>
      some (w.discard params visited newReadySteps discardedSteps)
    | _ => none
  | .enqueue canRunMore =>
    match w.phase with
    | .enqueueing => if w.running = [] ∧ canRunMore = false then none else some (w.enqueue params canRunMore)
    | _ => none
  | .commandDone stepIdx result =>
    match w.phase with
    | .waiting => if stepIdx ∈ w.running then some (w.complete params stepIdx result) else none
    | _ => none
  | .effect stepIdx fs => if stepIdx ∈ w.running then some { w with disk.fs := fs } else none
  | .tick clock => if w.clock ≤ clock then some { w with clock } else none
  | .interrupt =>
    match w.phase with
    | .waiting => if w.running = [] then none else some { w with phase := .finished .interrupted }
    | _ => none
  | .finish =>
    match w.phase with
    | .waiting => if w.running = [] then some { w with phase := .finished (w.result params) } else none
    | _ => none

/-- What the events need and what they do. -/
inductive Happens (w : World σ n) : Event σ n → World σ n → Prop
  | discard {visited : Fin n → Bool} {newReadySteps : List (Fin n)} {discardedSteps : Nat} :
      w.phase = .discarding visited newReadySteps discardedSteps →
      Happens w .discard (w.discard params visited newReadySteps discardedSteps)
  | enqueue {canRunMore : Bool} : w.phase = .enqueueing → ¬ (w.running = [] ∧ canRunMore = false) →
      Happens w (.enqueue canRunMore) (w.enqueue params canRunMore)
  | commandDone {stepIdx : Fin n} {result : CommandResult} : w.phase = .waiting → stepIdx ∈ w.running →
      Happens w (.commandDone stepIdx result) (w.complete params stepIdx result)
  | effect {stepIdx : Fin n} {fs : σ} : stepIdx ∈ w.running → Happens w (.effect stepIdx fs) { w with disk.fs := fs }
  | tick {clock : Int64} : w.clock ≤ clock → Happens w (.tick clock) { w with clock }
  | interrupt : w.phase = .waiting → w.running ≠ [] → Happens w .interrupt { w with phase := .finished .interrupted }
  | finish : w.phase = .waiting → w.running = [] → Happens w .finish { w with phase := .finished (w.result params) }

variable {params} in
theorem happens_of_next {w w' : World σ n} {event : Event σ n} (h : w.next params event = some w') :
    Happens params w event w' := by
  cases event with
  | discard =>
    simp only [next] at h
    split at h
    · next hphase => exact some.inj h ▸ .discard hphase
    · nomatch h
  | enqueue canRunMore =>
    simp only [next] at h
    split at h
    · next hphase =>
      split at h
      · nomatch h
      · next hrunner => exact some.inj h ▸ .enqueue hphase hrunner
    · nomatch h
  | commandDone stepIdx result =>
    simp only [next] at h
    split at h
    · next hphase =>
      split at h
      · next hrunning => exact some.inj h ▸ .commandDone hphase hrunning
      · nomatch h
    · nomatch h
  | effect stepIdx fs =>
    simp only [next] at h
    split at h
    · next hrunning => exact some.inj h ▸ .effect hrunning
    · nomatch h
  | tick clock =>
    simp only [next] at h
    split at h
    · next hclock => exact some.inj h ▸ .tick hclock
    · nomatch h
  | interrupt =>
    simp only [next] at h
    split at h
    · next hphase =>
      split at h
      · nomatch h
      · next hrunning => exact some.inj h ▸ .interrupt hphase hrunning
    · nomatch h
  | finish =>
    simp only [next] at h
    split at h
    · next hphase =>
      split at h
      · next hrunning => exact some.inj h ▸ .finish hphase hrunning
      · nomatch h
    · nomatch h

/-- The states that are reached from `w₀` by events that are allowed. -/
inductive Reaches (Allowed : World σ n → Event σ n → Prop) (w₀ : World σ n) : World σ n → Prop
  | refl : Reaches Allowed w₀ w₀
  | step {w w' : World σ n} {event : Event σ n} :
      Reaches Allowed w₀ w → Allowed w event → w.next params event = some w' → Reaches Allowed w₀ w'

end

def initial {σ : Type} {n : Nat} (disk : Disk σ) (clock : Int64) (build : Build n) : World σ n where
  disk := disk
  clock := clock
  build := build
  phase := .discarding (fun _ => false) [] 0
  history := { entered := build.readySteps }

end World

def startBuild {σ : Type} {n : Nat} (F : FileSystem σ) (manifest : CompiledManifest n)
    (invocations : Invocations) (failuresAllowed : UInt64) (specifiedSteps : List (Fin n))
    (checkClock : Fin n → Int64) (clock : Int64) (disk : Disk σ) :
    Except Failure (BuildCommandParameters σ n × World σ n) := do
  let stepsToBuild ← computeStepsToBuild manifest specifiedSteps
  let build ← Build.construct manifest invocations failuresAllowed stepsToBuild
  let fingerprintMatchesMemo ← computeFingerprintMatchesMemo F disk.fs invocations.fingerprints
    (invocations.fingerprintsFor (build.entries manifest invocations))
  let (disk, cleanSteps) ← computeCleanSteps F invocations checkClock manifest build
    fingerprintMatchesMemo disk
  return ({ fileSystem := F
            manifest, invocations, cleanSteps, fingerprintMatchesMemo, failuresAllowed },
    World.initial disk clock build)

section
variable {σ : Type} {n : Nat}

/-- Reads the log and starts a build with it, as `shk` does when the log is not recompacted. -/
def openBuild (order : EvalOrder) (F : FileSystem σ) (manifest : CompiledManifest n)
    (failuresAllowed : UInt64) (specifiedSteps : List (Fin n)) (checkClock : Fin n → Int64) (clock : Int64)
    (fs : σ) (file : Option Bytes) : Option (BuildCommandParameters σ n × World σ n) := do
  let (result, left) ← (parsePersistentInvocationLog order (F.lstat fs) file).toOption
  let log := openPersistentInvocationLog (left.getD []) result.parseData
  (startBuild F manifest result.invocations failuresAllowed specifiedSteps checkClock clock
    { fs, log := { opened := log } }).toOption

theorem openBuild_eq_some {order : EvalOrder} {F : FileSystem σ} {manifest : CompiledManifest n}
    {failuresAllowed : UInt64} {specifiedSteps : List (Fin n)} {checkClock : Fin n → Int64} {clock : Int64}
    {fs : σ} {file : Option Bytes} {begun : BuildCommandParameters σ n × World σ n}
    (h : openBuild order F manifest failuresAllowed specifiedSteps checkClock clock fs file = some begun) :
    ∃ result left, parsePersistentInvocationLog order (F.lstat fs) file = .ok (result, left) ∧
      startBuild F manifest result.invocations failuresAllowed specifiedSteps checkClock clock
        { fs, log := { opened := openPersistentInvocationLog (left.getD []) result.parseData } } = .ok begun := by
  obtain ⟨⟨result, left⟩, hparse, h⟩ := bind_eq_some_iff.mp h
  exact ⟨result, left, Except.toOption_eq_some.mp hparse, Except.toOption_eq_some.mp h⟩

namespace World

def logFile (w : World σ n) : Bytes := (w.disk.log.state.destroy PersistentInvocationLog.call).innerLog.stream

def returned (w : World σ n) : Option BuildResult :=
  match w.phase with
  | .finished result => some result
  | _ => none

theorem phase_of_returned {w : World σ n} {result : BuildResult} (h : w.returned = some result) :
    w.phase = .finished result := by
  rw [returned] at h
  split at h
  · next heq => rw [heq, some.inj h]
  · nomatch h

def runWhere (check : World σ n → Event σ n → World σ n → Bool) (params : BuildCommandParameters σ n)
    (w : World σ n) (events : List (Event σ n)) : Option (World σ n) :=
  events.foldlM (fun w event => (w.next params event).filter (check w event)) w

def run (check : World σ n → World σ n → Bool) (params : BuildCommandParameters σ n) (w : World σ n)
    (events : List (Event σ n)) : Option (World σ n) :=
  w.runWhere (fun w _ w' => check w w') params events

theorem reaches_of_run {check : World σ n → Event σ n → World σ n → Bool}
    {params : BuildCommandParameters σ n} {Allowed : World σ n → Event σ n → Prop}
    (hcheck : ∀ w event w', w.next params event = some w' → check w event w' = true → Allowed w event)
    {w₀ w w' : World σ n} {events : List (Event σ n)} (hreaches : Reaches params Allowed w₀ w)
    (h : w.runWhere check params events = some w') : Reaches params Allowed w₀ w' := by
  refine foldlM_invariant (fun w₁ event _ w₂ hround hreaches => ?_) hreaches h
  obtain ⟨hnext, hw₂⟩ := filter_eq_some_iff.mp hround
  exact hreaches.step (hcheck w₁ event w₂ hnext hw₂) hnext

end World
end

end Shuriken
