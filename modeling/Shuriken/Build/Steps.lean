import Shuriken.Build.Exceptions
import Shuriken.Build.World

/-!
# What an event of a build can do

Each event that does not throw leaves the files and the steps alone or is one
of the things that can happen to a step. Invariants about files are proved from
these cases.
-/
namespace Shuriken

/-- The part of the state of a build that is about files and finished steps. -/
structure Observed (σ : Type) (n : Nat) where
  disk : Disk σ
  running : List (Fin n)
  writtenFiles : Finmap fun _ : FileId => Hash
  outputFiles : Finmap fun _ : FileId => Fin n
  started : List (Fin n)
  skipped : List (Fin n)
  done : List (Fin n)
  failed : List (Fin n)

section
variable {σ : Type} {n : Nat}

def World.observed (w : World σ n) : Observed σ n where
  disk := w.disk
  running := w.running
  writtenFiles := w.build.writtenFiles
  outputFiles := w.build.outputFiles
  started := w.history.started
  skipped := w.history.skipped
  done := w.history.done
  failed := w.history.failed

def World.actor (w : World σ n) : Event σ n → Option (Fin n)
  | .enqueue _ => w.build.readySteps.getLast?
  | .commandDone stepIdx _ => some stepIdx
  | .effect stepIdx _ => some stepIdx
  | _ => none

variable (params : BuildCommandParameters σ n)

def World.Skips (w : World σ n) (s : Fin n) : Prop := w.build.readySteps.getLast? = some s ∧
    ((∃ visited newReadySteps discardedSteps, w.phase = .discarding visited newReadySteps discardedSteps ∧
        (params.cleanSteps s = true ∨ (params.manifest.steps s).phony = true)) ∨
      w.phase = .enqueueing ∧ canSkipBuildCommand params w.disk.fs w.build s = true)

variable {s : Fin n} {manifest : CompiledManifest n} {invocations : Invocations} {fileIds : List FileId}
    {stepWasSkipped : Bool}

theorem World.Skips.clean_or_phony {params : BuildCommandParameters σ n} {w : World σ n} (h : w.Skips params s) :
    params.cleanSteps s = true ∨ (params.manifest.steps s).phony = true := by
  rcases h.2 with ⟨_, _, _, -, h⟩ | ⟨-, h⟩
  · exact h
  · refine .inl (Bool.eq_true_of_not_eq_false fun hdirty => ?_)
    rw [canSkipBuildCommand, hdirty] at h
    nomatch h

/-- The files of a command that has finished were fingerprinted. `disk` is what it has left. -/
structure Fingerprinted (w : World σ n) (s : Fin n) (result : CommandResult) (disk : Disk σ)
    (outputs : OutputFiles) (inputs : List ((Path × Fingerprint) × FileId)) : Prop where
  running : s ∈ w.running
  deleted : deleteCommandFiles params w.clock w.disk (params.manifest.steps s) result.exitStatus = (disk, none)
  outputs : result.outputFiles.foldlM (fingerprintOutput params w.clock disk)
    { writtenFiles := w.build.writtenFiles, exitStatus := result.exitStatus } = .ok outputs
  inputs : fingerprintInputs params w.clock disk result.inputFiles = .ok inputs

inductive Transition (w : World σ n) : Event σ n → Observed σ n → Prop
  | quiet {event : Event σ n} : (∀ s result, event ≠ .commandDone s result) → Transition w event w.observed
  | effect {s : Fin n} (fs : σ) : s ∈ w.running → Transition w (.effect s fs) { w.observed with disk.fs := fs }
  | skip {s : Fin n} {fileIds : List FileId} {outputFiles : Finmap fun _ : FileId => Fin n}
      (event : Event σ n) : w.Skips params s →
      outputFileIdsForBuildStep params.invocations params.fingerprintMatchesMemo
        (params.manifest.steps s) = .ok fileIds →
      Build.emplaceOutputFiles s fileIds w.build.outputFiles = .ok outputFiles →
      Transition w event { w.observed with
        outputFiles
        skipped := w.observed.skipped ++ [s]
        done := w.observed.done ++ [s] }
  | start {s : Fin n} {disk : Disk σ} (canRunMore : Bool) : w.build.readySteps.getLast? = some s →
      w.phase = .enqueueing →
      prepareCommand params w.clock w.disk (params.manifest.steps s) = (disk, none) →
      canSkipBuildCommand params w.disk.fs w.build s = false → Transition w (.enqueue canRunMore) { w.observed with
        disk
        running := w.running ++ [s]
        started := w.history.started ++ [s] }
  | finish {s : Fin n} {result : CommandResult} {disk : Disk σ} {outputs : OutputFiles}
      {inputs : List ((Path × Fingerprint) × FileId)} {outputFiles : Finmap fun _ : FileId => Fin n} :
      Fingerprinted params w s result disk outputs inputs → outputs.exitStatus = .success →
      Build.emplaceOutputFiles s outputs.fileIds w.build.outputFiles = .ok outputFiles →
      Transition w (.commandDone s result) { w.observed with
        disk := if (params.manifest.steps s).logged then
            disk.call w.clock (.ranCommand (commandToLog params w.build s outputs.files inputs))
          else disk
        running := w.running.erase s
        writtenFiles := outputs.writtenFiles
        outputFiles
        done := w.history.done ++ [s] }
  | fail {s : Fin n} {result : CommandResult} {disk : Disk σ} {outputs : OutputFiles}
      {inputs : List ((Path × Fingerprint) × FileId)} :
      Fingerprinted params w s result disk outputs inputs → outputs.exitStatus ≠ .success →
      Transition w (.commandDone s result) { w.observed with
        disk
        running := w.running.erase s
        writtenFiles := outputs.writtenFiles
        failed := w.history.failed ++ [s] }

inductive Throws (w : World σ n) : Event σ n → Failure → Prop
  | io (event : Event σ n) (error : IoError) : Throws w event (.ioError error)
  | assertion (event : Event σ n) (what : String) : Throws w event (.assertionFailed what)
  | skipUnknown {s : Fin n} {failure : Failure} (event : Event σ n) : w.Skips params s →
      outputFileIdsForBuildStep params.invocations params.fingerprintMatchesMemo
        (params.manifest.steps s) = .error failure →
      Throws w event failure
  | skipClash {s : Fin n} {fileIds : List FileId} {failure : Failure} (event : Event σ n) : w.Skips params s →
      outputFileIdsForBuildStep params.invocations params.fingerprintMatchesMemo
        (params.manifest.steps s) = .ok fileIds →
      Build.emplaceOutputFiles s fileIds w.build.outputFiles = .error failure →
      Throws w event failure
  | finishClash {s : Fin n} {result : CommandResult} {disk : Disk σ} {outputs : OutputFiles}
      {inputs : List ((Path × Fingerprint) × FileId)} {failure : Failure} :
      Fingerprinted params w s result disk outputs inputs → outputs.exitStatus = .success →
      Build.emplaceOutputFiles s outputs.fileIds w.build.outputFiles = .error failure →
      Throws w (.commandDone s result) failure

theorem Build.markStepNodeAsDone_error {build : Build n} {failure : Failure}
    (h : build.markStepNodeAsDone manifest invocations s fileIds stepWasSkipped = .error failure) :
    Build.emplaceOutputFiles s fileIds build.outputFiles = .error failure ∨
      ∃ what, failure = .assertionFailed what := by
  rw [markStepNodeAsDone] at h
  cases hfiles : emplaceOutputFiles s fileIds build.outputFiles with
  | error failure' =>
    rw [hfiles] at h
    exact .inl (congrArg Except.error (Except.error.inj h))
  | ok outputFiles =>
    rw [hfiles] at h
    obtain ⟨build', i, -, h⟩ := Except.exists_of_foldlM_eq_error h
    rw [releaseDependent] at h
    split at h
    · exact .inr ⟨_, (Except.error.inj h).symm⟩
    · nomatch h

/-- Finishing a step leaves all files alone but the map of the files that were output, and counts no
failure and no command. -/
theorem Build.markStepNodeAsDone_files {build build' : Build n}
    (h : build.markStepNodeAsDone manifest invocations s fileIds stepWasSkipped = .ok build') :
    build'.writtenFiles = build.writtenFiles ∧
      Build.emplaceOutputFiles s fileIds build.outputFiles = .ok build'.outputFiles ∧
      build'.remainingFailures = build.remainingFailures ∧
      build'.invokedCommands = build.invokedCommands := by
  rw [markStepNodeAsDone] at h
  obtain ⟨outputFiles, hfiles, h⟩ := Except.bind_eq_ok.mp h
  refine Except.foldlM_invariant (P := fun b : Build n => b.writtenFiles = build.writtenFiles ∧
    emplaceOutputFiles s fileIds build.outputFiles = .ok b.outputFiles ∧
    b.remainingFailures = build.remainingFailures ∧ b.invokedCommands = build.invokedCommands)
    (s := { build with outputFiles }) (fun b i b' _ hb hround => ?_) ⟨rfl, hfiles, rfl, rfl⟩ h
  rw [releaseDependent] at hround
  split at hround
  · nomatch hround
  · exact Except.ok.inj hround ▸ hb

variable {params} {w w' : World σ n}

theorem bypass_cases {w₀ : World σ n} (event : Event σ n) (hskips : w₀.Skips params s)
    (hobserved : w.observed = w₀.observed) (hactive : ∀ failure, w.phase ≠ .thrown failure) :
    (∃ failure, (w.bypass params s).phase = .thrown failure ∧ Throws params w₀ event failure) ∨
      Transition params w₀ event (w.bypass params s).observed ∧
        ∀ failure, (w.bypass params s).phase ≠ .thrown failure := by
  have hbefore : w.build.outputFiles = w₀.build.outputFiles := congrArg Observed.outputFiles hobserved
  rw [World.bypass, commandBypassed]
  cases hids : outputFileIdsForBuildStep params.invocations params.fingerprintMatchesMemo
      (params.manifest.steps s) with
  | error failure => exact .inl ⟨failure, rfl, .skipUnknown event hskips hids⟩
  | ok fileIds =>
    simp only [bind, Except.bind]
    cases hmark : w.build.markStepNodeAsDone params.manifest params.invocations s fileIds true with
    | error failure =>
      refine .inl ⟨failure, rfl, ?_⟩
      rcases Build.markStepNodeAsDone_error hmark with hclash | ⟨what, rfl⟩
      · exact .skipClash event hskips hids (hbefore ▸ hclash)
      · exact .assertion event what
    | ok build =>
      obtain ⟨hwritten, houtput, -⟩ := Build.markStepNodeAsDone_files hmark
      have hafter : (w.markDone s true build).observed = { w₀.observed with
          outputFiles := build.outputFiles
          skipped := w₀.observed.skipped ++ [s]
          done := w₀.observed.done ++ [s] } := by
        rw [← hobserved, World.observed, World.markDone, hwritten]
        rfl
      exact .inr ⟨hafter ▸ .skip event hskips hids (hbefore ▸ houtput), hactive⟩

theorem enqueue_cases (canRunMore : Bool) (hphase : w.phase = .enqueueing) :
    (∃ failure, (w.enqueue params canRunMore).phase = .thrown failure ∧ Throws params w (.enqueue canRunMore) failure) ∨
      Transition params w (.enqueue canRunMore) (w.enqueue params canRunMore).observed ∧
        ∀ failure, (w.enqueue params canRunMore).phase ≠ .thrown failure := by
  have hactive : ∀ failure, w.phase ≠ .thrown failure := by simp [hphase]
  rw [World.enqueue]
  split
  · exact .inr ⟨.quiet nofun, nofun⟩
  · next s hs =>
    split
    · exact .inr ⟨.quiet nofun, nofun⟩
    · rw [World.enqueueStep]
      split
      · next hskip => exact bypass_cases _ ⟨hs, .inr ⟨hphase, hskip⟩⟩ rfl hactive
      · next hskip =>
        rw [World.invoke]
        split
        · next hprepare =>
          obtain ⟨error, rfl⟩ := prepareCommand_failure (congrArg Prod.snd hprepare)
          exact .inl ⟨_, rfl, .io _ error⟩
        · next hprepare => exact .inr ⟨.start canRunMore hs hphase hprepare (Bool.eq_false_iff.mpr hskip), hactive⟩

theorem discard_cases {visited : Fin n → Bool} {newReadySteps : List (Fin n)} {discardedSteps : Nat}
    (hphase : w.phase = .discarding visited newReadySteps discardedSteps) :
    (∃ failure, (w.discard params visited newReadySteps discardedSteps).phase = .thrown failure ∧
      Throws params w .discard failure) ∨
      Transition params w .discard (w.discard params visited newReadySteps discardedSteps).observed ∧
        ∀ failure, (w.discard params visited newReadySteps discardedSteps).phase ≠ .thrown failure := by
  rw [World.discard]
  split
  · exact .inr ⟨.quiet nofun, nofun⟩
  · next s hs =>
    simp only
    split
    · exact .inr ⟨.quiet nofun, by simp [hphase]⟩
    · split
      · next hclean =>
        refine bypass_cases _ ⟨hs, .inl ⟨_, _, _, hphase, ?_⟩⟩ rfl nofun
        exact Bool.or_eq_true_iff.mp hclean
      · exact .inr ⟨.quiet nofun, nofun⟩

theorem complete_cases (result : CommandResult) (hs : s ∈ w.running) :
    (∃ failure, (w.complete params s result).phase = .thrown failure ∧
      Throws params w (.commandDone s result) failure) ∨
      Transition params w (.commandDone s result) (w.complete params s result).observed ∧
        ∀ failure, (w.complete params s result).phase ≠ .thrown failure := by
  rw [World.complete]
  rcases commandDone_cases params w.clock w.disk w.build s result with
    ⟨error, hdone⟩ | ⟨disk, outputs, inputs, hdelete, houtputs, hinputs, hdone⟩
  · rw [hdone]
    exact .inl ⟨_, rfl, .io _ error⟩
  · have hfiles : Fingerprinted params w s result disk outputs inputs := ⟨hs, hdelete, houtputs, hinputs⟩
    rcases hdone with ⟨hstatus, hdone⟩ | ⟨hstatus, hdone⟩
    · rw [hdone]
      cases hmark : Build.markStepNodeAsDone params.manifest params.invocations s outputs.fileIds false
          { w.build with writtenFiles := outputs.writtenFiles } with
      | error failure =>
        refine .inl ⟨failure, rfl, ?_⟩
        rcases Build.markStepNodeAsDone_error hmark with hclash | ⟨what, rfl⟩
        · exact .finishClash hfiles hstatus hclash
        · exact .assertion _ what
      | ok build =>
        obtain ⟨hwritten, houtput, -⟩ := Build.markStepNodeAsDone_files hmark
        have hfinish := Transition.finish hfiles hstatus houtput
        refine .inr ⟨?_, nofun⟩
        rw [show outputs.writtenFiles = build.writtenFiles from hwritten.symm] at hfinish
        exact hfinish
    · rw [hdone]
      exact .inr ⟨.fail hfiles hstatus, nofun⟩

theorem World.phase_of_next_enqueue {canRunMore : Bool}
    (hnext : w.next params (.enqueue canRunMore) = some w') : w.phase = .enqueueing := by
  cases World.happens_of_next hnext with
  | enqueue hphase => exact hphase

theorem World.next_cases {event : Event σ n} (hnext : w.next params event = some w') :
    (∃ failure, w'.phase = .thrown failure ∧ Throws params w event failure) ∨ Transition params w event w'.observed ∧
        ∀ failure, w'.phase = .thrown failure → w.phase = .thrown failure := by
  have hactive {o : Observed σ n} {phase : Phase n}
      (h : Transition params w event o ∧ ∀ failure, phase ≠ .thrown failure) :
      Transition params w event o ∧ ∀ failure, phase = .thrown failure → w.phase = .thrown failure :=
    ⟨h.1, fun failure hthrown => absurd hthrown (h.2 failure)⟩
  cases World.happens_of_next hnext with
  | discard hphase => exact (discard_cases hphase).imp_right hactive
  | enqueue hphase => exact (enqueue_cases _ hphase).imp_right hactive
  | commandDone _ hs => exact (complete_cases _ hs).imp_right hactive
  | effect hs => exact .inr ⟨.effect _ hs, fun _ h => h⟩
  | tick => exact .inr ⟨.quiet nofun, fun _ h => h⟩
  | interrupt | finish => exact .inr ⟨.quiet nofun, nofun⟩

end
end Shuriken
