import Shuriken.Build.Commands

/-!
# Exceptions of a build

Operations on files only fail with an `IoError`, and looking up the output files
of a step only with a `runtime_error`.
-/
namespace Shuriken
open Option Except

section
variable {σ : Type} {n : Nat} {F : FileSystem σ} {invocations : Invocations} {now : Int64}
  {disk : Disk σ} {failure : Failure}

variable {path : Path} {paths : List Path}

theorem deleteAncestors_failure {rounds : Nat}
    (h : (deleteAncestors F invocations now rounds disk path).2 = some failure) :
    ∃ error, failure = .ioError error := by
  induction rounds generalizing disk path with
  | zero => cases h
  | succ rounds ih =>
    simp only [deleteAncestors] at h
    split at h
    · cases h
    · split at h
      · cases h
      · split at h
        · cases h
        · split at h
          · exact ih h
          · next error _ =>
            split at h
            · cases h
            · exact ⟨error, (some.inj h).symm⟩

theorem deleteBuildProduct_failure (h : (deleteBuildProduct F invocations now disk path).2 = some failure) :
    ∃ error, failure = .ioError error := by
  rw [deleteBuildProduct] at h
  split at h
  · split at h
    · exact ⟨_, (some.inj h).symm⟩
    · exact deleteAncestors_failure h
  · exact deleteAncestors_failure h

theorem deleteBuildProducts_failure (h : (deleteBuildProducts F invocations now disk paths).2 = some failure) :
    ∃ error, failure = .ioError error := by
  induction paths generalizing disk with
  | nil => nomatch h
  | cons path paths ih =>
    rw [deleteBuildProducts] at h
    split at h
    · next hpath => exact deleteBuildProduct_failure ((congrArg Prod.snd hpath).trans h)
    · exact ih h

theorem mkdirsAndLog_failure (h : (mkdirsAndLog F now disk path).2 = some failure) :
    ∃ error, failure = .ioError error := by
  rw [mkdirsAndLog] at h
  split at h
  · exact ⟨_, (some.inj h).symm⟩
  · cases h

theorem mkdirsAndLogAll_failure (h : (mkdirsAndLogAll F now disk paths).2 = some failure) :
    ∃ error, failure = .ioError error := by
  induction paths generalizing disk with
  | nil => nomatch h
  | cons path paths ih =>
    rw [mkdirsAndLogAll] at h
    split at h
    · next hpath => exact mkdirsAndLog_failure ((congrArg Prod.snd hpath).trans h)
    · exact ih h

variable {params : BuildCommandParameters σ n} {step : Step n}

theorem writeRspfile_failure (h : (writeRspfile params now disk step).2 = some failure) :
    ∃ error, failure = .ioError error := by
  rw [writeRspfile] at h
  split at h
  · nomatch h
  · split at h
    · next hdirs => exact mkdirsAndLog_failure ((congrArg Prod.snd hdirs).trans h)
    · obtain ⟨error, -, herror⟩ := map_eq_some_iff.mp h
      exact ⟨error, herror.symm⟩

theorem prepareCommand_failure (h : (prepareCommand params now disk step).2 = some failure) :
    ∃ error, failure = .ioError error := by
  rw [prepareCommand] at h
  split at h
  · next hdelete =>
    rw [deleteOldOutputs] at hdelete
    split at hdelete
    · nomatch (congrArg Prod.snd hdelete).trans h
    · exact deleteBuildProducts_failure ((congrArg Prod.snd hdelete).trans h)
  · split at h
    · next hrspfile => exact writeRspfile_failure ((congrArg Prod.snd hrspfile).trans h)
    · exact mkdirsAndLogAll_failure h

theorem foldlM_fingerprintOutput_error {outputs : OutputFiles}
    (h : paths.foldlM (fingerprintOutput params now disk) outputs = .error failure) :
    ∃ error, failure = .ioError error := by
  obtain ⟨outputs, path, -, h⟩ := exists_of_foldlM_eq_error h
  rw [fingerprintOutput] at h
  split at h
  · exact ⟨_, (error.inj h).symm⟩
  · nomatch h

theorem outputFileIdsForBuildStep_error {memo : FingerprintMatchesMemo}
    (h : outputFileIdsForBuildStep invocations memo step = .error failure) : ∃ what, failure = .runtimeError what := by
  rw [outputFileIdsForBuildStep] at h
  split at h
  · nomatch h
  · split at h
    · exact ⟨_, (error.inj h).symm⟩
    · obtain ⟨index, -, h⟩ := exists_of_mapM_eq_error h
      split at h
      · exact ⟨_, (error.inj h).symm⟩
      · nomatch h

/-- How a call of `commandDone` can go. -/
theorem commandDone_cases (params : BuildCommandParameters σ n) (now : Int64) (disk : Disk σ)
    (build : Build n) (stepIdx : Fin n) (result : CommandResult) :
    (∃ error, commandDone params now disk build stepIdx result =
      ((deleteCommandFiles params now disk (params.manifest.steps stepIdx) result.exitStatus).1,
        .error (.ioError error))) ∨
    ∃ disk' outputs inputs,
      deleteCommandFiles params now disk (params.manifest.steps stepIdx) result.exitStatus = (disk', none) ∧
      result.outputFiles.foldlM (fingerprintOutput params now disk')
        { writtenFiles := build.writtenFiles, exitStatus := result.exitStatus } = .ok outputs ∧
      fingerprintInputs params now disk' result.inputFiles = .ok inputs ∧
      (outputs.exitStatus = .success ∧ commandDone params now disk build stepIdx result =
          (if (params.manifest.steps stepIdx).logged then
              disk'.call now (.ranCommand (commandToLog params
                { build with writtenFiles := outputs.writtenFiles } stepIdx outputs.files inputs))
            else disk',
          (Build.markStepNodeAsDone params.manifest params.invocations stepIdx outputs.fileIds false
            { build with writtenFiles := outputs.writtenFiles }).map (·, true)) ∨
      outputs.exitStatus ≠ .success ∧ commandDone params now disk build stepIdx result =
          (disk', .ok (Build.countFailure { build with writtenFiles := outputs.writtenFiles }, false))) := by
  simp only [commandDone]
  cases hdelete : deleteCommandFiles params now disk (params.manifest.steps stepIdx) result.exitStatus with
  | mk disk' failure =>
    cases failure with
    | some failure =>
      obtain ⟨error, rfl⟩ := deleteBuildProducts_failure (congrArg Prod.snd hdelete)
      exact .inl ⟨error, rfl⟩
    | none =>
      simp only
      cases houtputs : result.outputFiles.foldlM (fingerprintOutput params now disk')
          { writtenFiles := build.writtenFiles, exitStatus := result.exitStatus } with
      | error failure =>
        obtain ⟨error, rfl⟩ := foldlM_fingerprintOutput_error houtputs
        exact .inl ⟨error, rfl⟩
      | ok outputs =>
        simp only
        cases hinputs : fingerprintInputs params now disk' result.inputFiles with
        | error failure =>
          obtain ⟨path, -, hpath⟩ := exists_of_mapM_eq_error hinputs
          split at hpath
          · cases hpath
            exact .inl ⟨_, rfl⟩
          · nomatch hpath
        | ok inputs =>
          refine .inr ⟨disk', outputs, inputs, rfl, houtputs, hinputs, ?_⟩
          by_cases hstatus : outputs.exitStatus = .success
          · refine .inl ⟨hstatus, ?_⟩
            simp only [hstatus, if_true]
            rfl
          · refine .inr ⟨hstatus, ?_⟩
            simp only [hstatus, if_false]

end
end Shuriken
