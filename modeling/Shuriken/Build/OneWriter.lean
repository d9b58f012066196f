import Shuriken.Build.Attribution

/-!
# Who is blamed for a clash

The maps behind the two checks for clashes have the identities of files as keys.
-/
namespace Shuriken
open Except List

section
variable {σ : Type} {n : Nat}

def FileSystem.Names (F : FileSystem σ) (s : σ) (paths : List Path) (id : FileId) : Prop :=
  ∃ path ∈ paths, (F.lstat s path).result = 0 ∧ F.fileId s path = id

/-- No file is listed under two names. Paths at which there is no file do not matter. -/
def FileSystem.NamesOnce (F : FileSystem σ) (s : σ) (paths : List Path) : Prop :=
  ((paths.filter fun path => (F.lstat s path).result = 0).map (F.fileId s)).Nodup

instance (F : FileSystem σ) (s : σ) (paths : List Path) : Decidable (F.NamesOnce s paths) :=
  inferInstanceAs (Decidable (List.Nodup _))

def BuildCommandParameters.recordedOutputs (params : BuildCommandParameters σ n) (i : Fin n) : List Path :=
  if (params.manifest.steps i).phony || (params.manifest.steps i).generator then []
  else (params.invocations.outputs (params.manifest.steps i).hash).map (·.1)

section
variable (params : BuildCommandParameters σ n) (w₀ : World σ n)

/-- The step has reported the file as an output in the run from `w₀` to `w`, or had it in its log
entry at the start. -/
def World.HasOutput (w : World σ n) (j : Fin n) (id : FileId) : Prop :=
  (∃ w₁ w₂ result, World.Reaches params (fun _ _ => True) w₀ w₁ ∧
    w₁.next params (.commandDone j result) = some w₂ ∧ World.Reaches params (fun _ _ => True) w₂ w ∧
    params.fileSystem.Names w₂.disk.fs result.outputFiles id) ∨
  params.fileSystem.Names w₀.disk.fs (params.recordedOutputs j) id

/-- A command that was successful, and a step that is skipped, lists no file twice. -/
def World.ListsFilesOnce (w : World σ n) (event : Event σ n) : Prop :=
  (∀ s result w', event = .commandDone s result → result.exitStatus = .success →
    w.next params event = some w' → params.fileSystem.NamesOnce w'.disk.fs result.outputFiles) ∧
  ∀ s, w.Skips params s → params.fileSystem.NamesOnce w₀.disk.fs (params.recordedOutputs s)

/-- The event turns a success into a failure, or throws because of a clash. -/
def World.Blames (w : World σ n) (event : Event σ n) (w' : World σ n) : Prop :=
  (∃ s result, event = .commandDone s result ∧ result.exitStatus = .success ∧ s ∈ w'.history.failed ∧
    ∀ failure, w'.phase ≠ .thrown failure) ∨
  w'.phase = .thrown (.buildError "More than one step wrote to the same file") ∧ ∀ failure, w.phase ≠ .thrown failure

/-- The step that ends or is skipped at the event. -/
def World.Ends (w : World σ n) (event : Event σ n) (s : Fin n) : Prop :=
  (∃ result, event = .commandDone s result) ∨ w.Skips params s

/-- A command fails by its exit status, or because it lists a file twice or one that a command before it has
listed. -/
def World.Unsuccessful (w : World σ n) (result : CommandResult) (w' : World σ n) : Prop :=
  result.exitStatus ≠ .success ∨ ¬params.fileSystem.NamesOnce w'.disk.fs result.outputFiles ∨
    ∃ id, params.fileSystem.Names w'.disk.fs result.outputFiles id ∧ (w.build.writtenFiles.lookup id).isSome = true

/-- The event adds to the steps that have failed and to the files that commands have listed. -/
def World.Records (w w' : World σ n) : Event σ n → Prop
  | .commandDone s result =>
    (w.Unsuccessful params result w' ∧ w'.history.failed = w.history.failed ++ [s] ∨
      ¬w.Unsuccessful params result w' ∧ w'.history.failed = w.history.failed) ∧
    ∀ id, (w'.build.writtenFiles.lookup id).isSome = true ↔
      (w.build.writtenFiles.lookup id).isSome = true ∨ params.fileSystem.Names w'.disk.fs result.outputFiles id
  | _ => w'.history.failed = w.history.failed ∧ w'.build.writtenFiles = w.build.writtenFiles

end

variable {params : BuildCommandParameters σ n} {now : Int64} {disk : Disk σ} {w w' w₀ : World σ n}

variable {F : FileSystem σ} {s : σ} {path : Path} {paths : List Path} {id : FileId} {fileIds : List FileId}
    {invocations : Invocations} {o : Observed σ n} {event : Event σ n} {result : CommandResult}

theorem FileSystem.names_cons :
    F.Names s (path :: paths) id ↔ ((F.lstat s path).result = 0 ∧ F.fileId s path = id) ∨ F.Names s paths id := by
  simp [Names]

theorem FileSystem.namesOnce_cons : F.NamesOnce s (path :: paths) ↔
    ((F.lstat s path).result = 0 → ¬F.Names s paths (F.fileId s path)) ∧ F.NamesOnce s paths := by
  by_cases hfound : (F.lstat s path).result = 0
  · simp [NamesOnce, Names, hfound]
  · simp [NamesOnce, hfound]

theorem FileSystem.NamesOnce.nodup (h : F.NamesOnce s paths) :
    ((paths.map (F.fileId s)).filter fun id => !id.missing).Nodup := by
  rw [filter_map]
  refine h.sublist ((monotone_filter_right _ fun path hpath => ?_).map _)
  exact decide_eq_true (FileSystem.found_of_fileId (by simpa using hpath))

theorem fingerprintOutput_written {outputs outputs' : OutputFiles}
    (h : fingerprintOutput params now disk outputs path = .ok outputs') :
    (outputs'.writtenFiles.lookup id).isSome = true ↔ (outputs.writtenFiles.lookup id).isSome = true ∨
      (params.fileSystem.lstat disk.fs path).result = 0 ∧ params.fileSystem.fileId disk.fs path = id := by
  obtain ⟨fp, hfp, hwritten, -⟩ := fingerprintOutput_ok h
  rw [hwritten, ← fingerprint_couldAccess_iff hfp]
  by_cases heq : params.fileSystem.fileId disk.fs path = id
  · subst heq
    cases fp.stat.couldAccess <;> cases hold : outputs.writtenFiles.lookup (params.fileSystem.fileId disk.fs path) <;>
      simp [hold]
  · split
    · rw [Finmap.lookup_insert_of_ne _ (Ne.symm heq)]
      simp [heq]
    · simp [heq]

theorem foldlM_fingerprintOutput_written {outputs outputs' : OutputFiles}
    (h : paths.foldlM (fingerprintOutput params now disk) outputs = .ok outputs') :
    (outputs'.writtenFiles.lookup id).isSome = true ↔
      (outputs.writtenFiles.lookup id).isSome = true ∨ params.fileSystem.Names disk.fs paths id := by
  induction paths generalizing outputs with
  | nil =>
    cases h
    simp [FileSystem.Names]
  | cons path paths ih =>
    rw [foldlM_cons] at h
    obtain ⟨outputs₁, hround, h⟩ := bind_eq_ok.mp h
    rw [ih h, fingerprintOutput_written hround, FileSystem.names_cons, or_assoc]

/-- A command succeeds if it lists no file twice and none that was there before. -/
theorem foldlM_fingerprintOutput_status {outputs outputs' : OutputFiles}
    (h : paths.foldlM (fingerprintOutput params now disk) outputs = .ok outputs') :
    outputs'.exitStatus = .success ↔ outputs.exitStatus = .success ∧ params.fileSystem.NamesOnce disk.fs paths ∧
      ∀ id, params.fileSystem.Names disk.fs paths id → (outputs.writtenFiles.lookup id).isSome = false := by
  induction paths generalizing outputs with
  | nil =>
    cases h
    simp [FileSystem.Names, FileSystem.NamesOnce]
  | cons path paths ih =>
    rw [foldlM_cons] at h
    obtain ⟨outputs₁, hround, h⟩ := bind_eq_ok.mp h
    obtain ⟨fp, hfp, -, -, hexit⟩ := fingerprintOutput_ok hround
    have hwritten (id : FileId) : (outputs₁.writtenFiles.lookup id).isSome = true ↔ _ :=
      fingerprintOutput_written hround
    simp only [ih h, FileSystem.namesOnce_cons, FileSystem.names_cons, ← Bool.not_eq_true, hwritten]
    split at hexit
    · next hold =>
      rw [Bool.and_eq_true_iff, fingerprint_couldAccess_iff hfp] at hold
      refine iff_of_false (fun h => ?_) fun h => h.2.2 _ (.inl ⟨hold.1, rfl⟩) hold.2
      cases hexit.symm.trans h.1
    · next hnew =>
      rw [Bool.and_eq_true_iff, fingerprint_couldAccess_iff hfp] at hnew
      rw [hexit]
      constructor
      · rintro ⟨hstatus, honce, hrest⟩
        refine ⟨hstatus, ⟨fun hfound hnames => hrest _ hnames (.inr ⟨hfound, rfl⟩), honce⟩, ?_⟩
        rintro id (⟨hfound, rfl⟩ | hnames)
        · exact fun hold => hnew ⟨hfound, hold⟩
        · exact fun hold => hrest id hnames (.inl hold)
      · rintro ⟨hstatus, ⟨hhead, honce⟩, hrest⟩
        refine ⟨hstatus, honce, fun id hnames hold => ?_⟩
        rcases hold with hold | ⟨hfound, rfl⟩
        · exact hrest id (.inr hnames) hold
        · exact hhead hfound hnames

theorem emplaceOutputFiles_error {s : Fin n} {outputFiles : Finmap fun _ : FileId => Fin n} {failure : Failure}
    (h : Build.emplaceOutputFiles s fileIds outputFiles = .error failure)
    (hnodup : (fileIds.filter fun id => !id.missing).Nodup) :
    ∃ id ∈ fileIds, id.missing = false ∧ ∃ j, outputFiles.lookup id = some j := by
  by_contra hnone
  push Not at hnone
  obtain ⟨outputFiles', hok⟩ := emplaceOutputFiles_succeeds_iff.mpr ⟨hnodup, fun id hid hmissing =>
    Option.eq_none_iff_forall_ne_some.mpr (hnone id hid hmissing)⟩
  nomatch h.symm.trans hok

theorem fingerprintMatches_fileId {fp : Fingerprint} {result : MatchesResult}
    (h : fingerprintMatches F s path fp = .ok result) : result.fileId = F.fileId s path := by
  obtain ⟨⟨result', hash⟩, hcurrent, h⟩ := bind_eq_ok.mp h
  cases h
  rw [fingerprintMatchesCurrent] at hcurrent
  split at hcurrent
  · cases hcurrent
    rfl
  · split at hcurrent
    · obtain ⟨newHash, -, hcurrent⟩ := bind_eq_ok.mp hcurrent
      cases hcurrent
      rfl
    · cases hcurrent
      rfl

/-- The files that are looked up for a skipped step are those at the recorded paths, as they were
at the start of the build. -/
theorem outputFileIds_eq {manifest : CompiledManifest n} {failuresAllowed : UInt64} {specifiedSteps : List (Fin n)}
    {checkClock : Fin n → Int64} {clock : Int64} {disk : Disk σ}
    (hstart : startBuild F manifest invocations failuresAllowed specifiedSteps checkClock clock disk = .ok (params, w₀))
    {s : Fin n}
    (h : outputFileIdsForBuildStep params.invocations params.fingerprintMatchesMemo (params.manifest.steps s) =
      .ok fileIds) :
    fileIds = (params.recordedOutputs s).map (params.fileSystem.fileId w₀.disk.fs) := by
  have hfs := (startBuild_begun hstart).fs
  obtain ⟨stepsToBuild, -, hstart⟩ := bind_eq_ok.mp hstart
  obtain ⟨build, -, hstart⟩ := bind_eq_ok.mp hstart
  obtain ⟨memo, hmemo, hstart⟩ := bind_eq_ok.mp hstart
  obtain ⟨⟨disk', cleanSteps⟩, -, hstart⟩ := bind_eq_ok.mp hstart
  cases hstart
  rw [outputFileIdsForBuildStep] at h
  rw [BuildCommandParameters.recordedOutputs]
  split at h
  · next hnone =>
    rw [if_pos hnone]
    exact (ok.inj h).symm
  · next hsome =>
    rw [if_neg hsome, map_map, Invocations.outputs]
    cases hentry : invocations.entries.lookup (manifest.steps s).hash with
    | none =>
      rw [hentry] at h
      cases h
    | some entry =>
      simp only [hentry] at h
      simp only [Invocations.files]
      generalize entry.outputFiles = indices at h
      induction indices generalizing fileIds with
      | nil => exact (ok.inj h).symm
      | cons index indices ih =>
        rw [mapM_cons] at h
        obtain ⟨id, hid, h⟩ := bind_eq_ok.mp h
        obtain ⟨rest, hrest, h⟩ := bind_eq_ok.mp h
        cases h
        split at hid
        · cases hid
        · next result hresult =>
          cases hid
          obtain ⟨file, hfile, hmatches⟩ := computeFingerprintMatchesMemo_spec hmemo hresult
          rw [filterMap_cons_some hfile, map_cons, ← ih hrest]
          exact congrArg (· :: rest) (hfs ▸ fingerprintMatches_fileId hmatches)

/-- Each file in either map is an output of a step that is no longer running. -/
structure Observed.Owned (o : Observed σ n) (HasOutput : Fin n → FileId → Prop) : Prop where
  written : ∀ id, (o.writtenFiles.lookup id).isSome = true → ∃ j, (j ∈ o.done ∨ j ∈ o.failed) ∧ HasOutput j id
  output : ∀ id j, o.outputFiles.lookup id = some j → j ∈ o.done ∧ HasOutput j id

theorem Observed.Owned.mono {HasOutput HasOutput' : Fin n → FileId → Prop} (h : o.Owned HasOutput)
    (hmono : ∀ j id, HasOutput j id → HasOutput' j id) : o.Owned HasOutput' where
  written id hid := (h.written id hid).imp fun j hj => hj.imp_right (hmono j id)
  output id j hj := (h.output id j hj).imp_right (hmono j id)

theorem Observed.Owned.next {HasOutput : Fin n → FileId → Prop} (h : w.observed.Owned HasOutput)
    (htransition : Transition params w event o)
    (hreported : ∀ s result id, event = .commandDone s result →
      params.fileSystem.Names o.disk.fs result.outputFiles id → HasOutput s id)
    (hrecorded : ∀ s fileIds, outputFileIdsForBuildStep params.invocations params.fingerprintMatchesMemo
      (params.manifest.steps s) = .ok fileIds → ∀ id ∈ fileIds, id.missing = false → HasOutput s id) :
    o.Owned HasOutput := by
  cases htransition with
  | quiet | effect | start => exact ⟨h.written, h.output⟩
  | @skip s fileIds outputFiles _ hskips hids hfiles =>
    refine ⟨fun id hid => ?_, fun id j hj => ?_⟩
    · obtain ⟨j, hj, hhas⟩ := h.written id hid
      exact ⟨j, hj.imp_left (mem_append_left _), hhas⟩
    · rcases emplaceOutputFiles_lookup hfiles hj with hold | ⟨rfl, hmem, hmissing⟩
      · exact (h.output id j hold).imp_left (mem_append_left _)
      · exact ⟨mem_append_right _ (mem_singleton_self j), hrecorded j fileIds hids id hmem hmissing⟩
  | @finish s result disk outputs inputs outputFiles hfiles hstatus houtputs =>
    simp only [Disk.fs_ite_call] at hreported
    refine ⟨fun id hid => ?_, fun id j hj => ?_⟩
    · rcases (foldlM_fingerprintOutput_written hfiles.outputs).mp hid with hold | hnames
      · obtain ⟨j, hj, hhas⟩ := h.written id hold
        exact ⟨j, hj.imp_left (mem_append_left _), hhas⟩
      · exact ⟨s, .inl (mem_append_right _ (mem_singleton_self s)), hreported s result id rfl hnames⟩
    · rcases emplaceOutputFiles_lookup houtputs hj with hold | ⟨rfl, hmem, hmissing⟩
      · exact (h.output id j hold).imp_left (mem_append_left _)
      · rw [(foldlM_fingerprintOutput_success hfiles.outputs hstatus).2.1, nil_append] at hmem
        obtain ⟨path, hpath, rfl⟩ := mem_map.mp hmem
        exact ⟨mem_append_right _ (mem_singleton_self j), hreported j result _ rfl
          ⟨path, hpath, FileSystem.found_of_fileId hmissing, rfl⟩⟩
  | @fail s result disk outputs inputs hfiles hstatus =>
    refine ⟨fun id hid => ?_, h.output⟩
    rcases (foldlM_fingerprintOutput_written hfiles.outputs).mp hid with hold | hnames
    · obtain ⟨j, hj, hhas⟩ := h.written id hold
      exact ⟨j, hj.imp_right (mem_append_left _), hhas⟩
    · exact ⟨s, .inr (mem_append_right _ (mem_singleton_self s)), hreported s result id rfl hnames⟩

theorem World.fs_of_commandDone {s : Fin n} (hnext : w.next params (.commandDone s result) = some w') : s ∈ w.running ∧
      w'.disk.fs = (deleteCommandFiles params w.clock w.disk (params.manifest.steps s) result.exitStatus).1.fs := by
  cases World.happens_of_next hnext with
  | commandDone _ hs =>
    refine ⟨hs, ?_⟩
    rw [World.complete]
    rcases commandDone_cases params w.clock w.disk w.build s result with
      ⟨error, hdone⟩ | ⟨disk, outputs, inputs, hdelete, -, -, hdone⟩
    · rw [hdone]
      rfl
    · rw [hdelete]
      rcases hdone with ⟨-, hdone⟩ | ⟨-, hdone⟩
      · rw [hdone]
        cases Build.markStepNodeAsDone params.manifest params.invocations s outputs.fileIds false
          { w.build with writtenFiles := outputs.writtenFiles } <;>
          cases (params.manifest.steps s).logged <;> rfl
      · rw [hdone]

theorem World.records_next (hnext : w.next params event = some w') (hactive : ∀ failure, w'.phase ≠ .thrown failure) :
    w.Records params w' event := by
  rcases World.next_cases hnext with ⟨failure, hthrown, -⟩ | ⟨htransition, -⟩
  · exact absurd hthrown (hactive failure)
  generalize hobserved : w'.observed = o at htransition
  have hfailed : w'.history.failed = o.failed := congrArg Observed.failed hobserved
  have hfiles : w'.build.writtenFiles = o.writtenFiles := congrArg Observed.writtenFiles hobserved
  cases event with
  | commandDone s result =>
    obtain ⟨-, hfs⟩ := World.fs_of_commandDone hnext
    -- The files are looked at when those that served the command are deleted.
    have hrecords {disk : Disk σ} {outputs : OutputFiles} {inputs : List ((Path × Fingerprint) × FileId)}
        (h : Fingerprinted params w s result disk outputs inputs) :
        (w.Unsuccessful params result w' ↔ outputs.exitStatus ≠ .success) ∧
        ∀ id, (outputs.writtenFiles.lookup id).isSome = true ↔
          (w.build.writtenFiles.lookup id).isSome = true ∨
            params.fileSystem.Names w'.disk.fs result.outputFiles id := by
      rw [h.deleted] at hfs
      have hstatus := foldlM_fingerprintOutput_status h.outputs
      rw [World.Unsuccessful, hfs]
      refine ⟨?_, fun id => foldlM_fingerprintOutput_written h.outputs⟩
      simp only [ne_eq, hstatus, not_and_or, not_forall, Bool.not_eq_false, exists_prop]
    rw [World.Records, hfailed, hfiles]
    cases htransition with
    | quiet hne => exact absurd rfl (hne s result)
    | skip _ hskips =>
      cases World.happens_of_next hnext with
      | commandDone hphase => simp [World.Skips, hphase] at hskips
    | finish h hstatus =>
      obtain ⟨hiff, hwritten⟩ := hrecords h
      exact ⟨.inr ⟨fun hunsuccessful => hiff.mp hunsuccessful hstatus, rfl⟩, hwritten⟩
    | fail h hstatus =>
      obtain ⟨hiff, hwritten⟩ := hrecords h
      exact ⟨.inl ⟨hiff.mpr hstatus, rfl⟩, hwritten⟩
  | _ => cases htransition <;> exact ⟨hfailed, hfiles⟩

theorem World.HasOutput.next {j : Fin n} (h : w₀.HasOutput params w j id) (hnext : w.next params event = some w') :
    w₀.HasOutput params w' j id :=
  h.imp_left fun ⟨w₁, w₂, result, hrun, hdone, hrest, hnames⟩ =>
    ⟨w₁, w₂, result, hrun, hdone, hrest.step trivial hnext, hnames⟩

theorem Transition.fingerprinted_of_failed {s : Fin n} (h : Transition params w (.commandDone s result) o)
    (hfailed : s ∈ o.failed) (hbefore : s ∉ w.history.failed) :
    ∃ disk outputs inputs, Fingerprinted params w s result disk outputs inputs ∧ outputs.exitStatus ≠ .success := by
  cases h with
  | quiet | skip | finish => exact absurd hfailed hbefore
  | fail hfiles hstatus => exact ⟨_, _, _, hfiles, hstatus⟩

theorem outputFileIdsForBuildStep_ne_buildError {memo : FingerprintMatchesMemo} {step : Step n} {what : String} :
    outputFileIdsForBuildStep invocations memo step ≠ .error (.buildError what) := by
  intro h
  rw [outputFileIdsForBuildStep] at h
  split at h
  · cases h
  · split at h
    · cases h
    · obtain ⟨index, -, h⟩ := exists_of_mapM_eq_error h
      split at h <;> cases h

theorem World.Reaches.started_subset {Allowed : World σ n → Event σ n → Prop} (h : World.Reaches params Allowed w w')
    (hactive : ∀ failure, w'.phase ≠ .thrown failure) : w.history.started ⊆ w'.history.started := by
  induction h with
  | refl => exact fun _ h => h
  | step _ _ hnext ih =>
    rcases World.next_cases hnext with ⟨failure, hthrown, -⟩ | ⟨htransition, -⟩
    · exact absurd hthrown (hactive failure)
    · exact fun i hi => htransition.grows.2
        (ih (fun failure hthrown => hactive failure (World.thrown_next hthrown hnext)) hi)

theorem World.HasOutput.started (hbegun : Begun disk params w₀) (hactive : ∀ failure, w.phase ≠ .thrown failure)
    {j : Fin n} (hrecorded : params.recordedOutputs j = []) (h : w₀.HasOutput params w j id) :
    j ∈ w.history.started := by
  rcases h with ⟨w₁, w₂, result, hrun, hnext, hrest, -⟩ | ⟨path, hpath, -⟩
  · have hwaiting : ∀ failure, w₁.phase ≠ .thrown failure := by
      intro failure hthrown
      simp [World.next, hthrown] at hnext
    have hstarted := ((hbegun.accounted hrun).holdsNothing hwaiting).running (World.fs_of_commandDone hnext).1
    exact World.Reaches.started_subset ((World.Reaches.refl.step trivial hnext).trans hrest) hactive hstarted
  · rw [hrecorded] at hpath
    cases hpath

section
variable {F : FileSystem σ} {manifest : CompiledManifest n} {invocations : Invocations}
  {failuresAllowed : UInt64} {specifiedSteps : List (Fin n)} {checkClock : Fin n → Int64} {clock : Int64}
  {Allowed : World σ n → Event σ n → Prop}

section
variable (hstart : startBuild F manifest invocations failuresAllowed specifiedSteps checkClock clock disk =
  .ok (params, w₀))
include hstart

theorem hasOutput_of_recorded (s : Fin n) (fileIds : List FileId)
    (hids : outputFileIdsForBuildStep params.invocations params.fingerprintMatchesMemo
      (params.manifest.steps s) = .ok fileIds) (id : FileId) (hid : id ∈ fileIds)
    (hmissing : id.missing = false) : w₀.HasOutput params w s id := by
  rw [outputFileIds_eq hstart hids] at hid
  obtain ⟨path, hpath, rfl⟩ := mem_map.mp hid
  exact .inr ⟨path, hpath, FileSystem.found_of_fileId hmissing, rfl⟩

theorem World.Reaches.owned
    (hreaches : World.Reaches params Allowed w₀ w) (hactive : ∀ failure, w.phase ≠ .thrown failure) :
    w.observed.Owned (w₀.HasOutput params w) := by
  have hbegun := startBuild_begun hstart
  have hinitial : w₀.observed.Owned (w₀.HasOutput params w₀) := by
    obtain ⟨stepsToBuild, hbuild⟩ := hbegun.constructed
    have hempty : w₀.observed.writtenFiles = ∅ ∧ w₀.observed.outputFiles = ∅ :=
      ⟨hbuild.writtenFiles, hbuild.outputFiles⟩
    refine ⟨fun id hid => ?_, fun id j hj => ?_⟩
    · rw [hempty.1] at hid
      nomatch hid
    · rw [hempty.2] at hj
      nomatch hj
  refine (hreaches.invariant (P := fun w => World.Reaches params (fun _ _ => True) w₀ w ∧
    w.observed.Owned (w₀.HasOutput params w)) hbegun ⟨.refl, hinitial⟩ ?_ hactive).2
  intro w w' event _ _ hnext htransition ⟨hrun, howned⟩
  refine ⟨hrun.step trivial hnext, (howned.mono fun _ _ h => h.next hnext).next htransition ?_
    (hasOutput_of_recorded hstart)⟩
  rintro s result id rfl hnames
  exact .inl ⟨w, w', result, hrun, hnext, .refl, hnames⟩

end

/-- In every build and at every event of it: when commands that succeed and steps that are skipped
list no file twice, a clash is between the step that is blamed and another one. -/
theorem clash_is_between_two_steps
    (hstart : startBuild F manifest invocations failuresAllowed specifiedSteps checkClock clock disk = .ok (params, w₀))
    (hreaches : World.Reaches params (World.ListsFilesOnce params w₀) w₀ w) {event : Event σ n}
    (hevent : World.ListsFilesOnce params w₀ w event) (hnext : w.next params event = some w')
    (hblames : w.Blames event w') :
    ∃ j k id, j ≠ k ∧ w.Ends params event k ∧ w₀.HasOutput params w' j id ∧ w₀.HasOutput params w' k id := by
  have hbegun := startBuild_begun hstart
  have hrun : World.Reaches params (fun _ _ => True) w₀ w := hreaches.mono fun _ _ _ => trivial
  rcases hblames with ⟨s, result, rfl, hsuccess, hfailed, hactive⟩ | ⟨hthrown, hactive⟩
  · have hbefore : ∀ failure, w.phase ≠ .thrown failure := fun failure h => hactive failure (World.thrown_next h hnext)
    have howned := hreaches.owned hstart hbefore
    have hscheduled := (hbegun.accounted hreaches).holdsNothing hbefore
    obtain ⟨hrunning, hfs⟩ := World.fs_of_commandDone hnext
    rcases World.next_cases hnext with ⟨failure, h, -⟩ | ⟨htransition, -⟩
    · exact absurd h (hactive failure)
    · obtain ⟨disk, outputs, inputs, hfiles, hstatus⟩ :=
        htransition.fingerprinted_of_failed hfailed (hscheduled.not_failed_of_running hrunning)
      rw [hfiles.deleted] at hfs
      have honce := hevent.1 s result w' rfl hsuccess hnext
      rw [hfs] at honce
      obtain ⟨id, hnames, hold⟩ : ∃ id, params.fileSystem.Names disk.fs result.outputFiles id ∧
          (w.build.writtenFiles.lookup id).isSome = true := by
        by_contra hnone
        refine hstatus ((foldlM_fingerprintOutput_status hfiles.outputs).mpr ⟨hsuccess, honce, fun id hnames => ?_⟩)
        exact Bool.eq_false_iff.mpr fun hold => hnone ⟨id, hnames, hold⟩
      obtain ⟨j, hj, hhas⟩ := howned.written id hold
      refine ⟨j, s, id, ?_, .inl ⟨result, rfl⟩, hhas.next hnext,
        .inl ⟨w, w', result, hrun, hnext, .refl, hfs ▸ hnames⟩⟩
      rintro rfl
      exact hj.elim (fun hdone => (hscheduled.only_done hdone).2.1 hrunning)
        (hscheduled.not_failed_of_running hrunning)
  · have howned := hreaches.owned hstart hactive
    have hscheduled := (hbegun.accounted hreaches).holdsNothing hactive
    rcases World.next_cases hnext with ⟨failure, h, hthrows⟩ | ⟨-, h⟩
    · obtain rfl := Phase.thrown.inj (h.symm.trans hthrown)
      cases hthrows with
      | skipUnknown _ _ hids => exact absurd hids outputFileIdsForBuildStep_ne_buildError
      | @skipClash s fileIds _ _ hskips hids hclash =>
        have hnodup := (hevent.2 s hskips).nodup
        rw [← outputFileIds_eq hstart hids] at hnodup
        obtain ⟨id, hid, hmissing, j, hj⟩ := emplaceOutputFiles_error hclash hnodup
        obtain ⟨hdone, hhas⟩ := howned.output id j hj
        refine ⟨j, s, id, ?_, .inr hskips, hhas.next hnext,
          hasOutput_of_recorded hstart s fileIds hids id hid hmissing⟩
        rintro rfl
        exact (hscheduled.fresh_of_ready (mem_of_getLast? hskips.1)).2.1 hdone
      | @finishClash s result disk outputs inputs _ hfiles hstatus hclash =>
        obtain ⟨-, hids, hnodup, -⟩ := foldlM_fingerprintOutput_success hfiles.outputs hstatus
        rw [nil_append] at hids
        rw [← hids] at hnodup
        obtain ⟨id, hid, hmissing, j, hj⟩ := emplaceOutputFiles_error hclash hnodup
        obtain ⟨hdone, hhas⟩ := howned.output id j hj
        obtain ⟨hrunning, hfs⟩ := World.fs_of_commandDone hnext
        rw [hfiles.deleted] at hfs
        rw [hids] at hid
        obtain ⟨path, hpath, rfl⟩ := mem_map.mp hid
        refine ⟨j, s, _, ?_, .inl ⟨result, rfl⟩, hhas.next hnext,
          .inl ⟨w, w', result, hrun, hnext, .refl, path, hpath, ?_, ?_⟩⟩
        · rintro rfl
          exact (hscheduled.only_done hdone).2.1 hrunning
        · exact hfs ▸ FileSystem.found_of_fileId hmissing
        · rw [hfs]
    · exact absurd (h _ hthrown) (hactive _)

end
end

def unloggedBuild : Option (BuildCommandParameters FlatFiles 2 × World FlatFiles 2) :=
  openBuild .valueFirst flatFileSystem chain 1 [1] (fun _ => 10) 10 [] none

/-- The command of the first step writes the file `a` and links it to `b`. The step is made to
fail although no other step has been started or has a log entry. -/
theorem linked_outputs_clash : ∃ params w₀ w w', unloggedBuild = some (params, w₀) ∧ w₀.run (fun _ _ => true) params
        [.discard, .discard, .enqueue true, .effect 0 [middleFile 3 10, ([98], (middleFile 3 10).2)],
          .tick 12, .enqueue true] = some w ∧ w.next params (.commandDone 0 { outputFiles := [[97], [98]] }) = some w' ∧
      w.Blames (.commandDone 0 { outputFiles := [[97], [98]] }) w' ∧
      ¬∃ j k id, j ≠ k ∧ w₀.HasOutput params w' j id ∧ w₀.HasOutput params w' k id := by
  have h : ∃ params w₀, unloggedBuild = some (params, w₀) ∧ ∃ w, w₀.run (fun _ _ => true) params
      [.discard, .discard, .enqueue true, .effect 0 [middleFile 3 10, ([98], (middleFile 3 10).2)],
        .tick 12, .enqueue true] = some w ∧
      ∃ w', w.next params (.commandDone 0 { outputFiles := [[97], [98]] }) = some w' ∧
        w'.phase.active = true ∧ w'.history.failed = [0] ∧ w'.history.started = [0] ∧
          ∀ i, params.recordedOutputs i = [] := by
    decide +kernel
  obtain ⟨params, w₀, hstart, w, hrun, w', hnext, hphase, hfailed, hstarted, hrecorded⟩ := h
  have hactive : ∀ failure, w'.phase ≠ .thrown failure := by
    intro failure hthrown
    rw [hthrown] at hphase
    nomatch hphase
  obtain ⟨result, left, -, hbegin⟩ := openBuild_eq_some hstart
  have honly : ∀ j id, w₀.HasOutput params w' j id → j = 0 := by
    intro j id hhas
    have hj := hhas.started (startBuild_begun hbegin) hactive (hrecorded j)
    rw [hstarted] at hj
    exact mem_singleton.mp hj
  refine ⟨params, w₀, w, w', hstart, hrun, hnext, .inl ⟨0, _, rfl, rfl, by rw [hfailed]; simp, hactive⟩, ?_⟩
  rintro ⟨j, k, id, hne, hj, hk⟩
  exact hne ((honly j id hj).trans (honly k id hk).symm)

def listsFilesOnce (params : BuildCommandParameters FlatFiles 2) (event : Event FlatFiles 2)
    (w' : World FlatFiles 2) : Bool :=
  match event with
  | .commandDone _ result => decide (params.fileSystem.NamesOnce w'.disk.fs result.outputFiles)
  | _ => true

theorem listsFilesOnce_spec {params : BuildCommandParameters FlatFiles 2} {w₀ w w' : World FlatFiles 2}
    {event : Event FlatFiles 2} (hrecorded : ∀ i, params.recordedOutputs i = []) (hnext : w.next params event = some w')
    (h : listsFilesOnce params event w' = true) : World.ListsFilesOnce params w₀ w event := by
  refine ⟨?_, fun s _ => ?_⟩
  · rintro s result w'' rfl - hnext'
    cases hnext.symm.trans hnext'
    exact of_decide_eq_true h
  · rw [hrecorded]
    exact nodup_nil

/-- The second step writes the file of the first step once more. -/
theorem clash_is_between_two_steps_of_chain : ∃ params w₀ w w', unloggedBuild = some (params, w₀) ∧
      World.Reaches params (World.ListsFilesOnce params w₀) w₀ w ∧
      w.next params (.commandDone 1 { outputFiles := [[97]] }) = some w' ∧
      w.Blames (.commandDone 1 { outputFiles := [[97]] }) w' ∧
      ∃ j k id, j ≠ k ∧ w.Ends params (.commandDone 1 { outputFiles := [[97]] }) k ∧
        w₀.HasOutput params w' j id ∧ w₀.HasOutput params w' k id := by
  have h : ∃ params w₀, unloggedBuild = some (params, w₀) ∧ ∃ w, w₀.runWhere (fun _ => listsFilesOnce params) params
      [.discard, .discard, .enqueue true, .effect 0 [middleFile 3 10], .tick 12, .enqueue true,
        .commandDone 0 { outputFiles := [[97]] }, .enqueue true, .enqueue true] = some w ∧
      ∃ w', w.next params (.commandDone 1 { outputFiles := [[97]] }) = some w' ∧
        w'.phase.active = true ∧ w'.history.failed = [1] ∧ (∀ i, params.recordedOutputs i = []) ∧
          listsFilesOnce params (.commandDone 1 { outputFiles := [[97]] }) w' = true := by
    decide +kernel
  obtain ⟨params, w₀, hstart, w, hrun, w', hnext, hphase, hfailed, hrecorded, hlast⟩ := h
  have hactive : ∀ failure, w'.phase ≠ .thrown failure := by
    intro failure hthrown
    rw [hthrown] at hphase
    nomatch hphase
  have hreaches : World.Reaches params (World.ListsFilesOnce params w₀) w₀ w :=
    World.reaches_of_run (fun _ _ _ hnext h => listsFilesOnce_spec hrecorded hnext h) .refl hrun
  obtain ⟨result, left, -, hbegin⟩ := openBuild_eq_some hstart
  have hblames : w.Blames (.commandDone 1 { outputFiles := [[97]] }) w' :=
    .inl ⟨1, _, rfl, rfl, by rw [hfailed]; simp, hactive⟩
  exact ⟨params, w₀, w, w', hstart, hreaches, hnext, hblames,
    clash_is_between_two_steps hbegin hreaches (listsFilesOnce_spec hrecorded hnext hlast) hnext hblames⟩

end Shuriken
