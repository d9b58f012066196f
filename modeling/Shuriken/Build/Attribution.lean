import Shuriken.Build.Restat

/-!
# Attribution of output files

A clash of output files is noticed in two places: `commandDone` looks at the files that commands have written
in this build and makes the command fail, and `markStepNodeAsDone` looks at the files of all steps that are
done and throws.
-/
namespace Shuriken
open Option Except List Finmap

section
variable {σ : Type} {n : Nat}

variable {s : Fin n} {fileIds : List FileId} {outputFiles outputFiles' : Finmap fun _ : FileId => Fin n} {id : FileId}
    {F : FileSystem σ} {path : Path} {result : CommandResult}

section
variable (h : Build.emplaceOutputFiles s fileIds outputFiles = .ok outputFiles')
include h

theorem emplaceOutputFiles_lookup {j : Fin n} (hid : outputFiles'.lookup id = some j) :
    outputFiles.lookup id = some j ∨ j = s ∧ id ∈ fileIds ∧ id.missing = false := by
  induction fileIds generalizing outputFiles with
  | nil => exact .inl (ok.inj h ▸ hid)
  | cons fileId fileIds ih =>
    rw [Build.emplaceOutputFiles] at h
    split at h
    · exact (ih h).imp_right fun h => ⟨h.1, mem_cons_of_mem _ h.2.1, h.2.2⟩
    · next hmissing =>
      split at h
      · cases h
      · rcases ih h with hold | ⟨hj, hmem, hmissing⟩
        · by_cases heq : id = fileId
          · subst heq
            rw [lookup_insert] at hold
            exact .inr ⟨(some.inj hold).symm, mem_cons_self, by simpa using hmissing⟩
          · rw [lookup_insert_of_ne _ heq] at hold
            exact .inl hold
        · exact .inr ⟨hj, mem_cons_of_mem _ hmem, hmissing⟩

theorem emplaceOutputFiles_keeps {j : Fin n}
    (hid : outputFiles.lookup id = some j) : outputFiles'.lookup id = some j := by
  induction fileIds generalizing outputFiles with
  | nil => exact ok.inj h ▸ hid
  | cons fileId fileIds ih =>
    rw [Build.emplaceOutputFiles] at h
    split at h
    · exact ih h hid
    · split at h
      · cases h
      · next hnew =>
        refine ih h ?_
        rw [lookup_insert_of_ne]
        · exact hid
        · rintro rfl
          simp [hid] at hnew

theorem emplaceOutputFiles_mem
    (hid : id ∈ fileIds) (hmissing : id.missing = false) : outputFiles'.lookup id = some s := by
  induction fileIds generalizing outputFiles with
  | nil => cases hid
  | cons fileId fileIds ih =>
    rw [Build.emplaceOutputFiles] at h
    split at h
    · next hskip =>
      refine ih h ((mem_cons.mp hid).resolve_left ?_)
      rintro rfl
      cases hmissing.symm.trans hskip
    · split at h
      · cases h
      · rcases mem_cons.mp hid with rfl | hid
        · exact emplaceOutputFiles_keeps h (lookup_insert _)
        · exact ih h hid

end

/-- When the loop over the output files goes through. -/
theorem emplaceOutputFiles_succeeds_iff :
    (∃ outputFiles', Build.emplaceOutputFiles s fileIds outputFiles = .ok outputFiles') ↔
      (fileIds.filter fun id => !id.missing).Nodup ∧
        ∀ id ∈ fileIds, id.missing = false → outputFiles.lookup id = none := by
  induction fileIds generalizing outputFiles with
  | nil => simp [Build.emplaceOutputFiles]
  | cons fileId fileIds ih =>
    rw [Build.emplaceOutputFiles]
    cases hmissing : fileId.missing with
    | true => simp [ih, hmissing]
    | false =>
      have hfilter : ((fileId :: fileIds).filter fun id => !id.missing) =
          fileId :: fileIds.filter fun id => !id.missing := filter_cons_of_pos (by simp [hmissing])
      rw [if_neg Bool.false_ne_true, hfilter, nodup_cons]
      cases hlookup : outputFiles.lookup fileId with
      | some j =>
        simp only [isSome_some, if_true]
        refine iff_of_false (by simp) fun h => ?_
        cases hlookup.symm.trans (h.2 fileId mem_cons_self hmissing)
      | none =>
        simp only [isSome_none, Bool.false_eq_true, if_false, ih]
        constructor
        · rintro ⟨hnodup, hnone⟩
          have hne : ∀ id ∈ fileIds, id.missing = false → id ≠ fileId := by
            rintro id hid hm rfl
            cases (lookup_insert _).symm.trans (hnone id hid hm)
          refine ⟨⟨fun hmem => ?_, hnodup⟩, forall_mem_cons.mpr ⟨fun _ => hlookup, fun id hid hm => ?_⟩⟩
          · exact hne fileId (mem_filter.mp hmem).1 hmissing rfl
          · exact (lookup_insert_of_ne _ (hne id hid hm)).symm.trans (hnone id hid hm)
        · rintro ⟨⟨hnew, hnodup⟩, hnone⟩
          refine ⟨hnodup, fun id hid hm => ?_⟩
          have hne : id ≠ fileId := by
            rintro rfl
            exact hnew (mem_filter.mpr ⟨hid, by simp [hm]⟩)
          rw [lookup_insert_of_ne _ hne]
          exact hnone id (mem_cons_of_mem _ hid) hm

variable {params : BuildCommandParameters σ n} {now : Int64} {disk : Disk σ}

/-- A file can be accessed by its fingerprint if and only if it exists. -/
theorem fingerprint_couldAccess_iff {s : σ} {log : InvocationLog} {fp : Fingerprint}
    (h : log.fingerprint F s now path = .ok (fp, id)) : fp.stat.couldAccess = true ↔ (F.lstat s path).result = 0 := by
  have hmode : ∀ old, ((F.lstat s path).result ≠ 0 → old.mode = 0) →
      ((FingerprintStat.fromStat (F.lstat s path) old).couldAccess = true ↔ (F.lstat s path).result = 0) := by
    intro old hold
    rw [FingerprintStat.fromStat]
    split
    · next hfound => exact iff_of_true (decide_eq_true (trackedMode_ne_zero _)) hfound
    · next hfailed => simp [FingerprintStat.couldAccess, hold hfailed, hfailed]
  have htake : ∀ {fp id}, takeFingerprint F s now path = .ok (fp, id) →
      (fp.stat.couldAccess = true ↔ (F.lstat s path).result = 0) := by
    intro fp id h
    obtain ⟨hash, -, h⟩ := bind_eq_ok.mp h
    cases h
    exact hmode _ fun _ => rfl
  rw [InvocationLog.fingerprint, PersistentInvocationLog.fingerprint] at h
  split at h
  · exact htake h
  · next old _ =>
    obtain ⟨⟨result, hash⟩, hcurrent, h⟩ := bind_eq_ok.mp h
    simp only at h
    split at h
    · next hkept =>
      cases h
      -- a failed stat leaves the old data, which then is that of a missing file
      refine hmode _ fun hfailed => ?_
      rw [fingerprintMatchesCurrent, FingerprintStat.fromStat, if_neg hfailed] at hcurrent
      split at hcurrent
      · next hsame => exact (congrArg FingerprintStat.mode hsame.1).symm
      · split at hcurrent
        · next hsame => exact hsame.2.symm
        · cases hcurrent
          cases hkept
    · exact htake h

theorem FileSystem.found_of_fileId {s : σ} (h : (F.fileId s path).missing = false) : (F.lstat s path).result = 0 :=
  by_contra fun hne => nomatch h.symm.trans (F.lstat_fileId_missing hne)

/-- When no clash is noticed, the files that exist are all different and new, and are known
afterwards. -/
theorem foldlM_fingerprintOutput_success {outputs outputs' : OutputFiles} {paths : List Path}
    (h : paths.foldlM (fingerprintOutput params now disk) outputs = .ok outputs')
    (hstatus : outputs'.exitStatus = .success) :
    outputs.exitStatus = .success ∧ outputs'.fileIds = outputs.fileIds ++ paths.map (params.fileSystem.fileId disk.fs) ∧
      ((paths.map (params.fileSystem.fileId disk.fs)).filter fun id => !id.missing).Nodup ∧
      ∀ id ∈ paths.map (params.fileSystem.fileId disk.fs), id.missing = false →
        outputs.writtenFiles.lookup id = none ∧ (outputs'.writtenFiles.lookup id).isSome = true := by
  induction paths generalizing outputs with
  | nil =>
    cases h
    exact ⟨hstatus, (append_nil _).symm, nodup_nil, nofun⟩
  | cons path paths ih =>
    rw [foldlM_cons] at h
    obtain ⟨outputs₁, hround, h⟩ := bind_eq_ok.mp h
    obtain ⟨fp, hfp, hwritten, hids, hexit⟩ := fingerprintOutput_ok hround
    obtain ⟨hstatus₁, hids', hnodup, hnew⟩ := ih h
    rw [hstatus₁] at hexit
    have hnoClash : (fp.stat.couldAccess &&
        (outputs.writtenFiles.lookup (params.fileSystem.fileId disk.fs path)).isSome) = false := by
      refine Bool.eq_false_iff.mpr fun hclash => ?_
      rw [if_pos hclash] at hexit
      nomatch hexit
    rw [hnoClash, if_neg Bool.false_ne_true] at hexit
    have hold : ∀ id, outputs₁.writtenFiles.lookup id = none → outputs.writtenFiles.lookup id = none := by
      intro id hnone
      by_contra hne
      obtain ⟨hash, hhash⟩ := ne_none_iff_exists'.mp hne
      nomatch hnone.symm.trans (fingerprintOutput_keeps hround hhash)
    have hrest : ∀ id ∈ paths.map (params.fileSystem.fileId disk.fs), id.missing = false →
        outputs.writtenFiles.lookup id = none ∧ (outputs'.writtenFiles.lookup id).isSome = true :=
      fun id hid hm => (hnew id hid hm).imp_left (hold id)
    refine ⟨hexit.symm, by rw [hids', hids, append_assoc]; rfl, ?_⟩
    simp only [map_cons, forall_mem_cons]
    cases hmissing : (params.fileSystem.fileId disk.fs path).missing with
    | true =>
      rw [filter_cons_of_neg (by simp [hmissing])]
      exact ⟨hnodup, nofun, hrest⟩
    | false =>
      have haccess := (fingerprint_couldAccess_iff hfp).mpr (FileSystem.found_of_fileId hmissing)
      have hnone : outputs.writtenFiles.lookup (params.fileSystem.fileId disk.fs path) = none := by
        simpa [haccess] using hnoClash
      have hinsert : outputs₁.writtenFiles.lookup (params.fileSystem.fileId disk.fs path) =
          some fp.hash := by
        rw [hwritten, haccess, hnone]
        exact lookup_insert _
      refine ⟨?_, fun _ => ⟨hnone, ?_⟩, hrest⟩
      · rw [filter_cons_of_pos (by simp [hmissing])]
        refine nodup_cons.mpr ⟨fun hmem => ?_, hnodup⟩
        nomatch hinsert.symm.trans (hnew _ (mem_filter.mp hmem).1 hmissing).1
      · rw [foldlM_fingerprintOutput_keeps h hinsert]
        rfl

/-- A file that is attributed to a step is one of a step that was skipped, or was written. -/
def Observed.Attributed (o : Observed σ n) : Prop :=
  ∀ id j, o.outputFiles.lookup id = some j → j ∈ o.skipped ∨ (o.writtenFiles.lookup id).isSome = true

variable {w w' : World σ n}

theorem Fingerprinted.written {outputs : OutputFiles} {inputs : List ((Path × Fingerprint) × FileId)}
    (h : Fingerprinted params w s result disk outputs inputs) (hid : (w.build.writtenFiles.lookup id).isSome = true) :
    (outputs.writtenFiles.lookup id).isSome = true := by
  obtain ⟨hash, hhash⟩ := isSome_iff_exists.mp hid
  rw [foldlM_fingerprintOutput_keeps h.outputs hhash]
  rfl

theorem Observed.Attributed.next {event : Event σ n} {o : Observed σ n} (h : w.observed.Attributed)
    (htransition : Transition params w event o) : o.Attributed := by
  cases htransition with
  | quiet | effect | start => exact h
  | skip event hskips hids hfiles =>
    intro id j hj
    rcases emplaceOutputFiles_lookup hfiles hj with hold | ⟨rfl, -, -⟩
    · exact (h id j hold).imp_left (mem_append_left _)
    · exact .inl (mem_append_right _ (mem_singleton_self j))
  | finish hfiles hstatus houtputs =>
    obtain ⟨-, hids, -, hnew⟩ := foldlM_fingerprintOutput_success hfiles.outputs hstatus
    intro id j hj
    rcases emplaceOutputFiles_lookup houtputs hj with hold | ⟨-, hmem, hmissing⟩
    · exact (h id j hold).imp_right hfiles.written
    · rw [hids, nil_append] at hmem
      exact .inr (hnew id hmem hmissing).2
  | fail hfiles => exact fun id j hj => (h id j hj).imp_right hfiles.written

def InvocationLog.commands (log : InvocationLog) : List RanCommand := log.calls.filterMap fun call =>
    match call.2 with
    | .ranCommand command => some command
    | _ => none

theorem Disk.commands_call_ranCommand (disk : Disk σ) (command : RanCommand) :
    (disk.call now (.ranCommand command)).log.commands = disk.log.commands ++ [command] := by
  simp [Disk.call, InvocationLog.call, InvocationLog.commands]

theorem InvocationLog.AddsDirectories.commands_eq {log log' : InvocationLog} (h : log.AddsDirectories log') :
    log'.commands = log.commands := by
  obtain ⟨new, rfl, hnew⟩ := h
  have hnone : new.filterMap (fun call : Int64 × LogCall =>
      match call.2 with
      | .ranCommand command => some command
      | _ => none) = [] := by
    refine filterMap_eq_nil_iff.mpr fun call hcall => ?_
    have hdirectory := hnew call hcall
    cases hc : call.2 with
    | ranCommand command =>
      rw [hc] at hdirectory
      nomatch hdirectory
    | cleanedCommand | createdDirectory | removedDirectory => rfl
  rw [InvocationLog.commands, filterMap_append, hnone, append_nil]
  rfl

/-- A command that is logged has passed `commandDone` up to the point where the step is finished. -/
theorem fingerprinted_of_logged (hnext : w.next params (.commandDone s result) = some w')
    (hlogged : w'.disk.log.commands ≠ w.disk.log.commands) :
    ∃ disk outputs inputs, Fingerprinted params w s result disk outputs inputs ∧
      outputs.exitStatus = .success ∧ w'.disk.fs = disk.fs ∧
      w'.disk.log.commands = w.disk.log.commands ++ [commandToLog params
        { w.build with writtenFiles := outputs.writtenFiles } s outputs.files inputs] ∧
      ((∃ failure, w'.phase = .thrown failure ∧
        Build.markStepNodeAsDone params.manifest params.invocations s outputs.fileIds false
          { w.build with writtenFiles := outputs.writtenFiles } = .error failure) ∨
      ∃ build, w'.phase = .enqueueing ∧ w'.history.done = w.history.done ++ [s] ∧
        Build.markStepNodeAsDone params.manifest params.invocations s outputs.fileIds false
          { w.build with writtenFiles := outputs.writtenFiles } = .ok build) := by
  have hdeleted : (deleteCommandFiles params w.clock w.disk (params.manifest.steps s)
      result.exitStatus).1.log.commands = w.disk.log.commands :=
    deleteBuildProducts_addsDirectories.commands_eq
  cases World.happens_of_next hnext with
  | commandDone _ hs =>
    rw [World.complete] at hlogged ⊢
    rcases commandDone_cases params w.clock w.disk w.build s result with
      ⟨error, hdone⟩ | ⟨disk, outputs, inputs, hdelete, houtputs, hinputs, hdone⟩
    · rw [hdone] at hlogged
      exact absurd hdeleted hlogged
    · rw [hdelete] at hdeleted
      rcases hdone with ⟨hstatus, hdone⟩ | ⟨hstatus, hdone⟩
      · refine ⟨disk, outputs, inputs, ⟨hs, hdelete, houtputs, hinputs⟩, hstatus, ?_⟩
        let build := { w.build with writtenFiles := outputs.writtenFiles }
        have hmark : ∃ mark, Build.markStepNodeAsDone params.manifest params.invocations s
            outputs.fileIds false build = mark := ⟨_, rfl⟩
        obtain ⟨mark, hmark⟩ := hmark
        cases hlog : (params.manifest.steps s).logged with
        | false =>
          rw [hdone, hlog, hmark] at hlogged
          cases mark <;> exact absurd hdeleted hlogged
        | true =>
          rw [hdone, hlog, hmark]
          have hcommands : (disk.call w.clock (.ranCommand (commandToLog params build s outputs.files
              inputs))).log.commands =
              w.disk.log.commands ++ [commandToLog params build s outputs.files inputs] :=
            (Disk.commands_call_ranCommand disk _).trans (congrArg (· ++ _) hdeleted)
          cases mark with
          | error failure => exact ⟨rfl, hcommands, .inl ⟨failure, rfl, rfl⟩⟩
          | ok build => exact ⟨rfl, hcommands, .inr ⟨build, rfl, rfl, rfl⟩⟩
      · rw [hdone] at hlogged
        exact absurd hdeleted hlogged

/-- In every build and for every result of a command that is logged: the step is accepted unless
one of the files that it reports belongs to a step that was skipped. -/
theorem logged_step_accepted_iff {F : FileSystem σ} {manifest : CompiledManifest n} {invocations : Invocations}
    {failuresAllowed : UInt64} {specifiedSteps : List (Fin n)} {checkClock : Fin n → Int64} {clock : Int64}
    {disk : Disk σ} {w₀ : World σ n}
    (hstart : startBuild F manifest invocations failuresAllowed specifiedSteps checkClock clock disk = .ok (params, w₀))
    (hreaches : World.Reaches params (fun _ _ => True) w₀ w) {s : Fin n} {result : CommandResult}
    (hnext : w.next params (.commandDone s result) = some w') (hlogged : w'.disk.log.commands ≠ w.disk.log.commands) :
    (s ∈ w'.history.done ∧ ∀ failure, w'.phase ≠ .thrown failure) ↔
      ∀ path ∈ result.outputFiles, ∀ j, (params.fileSystem.fileId w'.disk.fs path).missing = false →
        w.build.outputFiles.lookup (params.fileSystem.fileId w'.disk.fs path) = some j → j ∉ w.history.skipped := by
  have hbegun := startBuild_begun hstart
  obtain ⟨disk', outputs, inputs, hfiles, hstatus, hfs, -, hmark⟩ := fingerprinted_of_logged hnext hlogged
  obtain ⟨-, hids, hnodup, hnew⟩ := foldlM_fingerprintOutput_success hfiles.outputs hstatus
  rw [nil_append] at hids
  rw [hfs]
  have hsucceeds := @emplaceOutputFiles_succeeds_iff n s outputs.fileIds w.build.outputFiles
  rw [hids] at hsucceeds
  constructor
  · rintro ⟨-, hphase⟩ path hpath j hmissing hj
    rcases hmark with ⟨failure, hthrown, -⟩ | ⟨build, -, -, hmark⟩
    · exact absurd hthrown (hphase failure)
    · have houtput := (Build.markStepNodeAsDone_files hmark).2.1
      rw [hids] at houtput
      have hnone := (hsucceeds.mp ⟨_, houtput⟩).2 _ (mem_map_of_mem hpath) hmissing
      cases hnone.symm.trans hj
  · intro hskipped
    rcases hmark with ⟨failure, hthrown, hmark⟩ | ⟨build, hphase, hdone, -⟩
    · have hbefore : ∀ failure, w.phase ≠ .thrown failure := by
        intro failure hphase
        simp [World.next, hphase] at hnext
      have hinitial : w₀.observed.Attributed := by
        intro id j hj
        obtain ⟨stepsToBuild, hbuild⟩ := hbegun.constructed
        rw [World.observed, hbuild.outputFiles] at hj
        cases hj
      have hattributed : w.observed.Attributed := hreaches.invariant
        (P := fun w => w.observed.Attributed) hbegun hinitial
        (fun _ _ _ htransition h => h.next htransition) hbefore
      have hnone : ∀ id ∈ result.outputFiles.map (params.fileSystem.fileId disk'.fs), id.missing = false →
          w.build.outputFiles.lookup id = none := by
        intro id hid hmissing
        by_contra hne
        obtain ⟨j, hj⟩ := ne_none_iff_exists'.mp hne
        obtain ⟨path, hpath, rfl⟩ := mem_map.mp hid
        rcases hattributed _ j hj with hskip | hwritten
        · exact hskipped path hpath j hmissing hj hskip
        · have hnone : w.build.writtenFiles.lookup (params.fileSystem.fileId disk'.fs path) = none :=
            (hnew _ hid hmissing).1
          cases (congrArg isSome hnone).symm.trans hwritten
      obtain ⟨outputFiles, hemplace⟩ := hsucceeds.mpr ⟨hnodup, hnone⟩
      obtain ⟨what, rfl⟩ := (Build.markStepNodeAsDone_error hmark).resolve_left fun hclash =>
        by cases (hids ▸ hclash).symm.trans hemplace
      exact absurd hthrown ((hbegun.accounted (hreaches.step trivial hnext)).noAssertionFailed what)
    · exact ⟨hdone ▸ mem_append_right _ (mem_singleton_self s), fun failure h =>
        by cases hphase.symm.trans h⟩

end

def partialBuild : Option (BuildCommandParameters FlatFiles 2 × World FlatFiles 2) := do
  let w ← usedBuild
  openBuild .valueFirst flatFileSystem chain 1 [1] (fun _ => 20) 20 [sourceFile 1 1, middleFile 3 10]
    (some w.logFile)

/-- The second step writes `o` again and is accepted. -/
theorem logged_step_accepted_of_own_file :
    ∃ params w₀ w w', partialBuild = some (params, w₀) ∧ World.Reaches params (fun _ _ => True) w₀ w ∧
      w.next params (.commandDone 1 { inputFiles := [[97]], outputFiles := [[111]] }) = some w' ∧
      w'.disk.log.commands ≠ w.disk.log.commands ∧ 1 ∈ w'.history.done ∧ ∀ failure, w'.phase ≠ .thrown failure := by
  have h : ∃ params w₀, partialBuild = some (params, w₀) ∧ ∃ w, w₀.run (fun _ _ => true) params
      [.discard, .discard, .discard, .enqueue true, .enqueue true,
        .effect 1 [sourceFile 1 1, middleFile 3 10, outputFile], .tick 22] = some w ∧
      ∃ w', w.next params (.commandDone 1 { inputFiles := [[97]], outputFiles := [[111]] }) = some w' ∧
        w'.disk.log.commands.length ≠ w.disk.log.commands.length ∧
          w.build.outputFiles.lookup (params.fileSystem.fileId w'.disk.fs [111]) = none := by
    decide +kernel
  obtain ⟨params, w₀, hstart, w, hrun, w', hnext, hlogged, hnone⟩ := h
  have hlogged : w'.disk.log.commands ≠ w.disk.log.commands := fun h => hlogged (congrArg length h)
  have hreaches : World.Reaches params (fun _ _ => True) w₀ w :=
    World.reaches_of_run (fun _ _ _ _ _ => trivial) .refl hrun
  have hbuilds := hstart
  rw [partialBuild] at hbuilds
  obtain ⟨w₁, -, hopen⟩ := bind_eq_some_iff.mp hbuilds
  obtain ⟨result, left, -, hbegin⟩ := openBuild_eq_some hopen
  refine ⟨params, w₀, w, w', hstart, hreaches, hnext, hlogged,
    (logged_step_accepted_iff hbegin hreaches hnext hlogged).mpr fun path hpath j _ hj => ?_⟩
  obtain rfl := mem_singleton.mp hpath
  nomatch hnone.symm.trans hj

/-- The second step writes `o` again and also writes to `a`, which is the output of the first step.
It is logged, and then the build throws. -/
theorem logged_step_clashes_with_skipped : ∃ params w₀ w w', partialBuild = some (params, w₀) ∧
      w₀.run (fun _ _ => true) params [.discard, .discard, .discard, .enqueue true, .enqueue true,
          .effect 1 [sourceFile 1 1, middleFile 3 21, outputFile], .tick 22] = some w ∧
      w.next params (.commandDone 1 { inputFiles := [[97]], outputFiles := [[97], [111]] }) = some w' ∧
      w'.disk.log.commands.map (·.buildStepHash) = [(params.manifest.steps 1).hash] ∧
      w'.phase = .thrown (.buildError "More than one step wrote to the same file") ∧
      1 ∉ w'.history.done ∧ w'.history.failed = [] := by
  simp only [exists_and_left]
  decide +kernel

end Shuriken
