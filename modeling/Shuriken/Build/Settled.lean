import Shuriken.Build.NoWork
import Shuriken.Build.Recorded

/-!
# The records of the steps that are done

An invariant of builds in which nothing touches the files of a step once it was run.
-/
namespace Shuriken
open List

section
variable {σ : Type} {n : Nat}

/-- What is recorded for a step is what there is. -/
structure Recorded (F : FileSystem σ) (s : σ) (outputFiles : Finmap fun _ : FileId => Fin n) (i : Fin n)
    (c : LoggedCommand) : Prop where
  matching : ∀ file ∈ c.outputs ++ c.inputs, MatchesNow F s file
  once : ((c.outputs.map fun file => F.fileId s file.1).filter fun id => !id.missing).Nodup
  attributed : ∀ file ∈ c.outputs, (F.fileId s file.1).missing = false → outputFiles.lookup (F.fileId s file.1) = some i

variable {outputFiles : Finmap fun _ : FileId => Fin n} {outputFiles' : Finmap fun _ : FileId => Fin n}

variable {i : Fin n}

theorem Recorded.mono {F : FileSystem σ} {s s' : σ} {c : LoggedCommand} (h : Recorded F s outputFiles i c)
    (houtputs : ∀ file ∈ c.outputs, F.view s' file.1 = F.view s file.1)
    (hinputs : ∀ file ∈ c.inputs, MatchesNow F s' file)
    (hkeeps : ∀ id j, outputFiles.lookup id = some j → outputFiles'.lookup id = some j) :
    Recorded F s' outputFiles' i c := by
  have hids : ∀ file ∈ c.outputs, F.fileId s' file.1 = F.fileId s file.1 := fun file hfile =>
    congrArg (fun v : FileView => FileId.ofStat v.stat) (houtputs file hfile)
  obtain ⟨hmatching, -⟩ := forall_mem_append.mp h.matching
  refine ⟨forall_mem_append.mpr ⟨fun file hfile => (hmatching file hfile).congr (houtputs file hfile),
    hinputs⟩, ?_, fun file hfile hmissing => ?_⟩
  · rw [map_congr_left hids]
    exact h.once
  · rw [hids file hfile] at hmissing ⊢
    exact hkeeps _ _ (h.attributed file hfile hmissing)

theorem recorded_of_emplaced {F : FileSystem σ} {s : σ} {c : LoggedCommand} {paths : List Path}
    (hmatching : ∀ file ∈ c.outputs ++ c.inputs, MatchesNow F s file) (hpaths : (c.outputs.map Prod.fst).Sublist paths)
    (h : Build.emplaceOutputFiles i (paths.map (F.fileId s)) outputFiles = .ok outputFiles') :
    Recorded F s outputFiles' i c := by
  have hids : (c.outputs.map fun file => F.fileId s file.1).Sublist (paths.map (F.fileId s)) := by
    have hmap := hpaths.map (F.fileId s)
    rwa [map_map] at hmap
  refine ⟨hmatching, ?_, fun file hfile hmissing => ?_⟩
  · exact (emplaceOutputFiles_succeeds_iff.mp ⟨_, h⟩).1.sublist (hids.filter _)
  · exact emplaceOutputFiles_mem h (hids.subset (mem_map_of_mem hfile)) hmissing

variable {params : BuildCommandParameters σ n} {w₀ w w' : World σ n}

/-- The files of a clean step are as recorded. -/
theorem Begun.recorded {disk : Disk σ} (hbegun : Begun disk params w₀)
    (hrefreshed : ∀ hash, Refreshed params.fileSystem w₀.disk.fs (params.invocations.logged hash)
      (w₀.disk.log.logged params.invocations hash))
    (hclean : params.cleanSteps i = true) (hgenerator : (params.manifest.steps i).generator = false) :
    ∃ c, w₀.disk.log.logged params.invocations (params.manifest.steps i).hash = some c ∧
      (∀ file ∈ c.outputs ++ c.inputs, MatchesNow params.fileSystem w₀.disk.fs file) ∧
      (c.outputs.map Prod.fst).Sublist
        ((params.invocations.outputs (params.manifest.steps i).hash).map Prod.fst) := by
  obtain ⟨hentry, hmatching⟩ := (hbegun.clean i hclean).2 hgenerator
  obtain ⟨entry, hentry⟩ := Option.isSome_iff_exists.mp hentry
  have hlogged : ∃ c, params.invocations.logged (params.manifest.steps i).hash = some c ∧
      c.outputs = params.invocations.outputs (params.manifest.steps i).hash ∧
      c.inputs = params.invocations.inputs (params.manifest.steps i).hash := by
    simp only [Invocations.logged, Invocations.outputs, Invocations.inputs, hentry]
    exact ⟨_, rfl, rfl, rfl⟩
  obtain ⟨c, hc, houtputs, hinputs⟩ := hlogged
  rw [← houtputs, ← hinputs] at hmatching
  rw [← houtputs]
  rcases hrefreshed (params.manifest.steps i).hash with hsame | ⟨c₁, c', hc₁, hc', hrelogged⟩
  · exact ⟨c, hsame.trans hc, hmatching, List.Sublist.refl _⟩
  · cases hc₁.symm.trans hc
    exact ⟨c', hc', hrelogged.matching, hrelogged.outputs⟩

variable (params w₀)

def Observed.logged (o : Observed σ n) : Hash → Option LoggedCommand := o.disk.log.logged params.invocations

/-- The files that are recorded for steps which were run are the same in `fs`. -/
def World.Keeps (w : World σ n) (fs : σ) : Prop :=
  ∀ i ∈ w.history.done, i ∈ w.history.started → (params.manifest.steps i).phony = false →
    ∀ c ∈ w.observed.logged params (params.manifest.steps i).hash, ∀ file ∈ c.outputs ++ c.inputs,
      params.fileSystem.view fs file.1 = params.fileSystem.view w.disk.fs file.1

instance (w : World σ n) (fs : σ) : Decidable (w.Keeps params fs) := inferInstanceAs (Decidable (∀ i ∈ _, _))

/-- The event leaves the files alone that are recorded for steps which were run. -/
def World.KeepsFiles (w : World σ n) (event : Event σ n) : Prop :=
  ∀ w', w.next params event = some w' → w.Keeps params w'.disk.fs

structure Observed.Records (o : Observed σ n) : Prop where
  opened : o.disk.log.opened = w₀.disk.log.opened
  unlogged : ∀ i, i ∉ o.done ∨ i ∉ o.started ∨ (params.manifest.steps i).phony = true →
    o.logged params (params.manifest.steps i).hash = w₀.observed.logged params (params.manifest.steps i).hash
  skipped : ∀ i ∈ o.done, i ∉ o.started → (params.manifest.steps i).phony = false →
    ∃ c, w₀.observed.logged params (params.manifest.steps i).hash = some c ∧
      Recorded params.fileSystem w₀.disk.fs o.outputFiles i c
  run : ∀ i ∈ o.done, i ∈ o.started → (params.manifest.steps i).phony = false →
    ∃ c, o.logged params (params.manifest.steps i).hash = some c ∧
      Recorded params.fileSystem o.disk.fs o.outputFiles i c
  ordered : Search.Ordered (fun i j => j ∈ Build.links params.manifest (o.logged params) i) o.done
  owners : ∀ id j, o.outputFiles.lookup id = some j → j ∈ o.done

variable {params w₀} {o : Observed σ n}

theorem Observed.Records.run_kept {o' : Observed σ n} (h : o.Records params w₀)
    (hdone : i ∈ o.done) (hstarted : i ∈ o.started) (hphony : (params.manifest.steps i).phony = false)
    (hlogged : o'.logged params (params.manifest.steps i).hash = o.logged params (params.manifest.steps i).hash)
    (hfiles : ∀ c, o.logged params (params.manifest.steps i).hash = some c → ∀ file ∈ c.outputs ++ c.inputs,
      params.fileSystem.view o'.disk.fs file.1 = params.fileSystem.view o.disk.fs file.1)
    (hkeeps : ∀ id j, o.outputFiles.lookup id = some j → o'.outputFiles.lookup id = some j) :
    ∃ c, o'.logged params (params.manifest.steps i).hash = some c ∧
      Recorded params.fileSystem o'.disk.fs o'.outputFiles i c := by
  obtain ⟨c, hc, hrecorded⟩ := h.run i hdone hstarted hphony
  have hviews := hfiles c hc
  obtain ⟨-, hmatching⟩ := forall_mem_append.mp hrecorded.matching
  refine ⟨c, hlogged.trans hc, hrecorded.mono (fun file hfile => hviews file (mem_append_left _ hfile))
    (fun file hfile => (hmatching file hfile).congr (hviews file (mem_append_right _ hfile))) hkeeps⟩

theorem Observed.Records.same {o' : Observed σ n} (h : o.Records params w₀)
    (hopened : o'.disk.log.opened = o.disk.log.opened) (hlogged : o'.logged params = o.logged params)
    (hdone : o'.done = o.done) (houtput : o'.outputFiles = o.outputFiles) (hgrows : o.started ⊆ o'.started)
    (hstarted : ∀ i ∈ o.done, i ∈ o'.started → i ∈ o.started)
    (hfiles : ∀ i ∈ o.done, i ∈ o.started → (params.manifest.steps i).phony = false →
      ∀ c, o.logged params (params.manifest.steps i).hash = some c → ∀ file ∈ c.outputs ++ c.inputs,
        params.fileSystem.view o'.disk.fs file.1 = params.fileSystem.view o.disk.fs file.1) :
    o'.Records params w₀ where
  opened := hopened.trans h.opened
  unlogged i hi := by
    rw [hlogged]
    rw [hdone] at hi
    exact h.unlogged i (hi.imp_right (Or.imp_left (mt fun hmem => hgrows hmem)))
  skipped i hi hnot hphony := by
    rw [hdone] at hi
    rw [houtput]
    exact h.skipped i hi (mt (fun hmem => hgrows hmem) hnot) hphony
  run i hi hmem hphony := by
    rw [hdone] at hi
    have hmem := hstarted i hi hmem
    refine h.run_kept hi hmem hphony (congrFun hlogged _) (hfiles i hi hmem hphony) fun id j hj => ?_
    rwa [houtput]
  ordered := by
    rw [hdone, hlogged]
    exact h.ordered
  owners := by
    rw [hdone, houtput]
    exact h.owners

variable {s : Fin n}

/-- A step is skipped. -/
theorem Observed.Records.skip (h : w.observed.Records params w₀) (hscheduled : Scheduled params w₀.build [] w)
    (hedges : ∀ i, Build.links params.manifest (w₀.observed.logged params) i = params.edges i)
    (hready : s ∈ w.build.readySteps)
    (hfiles : Build.emplaceOutputFiles s (w₀.outputIds params s) w.build.outputFiles = .ok outputFiles)
    (hrecorded : (params.manifest.steps s).phony = false →
      ∃ c, w₀.observed.logged params (params.manifest.steps s).hash = some c ∧
        (∀ file ∈ c.outputs ++ c.inputs, MatchesNow params.fileSystem w₀.disk.fs file) ∧
        (c.outputs.map Prod.fst).Sublist (params.recordedOutputs s)) :
    { w.observed with
      outputFiles
      skipped := w.observed.skipped ++ [s]
      done := w.observed.done ++ [s] : Observed σ n }.Records params w₀ := by
  obtain ⟨-, hnotDone, hnotStarted⟩ := hscheduled.fresh_of_ready hready
  have hkeeps : ∀ id j, w.build.outputFiles.lookup id = some j → outputFiles.lookup id = some j := fun id j =>
    emplaceOutputFiles_keeps hfiles
  refine ⟨h.opened, fun i hi => h.unlogged i (hi.imp_left (mt (mem_append_left _))), fun i hi hnot hphony => ?_,
    fun i hi hstarted hphony => ?_, h.ordered.concat hnotDone fun j hj => ?_, fun id j hj => ?_⟩
  · rcases mem_append.mp hi with hi | hi
    · obtain ⟨c, hc, hold⟩ := h.skipped i hi hnot hphony
      obtain ⟨-, hmatching⟩ := forall_mem_append.mp hold.matching
      exact ⟨c, hc, hold.mono (fun _ _ => rfl) hmatching hkeeps⟩
    · obtain rfl := mem_singleton.mp hi
      obtain ⟨c, hc, hmatching, hpaths⟩ := hrecorded hphony
      exact ⟨c, hc, recorded_of_emplaced hmatching hpaths hfiles⟩
  · rcases mem_append.mp hi with hi | hi
    · exact h.run_kept hi hstarted hphony rfl (fun _ _ _ _ => rfl) hkeeps
    · exact absurd (mem_singleton.mp hi ▸ hstarted) hnotStarted
  · have hsame := h.unlogged s (.inl hnotDone)
    rw [Build.links, hsame, ← Build.links, hedges] at hj
    exact ((hscheduled.entered s).mp (hscheduled.mem_entered (by simp [hready]))).2 j hj
  · rcases emplaceOutputFiles_lookup hfiles hj with hold | ⟨rfl, -, -⟩
    · exact mem_append_left _ (h.owners id j hold)
    · exact mem_append_right _ (mem_singleton_self j)

/-- What a command that is logged leaves in the log. -/
theorem Fingerprinted.logged {result : CommandResult} {disk : Disk σ} {outputs : OutputFiles}
    {inputs : List ((Path × Fingerprint) × FileId)} (h : Fingerprinted params w s result disk outputs inputs) :
    w.disk.log.AddsDirectories disk.log ∧
    ∃ c, (disk.call w.clock (.ranCommand (commandToLog params w.build s outputs.files inputs))).log.logged
        params.invocations = Function.update (w.observed.logged params) (params.manifest.steps s).hash (some c) ∧
      (∀ file ∈ c.outputs ++ c.inputs, MatchesNow params.fileSystem disk.fs file) ∧
      (c.outputs.map Prod.fst).Sublist result.outputFiles ∧
      ∀ hash ∈ c.additionalDependencies, ∃ id j, w.build.outputFiles.lookup id = some j ∧
        hash = (params.manifest.steps j).hash := by
  have hadds : w.disk.log.AddsDirectories (deleteCommandFiles params w.clock w.disk (params.manifest.steps s)
      result.exitStatus).1.log := deleteBuildProducts_addsDirectories
  rw [h.deleted] at hadds
  obtain ⟨files, hfiles, houtputs⟩ := foldlM_fingerprintOutput_taken h.outputs
  have hinputs := fingerprintInputs_taken h.inputs
  rw [nil_append] at hfiles
  rw [← hfiles] at houtputs
  refine ⟨hadds, (commandToLog params w.build s outputs.files inputs).notRacilyClean.logged, ?_,
    forall_mem_append.mpr ⟨houtputs.matchesNow, hinputs.matchesNow⟩, houtputs.sublist,
    fun hash hhash => commandToLog_additional outputs.files hhash⟩
  rw [Disk.call, InvocationLog.logged_ranCommand, hadds.logged_eq]
  rfl

/-- A step is done that was run. -/
theorem Observed.Records.finish (h : w.observed.Records params w₀) (hscheduled : Scheduled params w₀.build [] w)
    (hedges : ∀ i, Build.links params.manifest (w₀.observed.logged params) i = params.edges i)
    (hhashes : Function.Injective fun i => (params.manifest.steps i).hash)
    (hrunning : s ∈ w.running) {paths : List Path}
    (hopened : o.disk.log.opened = w.disk.log.opened) (hdone : o.done = w.history.done ++ [s])
    (hstarted : o.started = w.history.started)
    (houtput : Build.emplaceOutputFiles s (paths.map (params.fileSystem.fileId o.disk.fs)) w.build.outputFiles =
      .ok o.outputFiles)
    (hothers : ∀ hash, hash ≠ (params.manifest.steps s).hash ∨ (params.manifest.steps s).phony = true →
      o.logged params hash = w.observed.logged params hash)
    (hown : (params.manifest.steps s).phony = false → ∃ c, o.logged params (params.manifest.steps s).hash = some c ∧
        (∀ file ∈ c.outputs ++ c.inputs, MatchesNow params.fileSystem o.disk.fs file) ∧
        (c.outputs.map Prod.fst).Sublist paths ∧
        ∀ hash ∈ c.additionalDependencies, ∃ id j, w.build.outputFiles.lookup id = some j ∧
          hash = (params.manifest.steps j).hash)
    (hkept : w.Keeps params o.disk.fs) : o.Records params w₀ := by
  have hs : s ∈ w.history.started := hscheduled.running hrunning
  have hnotDone : s ∉ w.history.done := fun hmem => (hscheduled.only_done hmem).2.1 hrunning
  have hkeeps : ∀ id j, w.build.outputFiles.lookup id = some j → o.outputFiles.lookup id = some j := fun id j =>
    emplaceOutputFiles_keeps houtput
  have hsame : ∀ i, i ≠ s ∨ (params.manifest.steps s).phony = true → o.logged params (params.manifest.steps i).hash =
        w.observed.logged params (params.manifest.steps i).hash := fun i hi =>
    hothers _ (hi.imp_left fun hne heq => hne (hhashes heq))
  refine ⟨hopened.trans h.opened, fun i hi => ?_, fun i hi hnot hphony => ?_, fun i hi hmem hphony => ?_, ?_,
    fun id j hj => ?_⟩
  · rw [hdone, hstarted] at hi
    refine (hsame i ?_).trans (h.unlogged i (hi.imp_left (mt (mem_append_left _))))
    by_contra hboth
    obtain ⟨rfl, hphony⟩ := not_or.mp hboth |>.imp_left not_not.mp
    exact hi.elim (fun hi => hi (mem_append_right _ (mem_singleton_self i)))
      fun hi => hi.elim (fun hi => hi hs) hphony
  · rw [hdone] at hi
    rw [hstarted] at hnot
    rcases mem_append.mp hi with hi | hi
    · obtain ⟨c, hc, hold⟩ := h.skipped i hi hnot hphony
      obtain ⟨-, hmatching⟩ := forall_mem_append.mp hold.matching
      exact ⟨c, hc, hold.mono (fun _ _ => rfl) hmatching hkeeps⟩
    · exact absurd (mem_singleton.mp hi ▸ hs) hnot
  · rw [hdone] at hi
    rw [hstarted] at hmem
    rcases mem_append.mp hi with hi | hi
    · have hne : i ≠ s := fun heq => hnotDone (heq ▸ hi)
      exact h.run_kept hi hmem hphony (hsame i (.inl hne)) (hkept i hi hmem hphony) hkeeps
    · obtain rfl := mem_singleton.mp hi
      obtain ⟨c, hc, hmatching, hpaths, -⟩ := hown hphony
      exact ⟨c, hc, recorded_of_emplaced hmatching hpaths houtput⟩
  · rw [hdone]
    refine (h.ordered.mono fun i hi j hj => ?_).concat hnotDone fun j hj => ?_
    · have hne : i ≠ s := fun heq => hnotDone (heq ▸ hi)
      rwa [Build.links, hsame i (.inl hne)] at hj
    · have hdependencies : ∀ j ∈ params.edges s, j ∈ w.history.done :=
        ((hscheduled.entered s).mp (hscheduled.mem_entered (by simp [hrunning]))).2
      cases hphony : (params.manifest.steps s).phony with
      | true =>
        rw [Build.links, hsame s (.inr hphony), h.unlogged s (.inl hnotDone), ← Build.links, hedges] at hj
        exact hdependencies j hj
      | false =>
        obtain ⟨c, hc, -, -, hadditional⟩ := hown hphony
        rw [Build.links, hc] at hj
        rcases mem_append.mp hj with hj | hj
        · exact hdependencies j (hedges s ▸ mem_append_left _ hj)
        · -- an additional dependency has written a file, so it was done
          obtain ⟨hash, hhash, hindex⟩ := mem_filterMap.mp hj
          obtain ⟨id, k, hid, rfl⟩ := hadditional hash hhash
          rw [Build.stepIndex_hash hhashes] at hindex
          exact Option.some.inj hindex ▸ h.owners id k hid
  · rw [hdone]
    rcases emplaceOutputFiles_lookup houtput hj with hold | ⟨rfl, -, -⟩
    · exact mem_append_left _ (h.owners id j hold)
    · exact mem_append_right _ (mem_singleton_self j)

theorem prepareCommand_addsDirectories {now : Int64} {disk : Disk σ} {step : Step n} :
    disk.log.AddsDirectories (prepareCommand params now disk step).1.log := by
  have hdelete : disk.log.AddsDirectories (deleteOldOutputs params now disk step.hash).1.log := by
    rw [deleteOldOutputs]
    split
    · exact .refl _
    · exact deleteBuildProducts_addsDirectories
  have hrspfile : ∀ disk : Disk σ, disk.log.AddsDirectories (writeRspfile params now disk step).1.log := by
    intro disk
    rw [writeRspfile]
    split
    · exact .refl _
    · have hmkdirs : disk.log.AddsDirectories
          (mkdirsAndLog params.fileSystem now disk (dirname step.rspfile)).1.log := mkdirsAndLog_addsDirectories
      split
      · next heq => exact (congrArg (fun r => r.1.log) heq) ▸ hmkdirs
      · next heq => exact (congrArg (fun r => r.1.log) heq) ▸ hmkdirs
  rw [prepareCommand]
  cases hold : deleteOldOutputs params now disk step.hash with
  | mk disk₁ failure =>
    rw [hold] at hdelete
    cases failure with
    | some failure => exact hdelete
    | none =>
      have hwritten := hrspfile disk₁
      simp only
      cases hwrite : writeRspfile params now disk₁ step with
      | mk disk₂ failure =>
        rw [hwrite] at hwritten
        cases failure with
        | some failure => exact hdelete.trans hwritten
        | none => exact (hdelete.trans hwritten).trans mkdirsAndLogAll_addsDirectories

section
variable {F : FileSystem σ} {manifest : CompiledManifest n} {invocations : Invocations}
  {failuresAllowed : UInt64} {specifiedSteps : List (Fin n)} {checkClock : Fin n → Int64} {clock : Int64}
  {disk : Disk σ}
  (hstart : startBuild F manifest invocations failuresAllowed specifiedSteps checkClock clock disk =
    .ok (params, w₀)) (hcalls : disk.log.calls = [])
  (hgenerator : ∀ i, (manifest.steps i).generator = false)
  (hconsole : ∀ i, isConsolePool (manifest.steps i).poolName = false)
  (hhashes : Function.Injective fun i => (manifest.steps i).hash)
include hstart hcalls

theorem startBuild_logged : w₀.disk.log.opened = disk.log.opened ∧
    (∀ hash, Refreshed params.fileSystem w₀.disk.fs (params.invocations.logged hash) (w₀.observed.logged params hash)) ∧
    ∀ i, Build.links params.manifest (w₀.observed.logged params) i = params.edges i := by
  obtain ⟨hF, hmanifest, hinvocations, -⟩ := startBuild_params hstart
  obtain ⟨hopened, hrefreshed⟩ := startBuild_refreshed hstart hcalls
  rw [← hF, ← hinvocations, ← (startBuild_begun hstart).fs] at hrefreshed
  refine ⟨hopened, hrefreshed, fun i => ?_⟩
  exact (Build.links_of_refreshed (hrefreshed (params.manifest.steps i).hash)).trans
    (Build.edges_eq_links params.manifest params.invocations i).symm

include hgenerator in
/-- A step that is skipped, and is not phony, has a record that fits the start of the build. -/
theorem startBuild_recorded (hskips : w.Skips params s) (hphony : (params.manifest.steps s).phony = false) :
    ∃ c, w₀.observed.logged params (params.manifest.steps s).hash = some c ∧
      (∀ file ∈ c.outputs ++ c.inputs, MatchesNow params.fileSystem w₀.disk.fs file) ∧
      (c.outputs.map Prod.fst).Sublist (params.recordedOutputs s) := by
  have hgenerator : (params.manifest.steps s).generator = false := (startBuild_params hstart).2.1 ▸ hgenerator s
  have hclean : params.cleanSteps s = true := hskips.clean_or_phony.resolve_right (by simp [hphony])
  obtain ⟨c, hc, hmatching, hpaths⟩ := (startBuild_begun hstart).recorded
    (startBuild_logged hstart hcalls).2.1 hclean hgenerator
  refine ⟨c, hc, hmatching, ?_⟩
  rw [BuildCommandParameters.recordedOutputs, hphony, hgenerator]
  exact hpaths

include hgenerator hconsole hhashes in
/-- What one event does to the records. -/
theorem Observed.Records.next (h : w.observed.Records params w₀) (hscheduled : Scheduled params w₀.build [] w)
    {event : Event σ n} (htransition : Transition params w event o) (hkept : w.Keeps params o.disk.fs) :
    o.Records params w₀ := by
  obtain ⟨-, -, hedges⟩ := startBuild_logged hstart hcalls
  have hmanifest := (startBuild_params hstart).2.1
  cases htransition with
  | quiet => exact h
  | effect fs hs => exact h.same rfl rfl rfl rfl (List.Subset.refl _) (fun _ _ h => h) hkept
  | skip event hskips hids hfiles =>
    rw [outputFileIds_eq hstart hids] at hfiles
    exact h.skip hscheduled hedges (mem_of_getLast? hskips.1) hfiles
      (startBuild_recorded hstart hcalls hgenerator hskips)
  | @start s disk' canRunMore hs hphase hprepare =>
    have hadds : w.disk.log.AddsDirectories disk'.log := by
      have hprepared := @prepareCommand_addsDirectories _ _ params w.clock w.disk (params.manifest.steps s)
      rwa [hprepare] at hprepared
    refine h.same hadds.opened_eq hadds.logged_eq rfl rfl (subset_append_left _ _) (fun i hi hmem => ?_) hkept
    refine (mem_append.mp hmem).resolve_right fun heq => ?_
    exact (hscheduled.fresh_of_ready (mem_of_getLast? hs)).2.1 (mem_singleton.mp heq ▸ hi)
  | @finish s result disk' outputs inputs outputFiles hfiles hstatus houtputs =>
    obtain ⟨hadds, c, hc, hmatching, hpaths, hadditional⟩ := hfiles.logged
    rw [(foldlM_fingerprintOutput_success hfiles.outputs hstatus).2.1, nil_append] at houtputs
    have hlogged : (params.manifest.steps s).logged = !(params.manifest.steps s).phony := by
      rw [Step.logged, hmanifest, hconsole]
      rfl
    cases hphony : (params.manifest.steps s).phony with
    | true =>
      rw [hlogged, hphony] at hkept ⊢
      exact h.finish hscheduled hedges (hmanifest ▸ hhashes) hfiles.running hadds.opened_eq rfl rfl houtputs
        (fun hash _ => congrFun hadds.logged_eq hash) (fun hnot => nomatch hphony.symm.trans hnot) hkept
    | false =>
      rw [hlogged, hphony] at hkept ⊢
      refine h.finish hscheduled hedges (hmanifest ▸ hhashes) hfiles.running hadds.opened_eq rfl rfl houtputs
        (fun hash hne => ?_) (fun _ => ⟨c, ?_, hmatching, hpaths, hadditional⟩) hkept
      · have hne := hne.resolve_right (by simp [hphony])
        exact (congrFun hc hash).trans (Function.update_of_ne hne _ _)
      · exact (congrFun hc _).trans (Function.update_self ..)
  | fail hfiles hstatus =>
    obtain ⟨hadds, -⟩ := hfiles.logged
    exact h.same hadds.opened_eq hadds.logged_eq rfl rfl (List.Subset.refl _) (fun _ _ h => h) hkept

include hgenerator hconsole hhashes in
theorem World.Reaches.records (hreaches : World.Reaches params (World.KeepsFiles params) w₀ w)
    (hactive : ∀ failure, w.phase ≠ .thrown failure) : w.observed.Records params w₀ := by
  have hbegun := startBuild_begun hstart
  have hinitial : w₀.observed.Records params w₀ := by
    obtain ⟨stepsToBuild, hbuild⟩ := hbegun.constructed
    have hnone : w₀.observed.done = [] := by rw [hbegun.initial]; rfl
    have hempty : w₀.observed.outputFiles = ∅ := hbuild.outputFiles
    refine ⟨rfl, fun _ _ => rfl, ?_, ?_, ?_, fun id j hj => ?_⟩
    · rw [hnone]
      nofun
    · rw [hnone]
      nofun
    · rw [hnone]
      nofun
    · rw [hempty] at hj
      nomatch hj
  refine hreaches.invariant (P := fun w => w.observed.Records params w₀) hbegun hinitial ?_ hactive
  intro w w' event hscheduled hkeeps hnext htransition h
  exact h.next hstart hcalls hgenerator hconsole hhashes hscheduled htransition (hkeeps w' hnext)

end
end
end Shuriken
