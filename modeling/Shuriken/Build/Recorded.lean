import Shuriken.Build.Edits
import Shuriken.Build.OneWriter
import Shuriken.Log.Sessions

/-!
# What a build records

The log of a build has the command of a step that was run last, or the one from before if the step was not
run.
-/
namespace Shuriken
open Except List

section
variable {σ : Type} {n : Nat}

structure Disk.Taken (F : FileSystem σ) (now : Int64) (disk : Disk σ) (paths : List Path)
    (files : List (Path × Fingerprint)) : Prop where
  paths : files.map Prod.fst = paths
  fingerprints : ∀ file ∈ files, ∃ id, disk.log.fingerprint F disk.fs now file.1 = .ok (file.2, id)

variable {F : FileSystem σ} {now : Int64} {disk disk' : Disk σ} {paths : List Path}
  {files : List (Path × Fingerprint)}

variable {path : Path} {fp : Fingerprint} {id : FileId} {inputs : List ((Path × Fingerprint) × FileId)} {hash : Hash}
    {manifest : CompiledManifest n}

theorem Disk.Taken.cons (h : disk.Taken F now paths files)
    (hfp : disk.log.fingerprint F disk.fs now path = .ok (fp, id)) :
    disk.Taken F now (path :: paths) ((path, fp) :: files) :=
  ⟨congrArg (path :: ·) h.paths, forall_mem_cons.mpr ⟨⟨id, hfp⟩, h.fingerprints⟩⟩

theorem fingerprintFiles_taken (h : fingerprintFiles F now disk paths = .ok files) : disk.Taken F now paths files := by
  have hfiles := forall₂_of_mapM h
  clear h
  induction hfiles with
  | nil => exact ⟨rfl, nofun⟩
  | cons hfile _ ih =>
    split at hfile
    · next hfp =>
      cases hfile
      exact ih.cons hfp
    · nomatch hfile

variable {params : BuildCommandParameters σ n}

theorem fingerprintInputs_taken (h : fingerprintInputs params now disk paths = .ok inputs) :
    disk.Taken params.fileSystem now paths (inputs.map Prod.fst) := by
  have hfiles := forall₂_of_mapM h
  clear h
  induction hfiles with
  | nil => exact ⟨rfl, nofun⟩
  | cons hfile _ ih =>
    split at hfile
    · nomatch hfile
    · next hfp =>
      cases hfile
      exact ih.cons hfp

theorem foldlM_fingerprintOutput_taken {outputs outputs' : OutputFiles}
    (h : paths.foldlM (fingerprintOutput params now disk) outputs = .ok outputs') :
    ∃ files, outputs'.files = outputs.files ++ files ∧ disk.Taken params.fileSystem now paths files := by
  induction paths generalizing outputs with
  | nil => exact ⟨[], by rw [ok.inj h, append_nil], rfl, by simp⟩
  | cons path paths ih =>
    rw [foldlM_cons] at h
    obtain ⟨outputs₁, hround, h⟩ := bind_eq_ok.mp h
    obtain ⟨files, hfiles, htaken⟩ := ih h
    rw [fingerprintOutput] at hround
    split at hround
    · cases hround
    · next fp id hfp =>
      cases hround
      exact ⟨(path, fp) :: files, by rw [hfiles, append_assoc]; rfl, htaken.cons hfp⟩

/-- A fingerprint that was just taken matches. That of a missing file can have stat data from
before. -/
theorem fingerprint_matchesNow {log : InvocationLog} {s : σ} (h : log.fingerprint F s now path = .ok (fp, id)) :
    MatchesNow F s (path, { fp with racilyClean := false }) := by
  have htrusts : fp.stat = (F.view s path).fpStat → MatchesNow F s (path, { fp with racilyClean := false }) :=
    fun hstat => ⟨_, fingerprintMatches_of_trusts F ⟨hstat.symm, .inl rfl⟩, rfl⟩
  rw [InvocationLog.fingerprint, PersistentInvocationLog.fingerprint] at h
  split at h
  · exact htrusts (takeFingerprint_ok F h).1.stat
  · next old _ =>
    rw [retakeFingerprint] at h
    obtain ⟨⟨result, hash⟩, hcurrent, h⟩ := bind_eq_ok.mp h
    simp only at h
    split at h
    · next hkept =>
      cases h
      by_cases hfound : (F.lstat s path).result = 0
      · refine htrusts ?_
        simp only [FileView.fpStat, FingerprintStat.fromStat]
        rw [if_pos hfound, if_pos (show (F.view s path).stat.result = 0 from hfound)]
        rfl
      · have hstat : FingerprintStat.fromStat (F.lstat s path) old.fingerprint.stat = old.fingerprint.stat :=
          if_neg hfound
        rcases fingerprintMatchesCurrent_ok F hcurrent with
          ⟨htrust, -⟩ | ⟨-, hsize, hmode, hhash, -⟩ | ⟨-, hclean, hupdate⟩
        · exact htrusts (hstat.trans htrust.1.symm)
        · refine Fits.matchesNow ⟨?_, ?_, ?_⟩ <;> simp only [hstat]
          · exact hsize
          · exact hmode
          · -- nothing is read of a file that is missing
            have hzero : old.fingerprint.stat.mode = 0 := hmode ▸ FileView.fpStat_mode_eq_zero.mpr hfound
            rw [hhash, FileSystem.fpDigest, hmode, hzero]
            rfl
        · rw [hclean, hupdate] at hkept
          cases hkept
    · exact htrusts (takeFingerprint_ok F h).1.stat

theorem Disk.Taken.matchesNow (h : disk.Taken F now paths files) :
    ∀ file ∈ (setFingerprintNotRacilyClean files).filter notDirectory, MatchesNow F disk.fs file := by
  intro file hfile
  obtain ⟨taken, htaken, rfl⟩ := mem_map.mp (mem_filter.mp hfile).1
  obtain ⟨id, hid⟩ := h.fingerprints taken htaken
  exact fingerprint_matchesNow hid

theorem Disk.Taken.sublist (h : disk.Taken F now paths files) :
    (((setFingerprintNotRacilyClean files).filter notDirectory).map Prod.fst).Sublist paths := by
  refine (filter_sublist.map Prod.fst).trans ?_
  rw [setFingerprintNotRacilyClean, map_map]
  exact h.paths ▸ List.Sublist.refl _

def InvocationLog.logged (log : InvocationLog) (invocations : Invocations) : Hash → Option LoggedCommand :=
  sessionCommands invocations.logged log.calls

variable {invocations : Invocations}

theorem InvocationLog.AddsDirectories.logged_eq {log log' : InvocationLog} (h : log.AddsDirectories log') :
    log'.logged invocations = log.logged invocations := by
  obtain ⟨new, rfl, hnew⟩ := h
  rw [InvocationLog.logged, sessionCommands_append, sessionCommands_directories _ hnew]
  rfl

theorem InvocationLog.logged_ranCommand (log : InvocationLog) (c : RanCommand) :
    (log.call now (.ranCommand c)).logged invocations =
      Function.update (log.logged invocations) c.buildStepHash (some c.notRacilyClean.logged) :=
  sessionCommands_append ..

/-- A command that was logged again, with the fingerprints that the files have. -/
structure LoggedCommand.Relogged (F : FileSystem σ) (s : σ) (before after : LoggedCommand) : Prop where
  outputs : (after.outputs.map Prod.fst).Sublist (before.outputs.map Prod.fst)
  additional : after.additionalDependencies = before.additionalDependencies
  matching : ∀ file ∈ after.outputs ++ after.inputs, MatchesNow F s file

def Refreshed (F : FileSystem σ) (s : σ) (before after : Option LoggedCommand) : Prop :=
  after = before ∨ ∃ c c', before = some c ∧ after = some c' ∧ c.Relogged F s c'

theorem relogCommand_relogged {entry : InvocationEntry} {command : RanCommand}
    (hentry : invocations.entries.lookup hash = some entry)
    (h : relogCommand F invocations now disk entry hash = .ok command) :
    command.buildStepHash = hash ∧ ∃ before, invocations.logged hash = some before ∧
      before.Relogged F disk.fs command.notRacilyClean.logged := by
  obtain ⟨outputFiles, houtputs, h⟩ := bind_eq_ok.mp h
  obtain ⟨inputFiles, hinputs, h⟩ := bind_eq_ok.mp h
  cases h
  have houtputs := fingerprintFiles_taken houtputs
  have hinputs := fingerprintFiles_taken hinputs
  rw [Invocations.logged, hentry]
  exact ⟨rfl, _, rfl, houtputs.sublist, rfl, forall_mem_append.mpr ⟨houtputs.matchesNow, hinputs.matchesNow⟩⟩

theorem isClean_refreshed {memo : FingerprintMatchesMemo} {step : Step n} {clean : Bool}
    (h : isClean F invocations now memo disk step = .ok (disk', clean)) :
    disk'.fs = disk.fs ∧ disk'.log.opened = disk.log.opened ∧
      ∀ hash, Refreshed F disk.fs (invocations.logged hash) (disk.log.logged invocations hash) →
        Refreshed F disk.fs (invocations.logged hash) (disk'.log.logged invocations hash) := by
  have hsame : disk' = disk → disk'.fs = disk.fs ∧ disk'.log.opened = disk.log.opened ∧
      ∀ hash, Refreshed F disk.fs (invocations.logged hash) (disk.log.logged invocations hash) →
        Refreshed F disk.fs (invocations.logged hash) (disk'.log.logged invocations hash) := by
    rintro rfl
    exact ⟨rfl, rfl, fun _ h => h⟩
  rw [isClean] at h
  split at h
  · exact hsame (Prod.mk.inj (ok.inj h)).1.symm
  · rw [nonGeneratorStepIsClean] at h
    cases hentry : invocations.entries.lookup step.hash with
    | none =>
      rw [hentry] at h
      exact hsame (Prod.mk.inj (ok.inj h)).1.symm
    | some entry =>
      rw [hentry] at h
      obtain ⟨outputState, -, h⟩ := bind_eq_ok.mp h
      obtain ⟨⟨clean', update⟩, -, h⟩ := bind_eq_ok.mp h
      simp only at h
      split at h
      · obtain ⟨command, hcommand, h⟩ := bind_eq_ok.mp h
        cases h
        obtain ⟨hhash, before, hbefore, hrelogged⟩ := relogCommand_relogged hentry hcommand
        refine ⟨rfl, rfl, fun hash hrefreshed => ?_⟩
        rw [Disk.call, InvocationLog.logged_ranCommand, hhash]
        by_cases heq : hash = step.hash
        · subst heq
          exact .inr ⟨before, _, hbefore, Function.update_self .., hrelogged⟩
        · rwa [Function.update_of_ne heq]
      · exact hsame (Prod.mk.inj (ok.inj h)).1.symm

/-- The start of a build logs commands again, and nothing else. -/
theorem startBuild_refreshed {failuresAllowed : UInt64} {specifiedSteps : List (Fin n)} {checkClock : Fin n → Int64}
    {clock : Int64} {w : World σ n}
    (h : startBuild F manifest invocations failuresAllowed specifiedSteps checkClock clock disk = .ok (params, w))
    (hcalls : disk.log.calls = []) :
    w.disk.log.opened = disk.log.opened ∧ ∀ hash, Refreshed F disk.fs (invocations.logged hash)
      (w.disk.log.logged invocations hash) := by
  obtain ⟨stepsToBuild, -, h⟩ := bind_eq_ok.mp h
  obtain ⟨build, -, h⟩ := bind_eq_ok.mp h
  obtain ⟨memo, -, h⟩ := bind_eq_ok.mp h
  obtain ⟨⟨disk', cleanSteps⟩, hclean, h⟩ := bind_eq_ok.mp h
  cases h
  refine (foldlM_invariant (P := fun state : Disk σ × (Fin n → Bool) => state.1.fs = disk.fs ∧
    state.1.log.opened = disk.log.opened ∧ ∀ hash, Refreshed F disk.fs (invocations.logged hash)
      (state.1.log.logged invocations hash)) (s := (disk, fun _ => false)) ?_ ⟨rfl, rfl, fun hash => ?_⟩
    hclean).2
  · rintro ⟨disk₁, clean₁⟩ j ⟨disk₂, clean₂⟩ - ⟨hfs, hopened, hrefreshed⟩ hround
    rw [computeCleanStep] at hround
    split at hround
    · obtain ⟨⟨disk₃, cleanj⟩, hisClean, h⟩ := bind_eq_ok.mp hround
      cases h
      obtain ⟨hfs', hopened', hrefreshed'⟩ := isClean_refreshed hisClean
      rw [show disk₁.fs = disk.fs from hfs] at hfs' hrefreshed'
      exact ⟨hfs', hopened'.trans hopened, fun hash => hrefreshed' hash (hrefreshed hash)⟩
    · cases hround
      exact ⟨hfs, hopened, hrefreshed⟩
  · rw [InvocationLog.logged, hcalls]
    exact .inl rfl

def Build.links (manifest : CompiledManifest n) (commands : Hash → Option LoggedCommand) (i : Fin n) : List (Fin n) :=
  (manifest.steps i).dependencies ++
    (((commands (manifest.steps i).hash).map (·.additionalDependencies)).getD []).filterMap
      (Build.stepIndex manifest)

theorem Build.edges_eq_links (manifest : CompiledManifest n) (invocations : Invocations) (i : Fin n) :
    Build.edges manifest invocations i = Build.links manifest invocations.logged i := by
  have hadditional : Build.additionalDependencies manifest invocations i =
      ((invocations.logged (manifest.steps i).hash).map (·.additionalDependencies)).getD [] := by
    rw [Build.additionalDependencies, Invocations.logged]
    cases invocations.entries.lookup (manifest.steps i).hash <;> rfl
  rw [Build.edges, Build.edgesOf, hadditional, Build.links, filterMap_append, filterMap_map,
    filterMap_map]
  exact congrArg (· ++ _) filterMap_some

theorem Build.links_of_refreshed {s : σ} {commands commands' : Hash → Option LoggedCommand} {i : Fin n}
    (h : Refreshed F s (commands (manifest.steps i).hash) (commands' (manifest.steps i).hash)) :
    Build.links manifest commands' i = Build.links manifest commands i := by
  rw [Build.links, Build.links]
  rcases h with h | ⟨c, c', hc, hc', hrelogged⟩
  · rw [h]
  · rw [hc, hc', Option.map_some, Option.map_some, hrelogged.additional]

theorem Build.stepIndex_hash (hhashes : Function.Injective fun i => (manifest.steps i).hash) (i : Fin n) :
    Build.stepIndex manifest (manifest.steps i).hash = some i := by
  rw [Build.stepIndex]
  cases hfound : (finRange n).reverse.find? fun j => (manifest.steps j).hash = (manifest.steps i).hash with
  | none =>
    have hnone := find?_eq_none.mp hfound i (mem_reverse.mpr (mem_finRange i))
    exact absurd (decide_eq_true rfl) hnone
  | some j => exact congrArg some (hhashes (of_decide_eq_true (find?_some hfound :)))

theorem mergeDependencies_additional {deps useds : List (Fin n)} : (mergeDependencies deps useds).2 ⊆ useds := by
  induction deps generalizing useds with
  | nil => exact List.Subset.refl _
  | cons dep deps ih =>
    rw [show mergeDependencies (dep :: deps) = mergeDependency dep (mergeDependencies deps) from rfl]
    induction useds with
    | nil => exact ih
    | cons used useds ihUsed =>
      rw [mergeDependency]
      split
      · exact fun _ h => mem_cons_of_mem used (ih h)
      · split
        · exact ih
        · exact cons_subset_cons used ihUsed

theorem commandToLog_additional {build : Build n} {s : Fin n} (outputs : List (Path × Fingerprint))
    (h : hash ∈ (commandToLog params build s outputs inputs).additionalDependencies) :
    ∃ id j, build.outputFiles.lookup id = some j ∧ hash = (params.manifest.steps j).hash := by
  have hmem := (perm_insertionSort _ _).mem_iff.mp h
  obtain ⟨j, hj, rfl⟩ := mem_map.mp hmem
  obtain ⟨id, -, -, hid⟩ := mem_usedDependencies.mp (mergeDependencies_additional hj)
  exact ⟨id, j, hid, rfl⟩

end
end Shuriken
