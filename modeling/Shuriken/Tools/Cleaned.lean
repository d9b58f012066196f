import Shuriken.Build.Rebuild
import Shuriken.Fs.Nested
import Shuriken.Tools.Clean

/-!
# What cleaning leaves behind

A file of an earlier build is deleted when its step is not in the manifest any more, or when the dry run comes
to its step and does not take it for clean.
-/
namespace Shuriken
open List

section
variable {σ : Type} {n : Nat} {F : FileSystem σ} {Same : Path → Path → Prop} {invocations : Invocations}
  {params : BuildCommandParameters (σ × Nat) n}

/-- The paths that running a step deletes. -/
def CompiledManifest.leftovers (manifest : CompiledManifest n) (invocations : Invocations) (j : Fin n) : List Path :=
  (invocations.outputs (manifest.steps j).hash).map Prod.fst ++ (manifest.steps j).commandFiles

/-- A path is not among those that were deleted so far. -/
def Observed.Spared (Same : Path → Path → Prop) (params : BuildCommandParameters (σ × Nat) n)
    (o : Observed (σ × Nat) n) (q : Path) : Prop :=
  ∀ j ∈ o.started, ¬ Names Same ((params.invocations.outputs (params.manifest.steps j).hash).map Prod.fst) q ∧
    (j ∉ o.running → ¬ Names Same (params.manifest.steps j).commandFiles q)

/-- The files that are there are response files of commands that run, and files that were there at
the start and were not deleted. No command is run for a step that is clean. -/
structure Observed.Cleaning (F : FileSystem σ) (Same : Path → Path → Prop)
    (params : BuildCommandParameters (σ × Nat) n) (fs₁ : σ) (o : Observed (σ × Nat) n) : Prop where
  left : ∀ q, F.HasFile o.disk.fs.1 q → (∃ k ∈ o.running, Names Same (params.manifest.steps k).rspfiles q) ∨
    F.HasFile fs₁ q ∧ o.Spared Same params q
  kept : ∀ q, F.HasFile fs₁ q → o.Spared Same params q → F.HasFile o.disk.fs.1 q
  written : o.writtenFiles = ∅
  dirty : ∀ j ∈ o.started, (params.manifest.steps j).generator = true ∨ params.cleanSteps j = false
  done : ∀ j ∈ o.done, j ∈ o.started ∨ params.cleanSteps j = true ∨ (params.manifest.steps j).phony = true

def World.DryRun (_w : World σ n) (event : Event σ n) : Prop :=
  (∀ s fs, event ≠ .effect s fs) ∧ ∀ s result, event = .commandDone s result → result = {}

theorem canSkipBuildCommand_of_clean {params : BuildCommandParameters σ n} {fs : σ} {build : Build n} {i : Fin n}
    (hclean : params.cleanSteps i = true)
    (hentry : (params.invocations.entries.lookup (params.manifest.steps i).hash).isSome = true)
    (hwritten : build.writtenFiles = ∅) : canSkipBuildCommand params fs build i = true := by
  obtain ⟨entry, hentry⟩ := Option.isSome_iff_exists.mp hentry
  simp [canSkipBuildCommand, hclean, hentry, inputUnchanged, hwritten]

theorem Observed.Cleaning.next (hF : PlainFiles F F.HasFile Same) (hparams : params.fileSystem = cleaningFileSystem F)
    {fs₁ : σ} {w₀ w : World (σ × Nat) n} {disk₀ : Disk (σ × Nat)} (hbegun : Begun disk₀ params w₀)
    {event : Event (σ × Nat) n} {o : Observed (σ × Nat) n} (h : w.observed.Cleaning F Same params fs₁)
    (hscheduled : Scheduled params w₀.build [] w) (hevent : w.DryRun event)
    (htransition : Transition params w event o) :
    o.Cleaning F Same params fs₁ := by
  cases htransition with
  | quiet => exact h
  | skip _ hskips =>
    refine ⟨h.left, h.kept, h.written, h.dirty, fun j hj => ?_⟩
    rcases mem_append.mp hj with hj | hj
    · exact h.done j hj
    · exact .inr (mem_singleton.mp hj ▸ hskips.clean_or_phony)
  | effect fs => exact absurd rfl (hevent.1 _ fs)
  | @start s disk canRunMore hs hphase hprepare hskip =>
    have hfound := prepareCommand_cleaning hF hparams hprepare
    have hfresh := (hscheduled.fresh_of_ready (mem_of_getLast? hs)).2.2
    have hstarted : s ∈ w.history.started ++ [s] := mem_append_right _ (mem_singleton_self s)
    refine ⟨fun q hq => ?_, fun q hq hspared => ?_, h.written, fun j hj => ?_, fun j hj => ?_⟩
    · rcases (hfound q).mp hq with ⟨hq, hne⟩ | hrspfile
      · refine (h.left q hq).imp (fun ⟨k, hk, hq⟩ => ⟨k, mem_append_left _ hk, hq⟩) ?_
        refine And.imp_right fun hspared j hj => ?_
        rcases mem_append.mp hj with hj | hj
        · exact (hspared j hj).imp_right fun hfiles hnot => hfiles (mt (mem_append_left _) hnot)
        · obtain rfl := mem_singleton.mp hj
          exact ⟨hne, fun hnot => absurd (mem_append_right _ (mem_singleton_self j)) hnot⟩
      · exact .inl ⟨s, mem_append_right _ (mem_singleton_self s), hrspfile⟩
    · refine (hfound q).mpr (.inl ⟨h.kept q hq fun j hj => ?_, (hspared s hstarted).1⟩)
      refine (hspared j (mem_append_left _ hj)).imp_right fun hfiles hnot => hfiles fun hmem => ?_
      rcases mem_append.mp hmem with hmem | hmem
      · exact hnot hmem
      · exact hfresh (mem_singleton.mp hmem ▸ hj)
    · rcases mem_append.mp hj with hj | hj
      · exact h.dirty j hj
      · obtain rfl := mem_singleton.mp hj
        refine or_iff_not_imp_left.mpr fun hgenerator => Bool.eq_false_iff.mpr fun hclean => ?_
        have hentry := ((hbegun.clean j hclean).2 (Bool.eq_false_iff.mpr hgenerator)).1
        exact absurd (canSkipBuildCommand_of_clean hclean hentry h.written) (Bool.eq_false_iff.mp hskip)
    · exact (h.done j hj).imp_left (mem_append_left _)
  | @finish s result disk outputs inputs outputFiles hfiles hstatus houtput =>
    obtain rfl := hevent.2 s result rfl
    have hfound := deleteCommandFiles_cleaning hF hparams hfiles.deleted
    have hnodup := hscheduled.nodup_accounted
    simp only [nodup_append] at hnodup
    have hs : s ∉ w.running.erase s := hnodup.1.1.2.1.not_mem_erase
    have hstarted := hscheduled.running hfiles.running
    obtain rfl := Except.ok.inj hfiles.outputs
    refine ⟨fun q hq => ?_, fun q hq hspared => ?_, h.written, h.dirty, fun j hj => ?_⟩
    · simp only [Disk.fs_ite_call] at hq
      obtain ⟨hq, hne⟩ := (hfound q).mp hq
      rcases h.left q hq with ⟨k, hk, hrspfile⟩ | ⟨hfs₁, hspared⟩
      · refine .inl ⟨k, (mem_erase_of_ne ?_).mpr hk, hrspfile⟩
        rintro rfl
        exact hne ((names_append _ _ q).mpr (.inr hrspfile))
      · refine .inr ⟨hfs₁, fun j hj => (hspared j hj).imp_right fun hfiles hnot => ?_⟩
        by_cases hjs : j = s
        · exact hjs ▸ hne
        · exact hfiles (mt (mem_erase_of_ne hjs).mpr hnot)
    · simp only [Disk.fs_ite_call]
      refine (hfound q).mpr ⟨h.kept q hq fun j hj => ?_, (hspared s hstarted).2 hs⟩
      exact (hspared j hj).imp_right fun hfiles hnot => hfiles (mt mem_of_mem_erase hnot)
    · rcases mem_append.mp hj with hj | hj
      · exact h.done j hj
      · exact .inl (mem_singleton.mp hj ▸ hstarted)
  | @fail s result disk outputs inputs hfiles hstatus =>
    obtain rfl := hevent.2 s result rfl
    obtain rfl := Except.ok.inj hfiles.outputs
    exact absurd rfl hstatus

theorem World.reaches_dryRun {params : BuildCommandParameters σ n} (rounds : Nat) {w₀ w : World σ n}
    (h : World.Reaches params World.DryRun w₀ w) : World.Reaches params World.DryRun w₀ (w.dryRun params rounds) := by
  induction rounds generalizing w with
  | zero => exact h
  | succ rounds ih =>
    rw [World.dryRun]
    split
    · exact h
    · next w' hnext =>
      obtain ⟨event, hevent, hnext⟩ := Option.bind_eq_some_iff.mp hnext
      refine ih (h.step ?_ hnext)
      rw [World.dryRunEvent] at hevent
      split at hevent
      · exact Option.some.inj hevent ▸ ⟨nofun, nofun⟩
      · exact Option.some.inj hevent ▸ ⟨nofun, nofun⟩
      · split at hevent
        · exact Option.some.inj hevent ▸ ⟨nofun, nofun⟩
        · refine Option.some.inj hevent ▸ ⟨nofun, fun s result heq => ?_⟩
          exact (Event.commandDone.inj heq).2.symm
      · nomatch hevent
      · nomatch hevent

/-- What a missing file matches. -/
def Fingerprint.MatchesMissing (fp : Fingerprint) : Prop :=
  fp.stat = {} ∨ fp.stat.size = 0 ∧ fp.stat.mode = 0 ∧ fp.hash = Hash.zero

instance (fp : Fingerprint) : Decidable fp.MatchesMissing := inferInstanceAs (Decidable (_ ∨ _))

theorem fingerprintMatches_cleaning (s : σ × Nat) (path : Path) (fp : Fingerprint) : ∃ result,
    fingerprintMatches (cleaningFileSystem F) s path fp = .ok result ∧ (result.clean = true ↔ fp.MatchesMissing) := by
  have hstat : FingerprintStat.fromStat ((cleaningFileSystem F).lstat s path) {} = {} := rfl
  rw [fingerprintMatches, fingerprintMatchesCurrent, hstat, Fingerprint.MatchesMissing]
  by_cases hsame : fp.stat = {}
  · rw [if_pos (by simp [hsame])]
    exact ⟨_, rfl, by simp [hsame]⟩
  · rw [if_neg fun h => hsame h.1.symm]
    by_cases hsize : fp.stat.size = 0 ∧ fp.stat.mode = 0
    · obtain ⟨hsize, hmode⟩ := hsize
      have hhash : computeFingerprintHash (cleaningFileSystem F) s 0 0 path = .ok Hash.zero := rfl
      simp only [hsize, hmode, hhash]
      exact ⟨_, rfl, by simp [fingerprintMatchesFpStat, hsame, hsize, hmode]⟩
    · rw [if_neg fun h => hsize ⟨h.1.symm, h.2.symm⟩]
      exact ⟨_, rfl, by simp [hsame, ← and_assoc, hsize]⟩

/-- The steps that count as clean when there are no files. -/
def Step.CleanWithoutFiles (invocations : Invocations) (step : Step n) : Prop :=
  if step.generator then step.generatorInputs = [] ∨ step.generatorOutputs = []
  else (invocations.entries.lookup step.hash).isSome = true ∧
    ∀ file ∈ invocations.outputs step.hash ++ invocations.inputs step.hash, file.2.MatchesMissing

instance (step : Step n) : Decidable (step.CleanWithoutFiles invocations) := by
  unfold Step.CleanWithoutFiles
  infer_instance

/-- The steps that a build without targets comes to. -/
def CompiledManifest.Reaches (manifest : CompiledManifest n) (invocations : Invocations) (i : Fin n) : Prop :=
  ∃ steps, computeStepsToBuild manifest [] = .ok steps ∧
    ∃ r ∈ steps, Relation.ReflTransGen (Build.Edge manifest invocations) r i

section
variable {manifest : CompiledManifest n} {checkClock : Fin n → Int64} {clock : Int64} {fs : σ} {log : InvocationLog}
  {w₀ : World (σ × Nat) n} (hstart : startBuild (cleaningFileSystem F) manifest invocations 1 [] checkClock clock
    ⟨(fs, 0), log⟩ = .ok (params, w₀))
include hstart

theorem shouldBuild_cleaning (i : Fin n) :
    (w₀.build.stepNodes i).shouldBuild = true ↔ manifest.Reaches invocations i := by
  obtain ⟨steps, hsteps, hbuild, -⟩ := startBuild_constructed hstart
  refine ⟨fun hi => ⟨steps, hsteps, hbuild.reachable i hi⟩, ?_⟩
  rintro ⟨steps', hsteps', r, hr, hpath⟩
  cases hsteps.symm.trans hsteps'
  induction hpath with
  | refl => exact hbuild.roots r hr
  | tail _ hedge ih => exact hbuild.closed _ ih _ hedge

theorem cleanSteps_cleaning {i : Fin n} (hi : (w₀.build.stepNodes i).shouldBuild = true) :
    params.cleanSteps i = true ↔ (manifest.steps i).CleanWithoutFiles invocations := by
  have hbegun := startBuild_begun hstart
  obtain ⟨hF, hmanifest, hinvocations, -⟩ := startBuild_params hstart
  obtain ⟨-, hmemo, hanswer⟩ := startBuild_answers hstart
  have hanswer := hanswer i
  rw [if_pos hi] at hanswer
  rw [Step.CleanWithoutFiles]
  split
  · next hgenerator =>
    rw [hanswer.generator hgenerator, generatorStepIsClean]
    cases (manifest.steps i).generatorInputs with
    | nil => simp
    | cons input inputs =>
      cases (manifest.steps i).generatorOutputs with
      | nil => simp
      | cons => simp [foldMtime, cleaningFileSystem, show ENOENT ≠ 0 by decide]
  · next hgenerator =>
    rw [Bool.not_eq_true] at hgenerator
    constructor
    · intro hclean
      have hfiles := (hbegun.clean i hclean).2 (hmanifest ▸ hgenerator)
      rw [hmanifest, hinvocations, hF] at hfiles
      refine hfiles.imp_right fun hfiles file hfile => ?_
      obtain ⟨result, hresult, hclean⟩ := hfiles file hfile
      obtain ⟨result', hresult', hiff⟩ := fingerprintMatches_cleaning w₀.disk.fs file.1 file.2
      cases hresult.symm.trans hresult'
      exact hiff.mp hclean
    · rintro ⟨hentry, hfiles⟩
      obtain ⟨entry, hentry⟩ := Option.isSome_iff_exists.mp hentry
      refine hanswer.ofEntry hgenerator entry hentry fun index hindex result hresult => ?_
      obtain ⟨file, hfile, hresult⟩ := hmemo index result hresult
      obtain ⟨result', hresult', hiff⟩ := fingerprintMatches_cleaning (fs, 0) file.1 file.2
      cases hresult.symm.trans hresult'
      refine hiff.mpr (hfiles file ?_)
      simp only [Invocations.outputs, Invocations.inputs, hentry, Invocations.files, ← filterMap_append]
      exact mem_filterMap.mpr ⟨index, hindex, hfile⟩

/-- What is left when the build of the clean tool has returned, and the steps that it has run. -/
theorem dryRun_cleans (hF : PlainFiles F F.HasFile Same) {rounds : Nat} {result : BuildResult}
    (hphase : (w₀.dryRun params rounds).phase = .finished result) (hinterrupted : result ≠ .interrupted)
    (hfailure : result ≠ .failure) : ∃ started : List (Fin n),
      (∀ q, F.HasFile (w₀.dryRun params rounds).disk.fs.1 q ↔
        F.HasFile fs q ∧ ∀ j ∈ started, ¬ Names Same (manifest.leftovers invocations j) q) ∧
      ∀ i, (i ∈ started → manifest.Reaches invocations i ∧
          ((manifest.steps i).generator = true ∨ ¬ (manifest.steps i).CleanWithoutFiles invocations)) ∧
        (manifest.Reaches invocations i → (manifest.steps i).phony = false →
          ¬ (manifest.steps i).CleanWithoutFiles invocations → i ∈ started) := by
  have hbegun := startBuild_begun hstart
  obtain ⟨hparams, hmanifest, hinvocations, hallowed⟩ := startBuild_params hstart
  have hreaches := @World.reaches_dryRun _ _ params rounds w₀ w₀ .refl
  have hinitial : w₀.observed.Cleaning F Same params fs := by
    have hfs : w₀.disk.fs.1 = fs := congrArg Prod.fst hbegun.fs
    obtain ⟨_, -, hbuild, -, hw₀⟩ := startBuild_constructed hstart
    have hstarted : w₀.history.started = [] ∧ w₀.history.done = [] := by rw [hw₀]; exact ⟨rfl, rfl⟩
    refine ⟨fun q hq => .inr ⟨hfs ▸ hq, ?_⟩, fun q hq _ => (show w₀.observed.disk.fs.1 = fs from hfs) ▸ hq,
      hbuild.writtenFiles, ?_, ?_⟩
    all_goals simp [World.observed, Observed.Spared, hstarted]
  generalize w₀.dryRun params rounds = w at hphase hreaches ⊢
  have hcleaning : w.observed.Cleaning F Same params fs :=
    hreaches.invariant (P := fun w => w.observed.Cleaning F Same params fs) hbegun hinitial
      (fun hscheduled hevent _ htransition h => h.next hF hparams hbegun hscheduled hevent htransition)
      (fun failure hthrown => by cases hphase.symm.trans hthrown)
  have haccounted := hbegun.accounted hreaches
  have hidle := haccounted.idle
  rw [World.Idle, hphase] at hidle
  have hrunning : w.running = [] := (hidle hinterrupted).1
  have hscheduled := haccounted.holdsNothing (by simp [hphase])
  have hdone := done_of_success hbegun (fun i => startBuild_grounded hstart) (by rw [hallowed]; decide)
    (by rw [hallowed]; decide) hreaches hphase hinterrupted hfailure
  refine ⟨w.history.started, fun q => ?_, fun i => ⟨fun hi => ?_, fun hreach hphony hclean => ?_⟩⟩
  · have hspared : w.observed.Spared Same params q ↔
        ∀ j ∈ w.history.started, ¬ Names Same (manifest.leftovers invocations j) q := by
      simp only [Observed.Spared, World.observed, hrunning, not_mem_nil, not_false_eq_true,
        true_implies, CompiledManifest.leftovers, names_append, not_or, hmanifest, hinvocations]
    rw [← hspared]
    refine ⟨fun hq => (hcleaning.left q hq).resolve_left ?_, fun h => hcleaning.kept q h.1 h.2⟩
    rintro ⟨k, hk, -⟩
    rw [World.observed, hrunning] at hk
    cases hk
  · have hentered : i ∈ w.history.entered := hscheduled.mem_entered <| by
      rcases hscheduled.started i hi with h | h | h | h <;> simp_all
    have hbuild := ((hscheduled.entered i).mp hentered).1
    refine ⟨(shouldBuild_cleaning hstart i).mp hbuild, (hmanifest ▸ hcleaning.dirty i hi).imp_right fun hdirty => ?_⟩
    rw [← cleanSteps_cleaning hstart hbuild, hdirty]
    simp
  · have hbuild := (shouldBuild_cleaning hstart i).mpr hreach
    rcases hcleaning.done i (hdone i hbuild) with h | h | h
    · exact h
    · exact absurd ((cleanSteps_cleaning hstart hbuild).mp h) hclean
    · rw [hmanifest, hphony] at h
      cases h

end

theorem cleanInvocationLog_has (hF : PlainFiles F F.HasFile Same) {invocationLogPath : Path} {s : σ × Nat}
    (hcode : (cleanInvocationLog F invocationLogPath s).exitCode = 0) (q : Path) :
    F.HasFile (cleanInvocationLog F invocationLogPath s).fs q ↔ F.HasFile s.1 q ∧ ¬ Same invocationLogPath q := by
  have hunlink := hF.cleaning.unlink s invocationLogPath q
  rw [cleanInvocationLog] at hcode ⊢
  split at hcode
  · next heq =>
    rw [heq] at hunlink
    exact hunlink (by simp)
  · next heq =>
    rw [heq] at hunlink
    exact hunlink (by simpa using hcode)

variable {manifest : CompiledManifest n} {hashes : List Hash} {checkClock : Fin n → Int64} {clock : Int64}
  {invocationLogPath : Path} {rounds : Nat} {disk : Disk σ} {result : CleanResult σ}
  (h : toolClean F manifest invocations hashes checkClock clock invocationLogPath rounds disk = some result)
  (hcode : result.exitCode = 0)

include h hcode in
theorem toolClean_succeeded :
    ∃ disk₁ params w₀ buildResult, deleteStaleOutputs F manifest invocations clock disk hashes = (disk₁, none) ∧
      startBuild (cleaningFileSystem F) manifest invocations 1 [] checkClock clock
        ⟨(disk₁.fs, 0), disk₁.log⟩ = .ok (params, w₀) ∧
      (w₀.dryRun params rounds).phase = .finished buildResult ∧ buildResult ≠ .interrupted ∧ buildResult ≠ .failure ∧
      result = cleanInvocationLog F invocationLogPath (w₀.dryRun params rounds).disk.fs := by
  have hcodes : ∀ {code fs count}, some (⟨code, fs, count⟩ : CleanResult σ) = some result → code = 0 := by
    intro code fs count h
    cases h
    exact hcode
  rw [toolClean] at h
  split at h
  · nomatch hcodes h
  · next disk₁ hstale =>
    split at h
    · nomatch hcodes h
    · nomatch hcodes h
    · nomatch h
    · next params w₀ hstart =>
      simp only at h
      split at h
      · next hphase => exact ⟨disk₁, params, w₀, _, hstale, hstart, hphase, nofun, nofun, (Option.some.inj h).symm⟩
      · next hphase => exact ⟨disk₁, params, w₀, _, hstale, hstart, hphase, nofun, nofun, (Option.some.inj h).symm⟩
      · nomatch hcodes h
      · nomatch hcodes h
      · nomatch hcodes h
      · nomatch hcodes h
      · nomatch h

/-- Every recorded output of a step that is there is the log, or is left behind by one of the given
steps or by a recorded step that is not in the manifest any more. -/
def CompiledManifest.Covers (manifest : CompiledManifest n) (F : FileSystem σ) (Same : Path → Path → Prop)
    (invocations : Invocations) (invocationLogPath : Path) (s : σ) (Run : Fin n → Prop) : Prop :=
  ∀ i, ∀ file ∈ invocations.outputs (manifest.steps i).hash, F.HasFile s file.1 →
    Same invocationLogPath file.1 ∨
    (∃ hash ∈ invocations.entries, (∀ j, (manifest.steps j).hash ≠ hash) ∧
      Names Same ((invocations.outputs hash).map Prod.fst) file.1) ∨
    ∃ j, Run j ∧ Names Same (manifest.leftovers invocations j) file.1

end

theorem nested_hasFile {t : NestedFiles} {path : Path} :
    nestedFileSystem.HasFile t path ↔ (t.lookup path).any (!·.isDir) = true := by
  simp only [FileSystem.HasFile, FileSystem.Found, FileSystem.lstat, nestedFileSystem, NestedFiles.view]
  cases t.lookup path with
  | none => simp [show ENOENT ≠ 0 by decide]
  | some file =>
    cases hdir : file.isDir with
    | true => simp [hdir, show sIsDir S_IFDIR = true by decide]
    | false => simp [hdir, show sIsDir S_IFREG = false by decide]

theorem nested_hasFile_remove (t : NestedFiles) (path q : Path) :
    nestedFileSystem.HasFile (t.remove path) q ↔ nestedFileSystem.HasFile t q ∧ path ≠ q := by
  rw [nested_hasFile, nested_hasFile, NestedFiles.lookup_remove]
  by_cases hq : q = path
  · simp [hq]
  · simp [hq, Ne.symm hq]

theorem nestedFileSystem_plain : PlainFiles nestedFileSystem nestedFileSystem.HasFile (· = ·) where
  refl _ := rfl
  unlink t path q h := by
    change ∀ error ∈ (t.unlink path).2, error.code = ENOENT at h
    change nestedFileSystem.HasFile (t.unlink path).1 q ↔ _
    rw [NestedFiles.unlink] at h ⊢
    cases hfile : t.lookup path with
    | none =>
      refine (and_iff_left_of_imp fun hq => ?_).symm
      rintro rfl
      simp [nested_hasFile, hfile] at hq
    | some file =>
      cases hdir : file.isDir with
      | true => simp [hfile, hdir, show EISDIR ≠ ENOENT by decide] at h
      | false => simpa [hdir] using nested_hasFile_remove t path q
  rmdir t path q := by
    rcases t.rmdir_cases path with ⟨hrmdir, hdir, -⟩ | ⟨error, hrmdir, -⟩
    · rw [hrmdir, nested_hasFile_remove, and_iff_left_of_imp]
      rintro hq rfl
      rw [nested_hasFile, Option.any_eq_true] at hq
      rw [nested_isDirectory, Option.any_eq_true] at hdir
      grind
    · rw [hrmdir]
  writeFile t path contents q h := by
    change (t.writeFile path contents).2 = none at h
    change nestedFileSystem.HasFile (t.writeFile path contents).1 q ↔ _
    rw [NestedFiles.writeFile] at h ⊢
    cases hfile : t.lookup path with
    | none =>
      simp only [hfile, NestedFiles.create] at h ⊢
      split
      · next hdirname =>
        rw [if_pos hdirname] at h
        split
        · simp only [nested_hasFile, NestedFiles.lookup, lookup_cons]
          by_cases hq : q = path
          · simp [hq]
          · simp [beq_eq_false_iff_ne.mpr hq, Ne.symm hq]
        · next hroom =>
          rw [dif_neg hroom] at h
          cases h
      · next hdirname => simp [hdirname] at h
    | some file =>
      cases hdir : file.isDir with
      | true => simp [hfile, hdir] at h
      | false =>
        simp only [hdir, Bool.false_eq_true, if_false, nested_hasFile, NestedFiles.lookup_replace]
        by_cases hq : q = path
        · simp [hq, hfile, hdir]
        · simp [hq, Ne.symm hq]

/-- The files after a build of both steps of the chain, with the log `l`. -/
def usedFiles : NestedFiles where
  files := [([46], { ino := 9, isDir := true }), ([115], { ino := 1 }), ([97], { ino := 3 }), ([111], { ino := 2 }),
    ([108], { ino := 4 })]
  room := 9
  distinct := by decide

def chainWithDefaults (defaults : List (Fin 2)) : CompiledManifest 2 where
  steps := chain.steps
  defaults

def cleanUsedBuild (defaults : List (Fin 2)) : Option (Invocations × CleanResult NestedFiles) := do
  let w ← usedBuild
  let (result, _) ← (parsePersistentInvocationLog .valueFirst (nestedFileSystem.lstat usedFiles)
    (some w.logFile)).toOption
  let clean ← toolClean nestedFileSystem (chainWithDefaults defaults) result.invocations
    ((finRange 2).map fun i => (chain.steps i).hash) (fun _ => 20) 20 [108] 20
    ⟨usedFiles, { opened := emptyLog }⟩
  return (result.invocations, clean)

end Shuriken
