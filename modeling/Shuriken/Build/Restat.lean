import Shuriken.Build.Skipping

/-!
# The restat check

A clean step of which a dependency was built is still skipped when its inputs have not changed.
-/
namespace Shuriken
open Option Except List

section
variable {σ : Type} {n : Nat}

def FileSystem.fileId (F : FileSystem σ) (s : σ) (path : Path) : FileId := .ofStat (F.lstat s path)

/-- The fingerprint describes the file as it is now. Unlike `MatchesNow` this does not rely on
stat data for the contents. -/
structure Fits (F : FileSystem σ) (s : σ) (file : Path × Fingerprint) : Prop where
  size : (F.view s file.1).fpStat.size = file.2.stat.size
  mode : (F.view s file.1).fpStat.mode = file.2.stat.mode
  hash : computeFingerprintHash F s file.2.stat.size file.2.stat.mode file.1 = .ok file.2.hash

variable {F : FileSystem σ} {s : σ} {file : Path × Fingerprint} {path : Path} {id : FileId}
    {outputs outputs' : OutputFiles} {hash : Hash} {paths : List Path} {result : CommandResult}
    {inputs : List ((Path × Fingerprint) × FileId)}

theorem Fits.matchesNow (h : Fits F s file) : MatchesNow F s file := by
  rw [MatchesNow, fingerprintMatches, fingerprintMatchesCurrent]
  simp only [show FingerprintStat.fromStat (F.lstat s file.1) {} = (F.view s file.1).fpStat from rfl]
  split
  · exact ⟨_, rfl, rfl⟩
  · rw [if_pos ⟨h.size, h.mode⟩, h.hash]
    refine ⟨_, rfl, ?_⟩
    simp [fingerprintMatchesFpStat, h.size, h.mode]

def HashKnown (F : FileSystem σ) (s : σ) (writtenFiles : Finmap fun _ : FileId => Hash) (path : Path) : Prop :=
  ∃ hash, writtenFiles.lookup (F.fileId s path) = some hash ∧
    computeFingerprintHash F s (F.view s path).fpStat.size (F.view s path).fpStat.mode path = .ok hash

theorem HashKnown.mono {s' : σ} {written written' : Finmap fun _ : FileId => Hash} (h : HashKnown F s written path)
    (hview : F.view s' path = F.view s path)
    (hmono : ∀ id hash, written.lookup id = some hash → written'.lookup id = some hash) :
    HashKnown F s' written' path := by
  obtain ⟨hash, hlookup, hhash⟩ := h
  have hid : F.fileId s' path = F.fileId s path := congrArg (fun v : FileView => FileId.ofStat v.stat) hview
  exact ⟨hash, hid ▸ hmono _ _ hlookup, by rw [hview, computeFingerprintHash_congr F hview, hhash]⟩

theorem retakeFingerprint_fileId {now : Int64} {old fp : Fingerprint}
    (h : retakeFingerprint F s now path old = .ok (fp, id)) : id = F.fileId s path := by
  obtain ⟨⟨result, hash⟩, -, h⟩ := bind_eq_ok.mp h
  simp only at h
  split at h
  · exact (Prod.mk.inj (ok.inj h)).2.symm
  · exact (takeFingerprint_ok F h).2.2

theorem fingerprint_fileId {now : Int64} {log : InvocationLog} {fp : Fingerprint}
    (h : log.fingerprint F s now path = .ok (fp, id)) : id = F.fileId s path := by
  rw [InvocationLog.fingerprint, PersistentInvocationLog.fingerprint] at h
  split at h
  · exact (takeFingerprint_ok F h).2.2
  · exact retakeFingerprint_fileId h

variable {params : BuildCommandParameters σ n} {now : Int64} {disk : Disk σ}

section
variable (h : fingerprintOutput params now disk outputs path = .ok outputs')
include h

theorem fingerprintOutput_ok :
    ∃ fp, disk.log.fingerprint params.fileSystem disk.fs now path = .ok (fp, params.fileSystem.fileId disk.fs path) ∧
      outputs'.writtenFiles = (
        if fp.stat.couldAccess && !(outputs.writtenFiles.lookup (params.fileSystem.fileId disk.fs path)).isSome
        then outputs.writtenFiles.insert (params.fileSystem.fileId disk.fs path) fp.hash else outputs.writtenFiles) ∧
      outputs'.fileIds = outputs.fileIds ++ [params.fileSystem.fileId disk.fs path] ∧ outputs'.exitStatus =
        if fp.stat.couldAccess && (outputs.writtenFiles.lookup (params.fileSystem.fileId disk.fs path)).isSome
        then .failure else outputs.exitStatus := by
  rw [fingerprintOutput] at h
  split at h
  · cases h
  · next fp id hfp =>
    obtain rfl := fingerprint_fileId hfp
    cases h
    exact ⟨fp, hfp, rfl, rfl, rfl⟩

theorem fingerprintOutput_keeps
    (hid : outputs.writtenFiles.lookup id = some hash) : outputs'.writtenFiles.lookup id = some hash := by
  obtain ⟨fp, -, hwritten, -⟩ := fingerprintOutput_ok h
  rw [hwritten]
  split
  · next hnew =>
    have hne : id ≠ params.fileSystem.fileId disk.fs path := by
      rintro rfl
      simp [hid] at hnew
    rw [Finmap.lookup_insert_of_ne _ hne, hid]
  · exact hid

end

section
variable (h : paths.foldlM (fingerprintOutput params now disk) outputs = .ok outputs')
include h

theorem foldlM_fingerprintOutput_keeps
    (hid : outputs.writtenFiles.lookup id = some hash) : outputs'.writtenFiles.lookup id = some hash :=
  foldlM_invariant (P := fun outputs : OutputFiles => outputs.writtenFiles.lookup id = some hash)
    (fun _ _ _ _ hid hround => fingerprintOutput_keeps hround hid) hid h

/-- The hash of a file that is reported under a new identity becomes known. -/
theorem foldlM_fingerprintOutput_reports (hpath : path ∈ paths)
    (halone : ∀ q ∈ paths, params.fileSystem.fileId disk.fs q = params.fileSystem.fileId disk.fs path → q = path)
    (hnew : outputs.writtenFiles.lookup (params.fileSystem.fileId disk.fs path) = none) :
    ∃ fp, disk.log.fingerprint params.fileSystem disk.fs now path = .ok (fp, params.fileSystem.fileId disk.fs path) ∧
      (fp.stat.couldAccess = true →
        outputs'.writtenFiles.lookup (params.fileSystem.fileId disk.fs path) = some fp.hash) := by
  induction paths generalizing outputs with
  | nil => nomatch hpath
  | cons q paths ih =>
    rw [foldlM_cons] at h
    obtain ⟨outputs₁, hround, h⟩ := bind_eq_ok.mp h
    obtain ⟨fp, hfp, hwritten, -⟩ := fingerprintOutput_ok hround
    by_cases hq : q = path
    · subst hq
      refine ⟨fp, hfp, fun haccess => foldlM_fingerprintOutput_keeps h ?_⟩
      rw [hwritten, hnew, haccess]
      exact Finmap.lookup_insert _
    · have hne : params.fileSystem.fileId disk.fs path ≠ params.fileSystem.fileId disk.fs q := fun hid =>
        hq (halone q mem_cons_self hid.symm)
      refine ih h ((mem_cons.mp hpath).resolve_left (Ne.symm hq))
        (fun q' hq' => halone q' (mem_cons_of_mem q hq')) ?_
      rw [hwritten]
      split
      · rw [Finmap.lookup_insert_of_ne _ hne, hnew]
      · exact hnew

end

section
variable (params) (writer : Path → Option (Fin n)) (fs₀ : σ)

/-- The command reports a file that it leaves behind, truthfully and under an identity that no
other file had. -/
structure World.Reports (w : World σ n) (s : Fin n) (result : CommandResult) (path : Path) (disk : Disk σ) : Prop where
  found : (params.fileSystem.lstat disk.fs path).result = 0
  reported : path ∈ result.outputFiles
  alone : ∀ q ∈ result.outputFiles,
    params.fileSystem.fileId disk.fs q = params.fileSystem.fileId disk.fs path → q = path
  fresh : w.build.writtenFiles.lookup (params.fileSystem.fileId disk.fs path) = none
  truthful : ∀ taken, disk.log.fingerprint params.fileSystem disk.fs w.clock path = .ok taken →
    Fits params.fileSystem disk.fs (path, taken.1)

/-- As long as a clean step is not reached, each of its inputs is changed by only one step, which
it depends on, and which reports the file if it leaves it in another state than at the start. -/
def World.ReportsChangedInputs (w : World σ n) (event : Event σ n) : Prop :=
  ∀ i, params.CleanByEntry i → w.Unreached i → ∀ file ∈ params.inputs i,
    (w.Changes params event file.1 → ∃ s, w.actor event = some s ∧ writer file.1 = some s ∧
      Build.DependsOn params.manifest params.invocations i s) ∧
    ∀ s result disk, event = .commandDone s result → writer file.1 = some s →
      deleteCommandFiles params w.clock w.disk (params.manifest.steps s) result.exitStatus = (disk, none) →
      params.fileSystem.view disk.fs file.1 ≠ params.fileSystem.view fs₀ file.1 →
      w.Reports params s result file.1 disk

/-- The inputs of clean steps that are not reached are as they were, or are being written, or have
a known hash. -/
def Observed.InputsTracked (o : Observed σ n) : Prop :=
  ∀ i, params.CleanByEntry i → i ∉ o.done → i ∉ o.started → ∀ file ∈ params.inputs i,
    params.fileSystem.view o.disk.fs file.1 = params.fileSystem.view fs₀ file.1 ∨
    ∃ s, writer file.1 = some s ∧ Build.DependsOn params.manifest params.invocations i s ∧
      (s ∈ o.running ∨ HashKnown params.fileSystem o.disk.fs o.writtenFiles file.1)

end

variable {writer : Path → Option (Fin n)} {fs₀ : σ} {w w' : World σ n}

theorem Fingerprinted.hashKnown {s : Fin n} (h : Fingerprinted params w s result disk outputs inputs)
    (hreports : w.Reports params s result path disk) :
    HashKnown params.fileSystem disk.fs outputs.writtenFiles path := by
  obtain ⟨fp, hfp, hlookup⟩ := foldlM_fingerprintOutput_reports h.outputs hreports.reported
    hreports.alone hreports.fresh
  have hfits := hreports.truthful _ hfp
  refine ⟨fp.hash, hlookup ?_, ?_⟩
  · rw [FingerprintStat.couldAccess, ← hfits.mode, FileView.fpStat_of_found hreports.found]
    exact decide_eq_true (trackedMode_ne_zero _)
  · rw [hfits.size, hfits.mode]
    exact hfits.hash

/-- A command that finishes leaves an input of a step as it was at the start, or known. -/
theorem Fingerprinted.tracks {s i : Fin n} (h : Fingerprinted params w s result disk outputs inputs)
    (hold : params.fileSystem.view w.disk.fs path = params.fileSystem.view fs₀ path ∨ ∃ s', writer path = some s' ∧
      Build.DependsOn params.manifest params.invocations i s' ∧
      (s' ∈ w.running ∨ HashKnown params.fileSystem w.disk.fs w.build.writtenFiles path))
    (hchange : params.fileSystem.view disk.fs path ≠ params.fileSystem.view w.disk.fs path → writer path = some s ∧
      Build.DependsOn params.manifest params.invocations i s)
    (hreports : writer path = some s → params.fileSystem.view disk.fs path ≠ params.fileSystem.view fs₀ path →
      w.Reports params s result path disk) :
    params.fileSystem.view disk.fs path = params.fileSystem.view fs₀ path ∨
      ∃ s', writer path = some s' ∧ Build.DependsOn params.manifest params.invocations i s' ∧
        (s' ∈ w.running.erase s ∨ HashKnown params.fileSystem disk.fs outputs.writtenFiles path) := by
  by_cases hstart : params.fileSystem.view disk.fs path = params.fileSystem.view fs₀ path
  · exact .inl hstart
  · refine .inr ?_
    by_cases hwriter : writer path = some s
    · have hdepends : Build.DependsOn params.manifest params.invocations i s := by
        by_cases hsame : params.fileSystem.view disk.fs path = params.fileSystem.view w.disk.fs path
        · obtain ⟨s', hs', hdepends, -⟩ := hold.resolve_left fun h => hstart (hsame.trans h)
          exact some.inj (hs'.symm.trans hwriter) ▸ hdepends
        · exact (hchange hsame).2
      exact ⟨s, hwriter, hdepends, .inr (h.hashKnown (hreports hwriter hstart))⟩
    · have hsame : params.fileSystem.view disk.fs path = params.fileSystem.view w.disk.fs path :=
        not_not.mp fun hne => hwriter (hchange hne).1
      obtain ⟨s', hs', hdepends, hcase⟩ := hold.resolve_left fun h => hstart (hsame.trans h)
      have hne : s' ≠ s := fun heq => hwriter (heq ▸ hs')
      refine ⟨s', hs', hdepends, hcase.imp (mem_erase_of_ne hne).mpr fun hknown => ?_⟩
      exact hknown.mono hsame fun _ _ hid => foldlM_fingerprintOutput_keeps h.outputs hid

theorem Observed.InputsTracked.next (h : w.observed.InputsTracked params writer fs₀) {event : Event σ n}
    (hevent : w.ReportsChangedInputs params writer fs₀ event) (hnext : w.next params event = some w')
    (htransition : Transition params w event w'.observed) : w'.observed.InputsTracked params writer fs₀ := by
  intro i hclean hdone hstarted file hfile
  obtain ⟨hgrowsDone, hgrowsStarted⟩ := htransition.grows
  have hunreached : w.Unreached i := ⟨fun h => hdone (hgrowsDone h), fun h => hstarted (hgrowsStarted h)⟩
  obtain ⟨hchange, hreports⟩ := hevent i hclean hunreached file hfile
  have hold := h i hclean hunreached.1 hunreached.2 file hfile
  have hchange : params.fileSystem.view w'.observed.disk.fs file.1 ≠
      params.fileSystem.view w.disk.fs file.1 → ∃ s, w.actor event = some s ∧ writer file.1 = some s ∧
        Build.DependsOn params.manifest params.invocations i s := fun hne => hchange ⟨w', hnext, hne⟩
  generalize w'.observed = o at htransition hchange ⊢
  cases htransition with
  | quiet | skip => exact hold
  | effect fs hs =>
    by_cases hsame : params.fileSystem.view fs file.1 = params.fileSystem.view w.disk.fs file.1
    · refine hold.imp hsame.trans fun ⟨s', hs', hdepends, hcase⟩ => ⟨s', hs', hdepends, hcase.imp_right ?_⟩
      exact fun hknown => hknown.mono hsame fun _ _ hid => hid
    · obtain ⟨s', hactor, hs', hdepends⟩ := hchange hsame
      exact .inr ⟨s', hs', hdepends, .inl (some.inj hactor ▸ hs)⟩
  | @start s disk canRunMore hs =>
    by_cases hsame : params.fileSystem.view disk.fs file.1 = params.fileSystem.view w.disk.fs file.1
    · refine hold.imp hsame.trans fun ⟨s', hs', hdepends, hcase⟩ => ⟨s', hs', hdepends, ?_⟩
      exact hcase.imp (mem_append_left _) fun hknown => hknown.mono hsame fun _ _ hid => hid
    · obtain ⟨s', hactor, hs', hdepends⟩ := hchange hsame
      cases hs.symm.trans hactor
      exact .inr ⟨s, hs', hdepends, .inl (mem_append_right _ (mem_singleton_self s))⟩
  | @finish s result disk outputs inputs _ hfiles =>
    simp only [Disk.fs_ite_call] at hchange ⊢
    refine hfiles.tracks hold (fun hne => ?_) fun hs => hreports s result disk rfl hs hfiles.deleted
    obtain ⟨s', hactor, hs', hdepends⟩ := hchange hne
    exact some.inj hactor ▸ ⟨hs', hdepends⟩
  | @fail s result disk outputs inputs hfiles =>
    refine hfiles.tracks hold (fun hne => ?_) fun hs => hreports s result disk rfl hs hfiles.deleted
    obtain ⟨s', hactor, hs', hdepends⟩ := hchange hne
    exact some.inj hactor ▸ ⟨hs', hdepends⟩

theorem fits_of_inputUnchanged {writtenFiles : Finmap fun _ : FileId => Hash}
    (h : inputUnchanged params writtenFiles s file = true)
    (hknown : HashKnown params.fileSystem s writtenFiles file.1) :
    Fits params.fileSystem s file := by
  obtain ⟨hash, hlookup, hhash⟩ := hknown
  rw [FileSystem.fileId] at hlookup
  simp only [inputUnchanged, hlookup, fingerprintMatchesStat, fingerprintMatchesFpStat,
    Bool.and_eq_true, beq_iff_eq] at h
  obtain ⟨⟨hsize, hmode⟩, hequal⟩ := h
  refine ⟨hsize.symm, hmode.symm, ?_⟩
  rw [hsize, hmode, hequal]
  exact hhash

/-- In every run in which the inputs of clean steps that are not yet reached are changed only by
dependencies that report them. -/
theorem restat_inputs_match {F : FileSystem σ} {manifest : CompiledManifest n} {invocations : Invocations}
    {failuresAllowed : UInt64} {specifiedSteps : List (Fin n)} {checkClock : Fin n → Int64} {clock : Int64}
    {disk : Disk σ} {w₀ : World σ n}
    (hstart : startBuild F manifest invocations failuresAllowed specifiedSteps checkClock clock disk = .ok (params, w₀))
    (writer : Path → Option (Fin n))
    (hreaches : World.Reaches params (World.ReportsChangedInputs params writer w₀.disk.fs) w₀ w) {i : Fin n}
    (hphase : w.phase = .enqueueing) (hready : w.build.readySteps.getLast? = some i)
    (hgenerator : (params.manifest.steps i).generator = false)
    (hflag : (w.build.stepNodes i).noDirectDependenciesBuilt = false)
    (hskip : canSkipBuildCommand params w.disk.fs w.build i = true) :
    ∀ file ∈ params.invocations.inputs (params.manifest.steps i).hash,
      ∃ result, fingerprintMatches params.fileSystem w.disk.fs file.1 file.2 = .ok result ∧ result.clean = true := by
  have hbegun := startBuild_begun hstart
  have hclean : params.cleanSteps i = true := by
    by_contra hdirty
    simp [canSkipBuildCommand, hdirty] at hskip
  have htracked : w.observed.InputsTracked params writer w₀.disk.fs := hreaches.invariant
    (P := fun w => w.observed.InputsTracked params writer w₀.disk.fs) hbegun
    (fun _ _ _ _ _ _ => .inl rfl) (fun _ hevent hnext htransition h => h.next hevent hnext htransition)
    (by simp [hphase])
  have hscheduled := (hbegun.accounted hreaches).holdsNothing (by simp [hphase])
  have hlast := mem_of_getLast? hready
  obtain ⟨-, hdone, hstarted⟩ := hscheduled.fresh_of_ready hlast
  obtain ⟨hentry, hmatches⟩ := (hbegun.clean i hclean).2 hgenerator
  intro file hfile
  rcases htracked i ⟨hclean, hgenerator⟩ hdone hstarted file hfile with
    hsame | ⟨s, -, hdepends, hrunning | hknown⟩
  · exact (hmatches file (mem_append_right _ hfile)).congr hsame
  · -- the step waits for its dependencies, so the one that writes the file is done
    have hs := hscheduled.done_of_dependsOn (hscheduled.mem_entered (by simp [hlast])) hdepends
    exact absurd hrunning (hscheduled.only_done hs).2.1
  · refine (fits_of_inputUnchanged ?_ hknown).matchesNow
    obtain ⟨entry, hentry⟩ := isSome_iff_exists.mp hentry
    simp only [canSkipBuildCommand, hclean, hflag, hentry, Bool.not_true, Bool.false_eq_true, if_false,
      List.all_eq_true] at hskip
    simp only [Invocations.inputs, hentry] at hfile
    exact hskip file hfile

end

instance {σ : Type} (F : FileSystem σ) (s : σ) (file : Path × Fingerprint) : Decidable (Fits F s file) :=
  decidable_of_iff _ ⟨fun h => ⟨h.1, h.2.1, h.2.2⟩, fun h => And.intro h.size (And.intro h.mode h.hash)⟩

instance {σ : Type} {n : Nat} (params : BuildCommandParameters σ n) (w : World σ n) (s : Fin n)
    (result : CommandResult) (path : Path) (disk : Disk σ) : Decidable (w.Reports params s result path disk) :=
  decidable_of_iff _ ⟨fun h => ⟨h.1, h.2.1, h.2.2.1, h.2.2.2.1, h.2.2.2.2⟩,
    fun h => And.intro h.found (And.intro h.reported (And.intro h.alone (And.intro h.fresh h.truthful)))⟩

def middleFile (ino : UInt64) (mtime : Int64) : Path × FlatFile := ([97], { ino, mtime, contents := [5] })

/-- The first step of the chain reads `s` and writes `a`, the second one reads `a` and writes `o`. -/
def usedBuild : Option (World FlatFiles 2) := do
  let (params, w) ← chainBuild
  w.run (fun _ _ => true) params
    [.discard, .discard, .enqueue true, .effect 0 [sourceFile 1 1, middleFile 3 10], .tick 12,
      .enqueue true, .commandDone 0 { inputFiles := [[115]], outputFiles := [[97]] },
      .enqueue true, .enqueue true, .effect 1 [sourceFile 1 1, middleFile 3 10, outputFile], .tick 14,
      .commandDone 1 { inputFiles := [[97]], outputFiles := [[111]] }, .enqueue true, .finish]

def restatBuild : Option (BuildCommandParameters FlatFiles 2 × World FlatFiles 2) := do
  let w ← usedBuild
  openBuild .valueFirst flatFileSystem chain 1 [1] (fun _ => 20) 20
    [sourceFile 15 2, middleFile 3 10, outputFile] (some w.logFile)

/-- The second step has no input but `a`, which only the first step changes and then reports. -/
def onlyMiddleChanges (params : BuildCommandParameters FlatFiles 2) (w : World FlatFiles 2)
    (event : Event FlatFiles 2) (w' : World FlatFiles 2) : Bool :=
  params.cleanSteps 0 == false && decide (0 ∈ params.edges 1) &&
    (params.inputs 1).all (fun file => decide (file.1 = [97] ∧
      (params.fileSystem.view w'.disk.fs file.1 = params.fileSystem.view w.disk.fs file.1 ∨ w.actor event = some 0))) &&
    match event with
    | .commandDone _ result => decide (w.Reports params 0 result [97]
        (deleteCommandFiles params w.clock w.disk (params.manifest.steps 0) result.exitStatus).1)
    | _ => true

theorem reportsChangedInputs_of_check {params : BuildCommandParameters FlatFiles 2}
    {w w' : World FlatFiles 2} {event : Event FlatFiles 2} (fs₀ : FlatFiles)
    (hnext : w.next params event = some w') (h : onlyMiddleChanges params w event w' = true) :
    w.ReportsChangedInputs params (fun path => if path = [97] then some 0 else none) fs₀ event := by
  simp only [onlyMiddleChanges, Bool.and_eq_true, beq_iff_eq, decide_eq_true_eq, List.all_eq_true] at h
  obtain ⟨⟨⟨hdirty, hedge⟩, hinputs⟩, hreports⟩ := h
  intro i hclean _ file hfile
  have hi : i = 1 := by
    have hne : i ≠ 0 := fun heq => nomatch (heq ▸ hclean.1).symm.trans hdirty
    omega
  subst hi
  obtain ⟨hpath, hview⟩ := hinputs file hfile
  refine ⟨fun ⟨w'', hnext', hne⟩ => ?_, fun s result disk hevent hs hdisk _ => ?_⟩
  · cases hnext.symm.trans hnext'
    exact ⟨0, hview.resolve_left hne, if_pos hpath, .single hedge⟩
  · cases (if_pos hpath).symm.trans hs
    simp only [hevent, decide_eq_true_eq, hdisk] at hreports
    exact hpath ▸ hreports

/-- The first step is run again and writes the same `a`, as another file. -/
theorem restat_inputs_match_of_rewritten : ∃ params w₀ w, restatBuild = some (params, w₀) ∧
      World.Reaches params (World.ReportsChangedInputs params
        (fun path => if path = [97] then some 0 else none) w₀.disk.fs) w₀ w ∧ w.build.readySteps.getLast? = some 1 ∧
      (w.build.stepNodes 1).noDirectDependenciesBuilt = false ∧ canSkipBuildCommand params w.disk.fs w.build 1 = true ∧
      ∀ file ∈ params.invocations.inputs (params.manifest.steps 1).hash,
        ∃ result, fingerprintMatches params.fileSystem w.disk.fs file.1 file.2 = .ok result ∧ result.clean = true := by
  have h : ∃ params w₀, restatBuild = some (params, w₀) ∧ ∃ w, w₀.runWhere (onlyMiddleChanges params) params
      [.discard, .discard, .enqueue true, .effect 0 [sourceFile 15 2, middleFile 4 20, outputFile], .tick 22,
        .enqueue true, .commandDone 0 { inputFiles := [[115]], outputFiles := [[97]] }] = some w ∧
      ∃ w', w.next params (.enqueue true) = some w' ∧ w.build.readySteps.getLast? = some 1 ∧
        (params.manifest.steps 1).generator = false ∧
        (w.build.stepNodes 1).noDirectDependenciesBuilt = false ∧
        canSkipBuildCommand params w.disk.fs w.build 1 = true := by
    decide +kernel
  obtain ⟨params, w₀, hstart, w, hrun, w', hnext, hready, hgenerator, hflag, hskip⟩ := h
  have hreaches : World.Reaches params (World.ReportsChangedInputs params
      (fun path => if path = [97] then some 0 else none) w₀.disk.fs) w₀ w :=
    World.reaches_of_run (fun _ _ _ => reportsChangedInputs_of_check w₀.disk.fs) .refl hrun
  have hbuilds := hstart
  rw [restatBuild] at hbuilds
  obtain ⟨w₁, -, hopen⟩ := bind_eq_some_iff.mp hbuilds
  obtain ⟨result, left, -, hbegin⟩ := openBuild_eq_some hopen
  exact ⟨params, w₀, w, hstart, hreaches, hready, hflag, hskip, restat_inputs_match hbegin _ hreaches
    (World.phase_of_next_enqueue hnext) hready hgenerator hflag hskip⟩

/-- The first step is run again, which deletes `a`, and does not write it again. The second step is
skipped although its input is gone. -/
theorem restat_misses_deleted_input : ∃ params w₀ w w', restatBuild = some (params, w₀) ∧
      w₀.run (fun _ _ => true) params
        [.discard, .discard, .enqueue true, .enqueue true, .commandDone 0 { inputFiles := [[115]] }] = some w ∧
      w.build.readySteps.getLast? = some 1 ∧ params.cleanSteps 1 = true ∧ (params.manifest.steps 1).generator = false ∧
      (w.build.stepNodes 1).noDirectDependenciesBuilt = false ∧ canSkipBuildCommand params w.disk.fs w.build 1 = true ∧
      w.next params (.enqueue true) = some w' ∧ w'.history.skipped = [1] ∧
      ∃ file ∈ params.invocations.inputs (params.manifest.steps 1).hash,
        (fingerprintMatches params.fileSystem w.disk.fs file.1 file.2).toOption.map (·.clean) = some false := by
  simp only [exists_and_left]
  decide +kernel

end Shuriken
