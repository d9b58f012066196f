import Shuriken.Build.Memo
import Shuriken.Build.Settled

/-!
# Starting a build that is up to date

If the files of the steps are as recorded, and each step comes after those that
it is linked to, then a build starts and finds that none of its steps has to be
run.
-/
namespace Shuriken
open Option List Except

section
variable {σ : Type} {n : Nat} {F : FileSystem σ} {s : σ}

def FileSystem.Readable (F : FileSystem σ) (s : σ) : Prop :=
  ∀ path, (F.view s path).stat.result = 0 → (F.view s path).readError = none

section
variable (h : F.Readable s)
include h

theorem computeFingerprintHash_succeeds (size : UInt64) (path : Path) :
    ∃ hash, computeFingerprintHash F s size (F.view s path).fpStat.mode path = .ok hash := by
  by_cases hfound : (F.view s path).stat.result = 0
  · exact ⟨_, computeFingerprintHash_of_readable F _ _ (h path hfound)⟩
  · rw [FileView.fpStat_mode_eq_zero.mpr hfound]
    exact ⟨_, rfl⟩

theorem fingerprintMatchesCurrent_succeeds (path : Path) (fp : Fingerprint) (hash : Hash) :
    ∃ result, fingerprintMatchesCurrent F s path fp (F.lstat s path) hash = .ok result := by
  rw [fingerprintMatchesCurrent]
  split
  · exact ⟨_, rfl⟩
  · split
    · next hsame =>
      obtain ⟨hash', hhash⟩ := computeFingerprintHash_succeeds h fp.stat.size path
      rw [show (F.view s path).fpStat.mode = fp.stat.mode from hsame.2] at hhash
      rw [hhash]
      exact ⟨_, rfl⟩
    · exact ⟨_, rfl⟩

theorem fingerprintMatches_succeeds (path : Path) (fp : Fingerprint) :
    ∃ result, fingerprintMatches F s path fp = .ok result := by
  obtain ⟨⟨result, hash⟩, hresult⟩ := fingerprintMatchesCurrent_succeeds h path fp Hash.zero
  exact ⟨result, by rw [fingerprintMatches, hresult]; rfl⟩

theorem takeFingerprint_succeeds (now : Int64) (path : Path) : ∃ result, takeFingerprint F s now path = .ok result := by
  obtain ⟨hash, hhash⟩ := computeFingerprintHash_succeeds h (F.view s path).fpStat.size path
  rw [takeFingerprint]
  exact ⟨_, bind_eq_ok.mpr ⟨hash, hhash, rfl⟩⟩

theorem fingerprint_succeeds (now : Int64) (log : InvocationLog) (path : Path) :
    ∃ result, log.fingerprint F s now path = .ok result := by
  rw [InvocationLog.fingerprint, PersistentInvocationLog.fingerprint]
  split
  · exact takeFingerprint_succeeds h now path
  · next old _ =>
    obtain ⟨⟨result, hash⟩, hresult⟩ := fingerprintMatchesCurrent_succeeds h path old.fingerprint old.fingerprint.hash
    rw [retakeFingerprint, hresult]
    simp only [bind, Except.bind]
    split
    · exact ⟨_, rfl⟩
    · exact takeFingerprint_succeeds h now path

end

variable {disk : Disk σ}

theorem fingerprintFiles_succeeds (h : F.Readable disk.fs) (now : Int64) (paths : List Path) :
    ∃ files, fingerprintFiles F now disk paths = .ok files := by
  refine mapM_succeeds_iff.mpr fun path _ => ?_
  obtain ⟨⟨fp, id⟩, hfp⟩ := fingerprint_succeeds h now disk.log path
  exact ⟨(path, fp), by rw [hfp]⟩

variable {invocations : Invocations} {memo : FingerprintMatchesMemo}

theorem CleanAnswer.clean_of_entryClean {step : Step n} {clean : Bool} (h : CleanAnswer F invocations memo s step clean)
    (hgenerator : step.generator = false) (hentry : EntryClean invocations memo step) : clean = true := by
  obtain ⟨entry, hentry, hfiles⟩ := hentry
  refine h.ofEntry hgenerator entry hentry fun idx hidx result hresult => ?_
  obtain ⟨result', hresult', hclean⟩ := hfiles idx hidx
  exact some.inj (hresult'.symm.trans hresult) ▸ hclean

theorem computeCleanSteps_succeeds (disk : Disk σ) (hreadable : F.Readable disk.fs) (clock : Fin n → Int64)
    {manifest : CompiledManifest n} {build : Build n}
    (hcovered : ∀ i, (build.stepNodes i).shouldBuild = true → Covered invocations memo (manifest.steps i)) :
    ∃ result, computeCleanSteps F invocations clock manifest build memo disk = .ok result := by
  have hround : ∀ (done : List (Fin n)) (state : Disk σ × (Fin n → Bool)), ∀ i ∈ finRange n, state.1.fs = disk.fs →
      ∃ state', computeCleanStep F invocations clock manifest build memo state i = .ok state' ∧
        state'.1.fs = disk.fs := by
    rintro done state i - hfs
    rw [computeCleanStep]
    split
    · next hi =>
      cases hisClean : isClean F invocations (clock i) memo state.1 (manifest.steps i) with
      | error failure =>
        obtain ⟨paths, herror⟩ := isClean_error (hcovered i hi) hisClean
        obtain ⟨files, hfiles⟩ := fingerprintFiles_succeeds (hfs ▸ hreadable) (clock i) paths
        cases hfiles.symm.trans herror
      | ok result => exact ⟨_, rfl, (isClean_spec hisClean).1.trans hfs⟩
    · exact ⟨state, rfl, hfs⟩
  obtain ⟨result, hloop, -⟩ := @foldlM_succeeds _ _ _ (disk, fun _ => false) _ _
    (fun _ state => state.1.fs = disk.fs) [] hround rfl
  exact ⟨result, hloop⟩

theorem computeFingerprintMatchesMemo_succeeds (hreadable : F.Readable s) (fingerprints : List (Path × Fingerprint))
    (used : List UInt32) : ∃ memo, computeFingerprintMatchesMemo F s fingerprints used = .ok memo :=
  ⟨_, computeFingerprintMatchesMemo_eq_ok.mpr
    ⟨fun _ _ file _ => fingerprintMatches_succeeds hreadable file.1 file.2, rfl⟩⟩

variable (F s) in
/-- A log and files with which the given steps do not have to be run. -/
structure Invocations.Settles (manifest : CompiledManifest n) (invocations : Invocations)
    (outputFiles : Finmap fun _ : FileId => Fin n) (done : List (Fin n)) : Prop where
  range : invocations.InRange
  recorded : ∀ i ∈ done, (manifest.steps i).phony = false →
    ∃ c, invocations.logged (manifest.steps i).hash = some c ∧ Recorded F s outputFiles i c
  ordered : Search.Ordered (fun i j => j ∈ Build.links manifest invocations.logged i) done

section
variable {manifest : CompiledManifest n} {outputFiles : Finmap fun _ : FileId => Fin n} {done : List (Fin n)}

theorem Invocations.logged_eq_some {hash : Hash} {c : LoggedCommand} (h : invocations.logged hash = some c) :
    (invocations.entries.lookup hash).isSome = true ∧ c.outputs = invocations.outputs hash ∧
      c.inputs = invocations.inputs hash := by
  rw [Invocations.logged] at h
  rw [Invocations.outputs, Invocations.inputs]
  cases hentry : invocations.entries.lookup hash with
  | none =>
    rw [hentry] at h
    cases h
  | some entry =>
    rw [hentry] at h
    cases h
    exact ⟨rfl, rfl, rfl⟩

variable {stepsToBuild : List (Fin n)}

theorem Invocations.Settles.construct (h : invocations.Settles F s manifest outputFiles done) (failuresAllowed : UInt64)
    (hroots : ∀ r ∈ stepsToBuild, r ∈ done) :
    ∃ build, Build.construct manifest invocations failuresAllowed stepsToBuild = .ok build ∧
      ∀ i, (build.stepNodes i).shouldBuild = true → i ∈ done := by
  have hordered : Search.Ordered (Build.Edge manifest invocations) done := h.ordered.mono fun i _ j hij => by
    rw [← Build.edges_eq_links]
    exact hij
  obtain ⟨build, hbuild⟩ := Build.construct_succeeds_of_grounded failuresAllowed
    fun r hr => hordered.grounded (hroots r hr)
  refine ⟨build, hbuild, fun i hi => ?_⟩
  obtain ⟨r, hr, hpath⟩ := (Build.construct_spec hbuild).1.reachable i hi
  exact hordered.mem_of_reflTransGen (hroots r hr) hpath

theorem Invocations.Settles.entryClean (h : invocations.Settles F s manifest outputFiles done) {build : Build n}
    (hmemo : computeFingerprintMatchesMemo F s invocations.fingerprints
      (invocations.fingerprintsFor (build.entries manifest invocations)) = .ok memo) {i : Fin n}
    (hi : (build.stepNodes i).shouldBuild = true) (hdone : i ∈ done)
    (hphony : (manifest.steps i).phony = false) : EntryClean invocations memo (manifest.steps i) := by
  obtain ⟨c, hc, hrecorded⟩ := h.recorded i hdone hphony
  obtain ⟨hentry, houtputs, hinputs⟩ := Invocations.logged_eq_some hc
  obtain ⟨entry, hentry⟩ := isSome_iff_exists.mp hentry
  refine ⟨entry, hentry, fun idx hidx => ?_⟩
  obtain ⟨result, hresult⟩ := covered_of_memo h.range hmemo hi entry hentry idx hidx
  obtain ⟨file, hfile, hmatches⟩ := (memo_eq_some h.range hmemo idx).2 result hresult
  have hmem : file ∈ c.outputs ++ c.inputs := by
    rw [houtputs, hinputs, Invocations.outputs, Invocations.inputs, hentry]
    simp only [Invocations.files, ← filterMap_append]
    exact mem_filterMap.mpr ⟨idx, hidx, hfile⟩
  obtain ⟨result', hresult', hclean⟩ := hrecorded.matching file hmem
  exact ⟨result, hresult, ok.inj (hresult'.symm.trans hmatches) ▸ hclean⟩

theorem Invocations.Settles.outputIds {params : BuildCommandParameters σ n} (w₀ : World σ n)
    (h : params.invocations.Settles params.fileSystem w₀.disk.fs params.manifest outputFiles done) {i : Fin n}
    (hi : i ∈ done) : ((w₀.outputIds params i).filter fun id => !id.missing).Nodup ∧
      ∀ id ∈ w₀.outputIds params i, id.missing = false → outputFiles.lookup id = some i := by
  rw [World.outputIds, BuildCommandParameters.recordedOutputs]
  split
  · exact ⟨nodup_nil, by simp⟩
  · next hkind =>
    obtain ⟨hphony, -⟩ := Bool.or_eq_false_iff.mp (Bool.eq_false_iff.mpr hkind)
    obtain ⟨c, hc, hrecorded⟩ := h.recorded i hi hphony
    obtain ⟨-, houtputs, -⟩ := Invocations.logged_eq_some hc
    rw [← houtputs, List.map_map]
    refine ⟨hrecorded.once, fun id hid hmissing => ?_⟩
    obtain ⟨file, hfile, rfl⟩ := mem_map.mp hid
    exact hrecorded.attributed file hfile hmissing

/-- A build of steps that do not have to be run starts, and finds that out. -/
theorem Invocations.Settles.startBuild (h : invocations.Settles F s manifest outputFiles done)
    (hreadable : F.Readable s) (hgenerator : ∀ i, (manifest.steps i).generator = false) {specifiedSteps : List (Fin n)}
    (hsteps : computeStepsToBuild manifest specifiedSteps = .ok stepsToBuild) (hroots : ∀ r ∈ stepsToBuild, r ∈ done)
    (failuresAllowed : UInt64) (checkClock : Fin n → Int64) (clock : Int64) (log : InvocationLog) :
    ∃ params w₀, Shuriken.startBuild F manifest invocations failuresAllowed specifiedSteps checkClock clock
        { fs := s, log } = .ok (params, w₀) ∧ w₀.UpToDate params := by
  obtain ⟨build, hbuild, hdone⟩ := h.construct failuresAllowed hroots
  obtain ⟨memo, hmemo⟩ := computeFingerprintMatchesMemo_succeeds hreadable invocations.fingerprints
    (invocations.fingerprintsFor (build.entries manifest invocations))
  have hcovered : ∀ i, (build.stepNodes i).shouldBuild = true → Covered invocations memo (manifest.steps i) :=
    fun i hi => covered_of_memo h.range hmemo hi
  obtain ⟨⟨disk, clean⟩, hcleanSteps⟩ := computeCleanSteps_succeeds { fs := s, log } hreadable checkClock hcovered
  have hstart : Shuriken.startBuild F manifest invocations failuresAllowed specifiedSteps checkClock clock
      { fs := s, log } = .ok (⟨F, manifest, invocations, clean, memo, failuresAllowed⟩,
        World.initial disk clock build) := by
    rw [Shuriken.startBuild, hsteps]
    refine bind_eq_ok.mpr ⟨_, rfl, bind_eq_ok.mpr ⟨_, hbuild, bind_eq_ok.mpr ⟨_, hmemo,
      bind_eq_ok.mpr ⟨_, hcleanSteps, rfl⟩⟩⟩⟩
  obtain ⟨hfs, hclean⟩ := computeCleanSteps_spec hcleanSteps
  obtain rfl : disk.fs = s := hfs
  have hphony : ∀ i, (build.stepNodes i).shouldBuild = true → (manifest.steps i).phony = true ∨
      EntryClean invocations memo (manifest.steps i) := by
    intro i hi
    cases hphony : (manifest.steps i).phony with
    | true => exact .inl rfl
    | false => exact .inr (h.entryClean hmemo hi (hdone i hi) hphony)
  refine ⟨_, _, hstart, ⟨fun i hi => ?_, fun i hi => ?_, fun i hi => ?_, fun i j hi hj id hid hid' hmissing => ?_⟩⟩
  · rw [Bool.or_eq_true_iff]
    have hanswer := (if_pos (c := (build.stepNodes i).shouldBuild = true) hi).mp (hclean i)
    exact (hphony i hi).symm.imp_left (hanswer.clean_of_entryClean (hgenerator i))
  · cases hids : outputFileIdsForBuildStep invocations memo (manifest.steps i) with
    | ok fileIds => exact congrArg ok (outputFileIds_eq hstart hids)
    | error failure =>
      refine absurd hids (outputFileIdsForBuildStep_ne_error ((hphony i hi).imp_right fun hentry => ?_))
      obtain ⟨entry, hentry, -⟩ := hentry
      exact ⟨hcovered i hi, fun _ => by rw [hentry]; rfl⟩
  · exact (h.outputIds (World.initial disk clock build) (hdone i hi)).1
  · have howner := (h.outputIds (World.initial disk clock build) (hdone i hi)).2 id hid hmissing
    have howner' := (h.outputIds (World.initial disk clock build) (hdone j hj)).2 id hid' hmissing
    exact some.inj (howner.symm.trans howner')

end
end
end Shuriken
