import Shuriken.Build.Cycles
import Shuriken.Build.World
import Shuriken.Fs.FileState

/-!
# The start of a build

What is known about the clean steps when the first command is about to be
enqueued: each file that is recorded for a clean step matches its fingerprint.
-/
namespace Shuriken
open Except Function

def Invocations.inputs (invocations : Invocations) (hash : Hash) : List (Path × Fingerprint) :=
  match invocations.entries.lookup hash with
  | none => []
  | some entry => invocations.files entry.inputFiles

def Invocations.outputs (invocations : Invocations) (hash : Hash) : List (Path × Fingerprint) :=
  match invocations.entries.lookup hash with
  | none => []
  | some entry => invocations.files entry.outputFiles

section
variable {σ : Type} {n : Nat}

def MatchesNow (F : FileSystem σ) (s : σ) (file : Path × Fingerprint) : Prop :=
  ∃ result, fingerprintMatches F s file.1 file.2 = .ok result ∧ result.clean = true

theorem MatchesNow.congr {F : FileSystem σ} {s s' : σ} {file : Path × Fingerprint}
    (h : MatchesNow F s file) (hview : F.view s' file.1 = F.view s file.1) : MatchesNow F s' file := by
  obtain ⟨result, hresult, hclean⟩ := h
  refine ⟨result, Eq.trans ?_ hresult, hclean⟩
  rw [fingerprintMatches, fingerprintMatches,
    show F.lstat s' file.1 = F.lstat s file.1 from congrArg FileView.stat hview]
  simp only [fingerprintMatchesCurrent, computeFingerprintHash_congr F hview]

variable {F : FileSystem σ} {s : σ} {invocations : Invocations} {memo : FingerprintMatchesMemo}

theorem computeFingerprintMatchesMemo_spec {fingerprints : List (Path × Fingerprint)} {used : List UInt32}
    (h : computeFingerprintMatchesMemo F s fingerprints used = .ok memo) {index : UInt32}
    {result : MatchesResult} (hmemo : memo index = some result) :
    ∃ file, fileAt fingerprints index = some file ∧ fingerprintMatches F s file.1 file.2 = .ok result := by
  refine foldlM_invariant (P := fun memo : FingerprintMatchesMemo => ∀ index result,
    memo index = some result → ∃ file, fileAt fingerprints index = some file ∧
      fingerprintMatches F s file.1 file.2 = .ok result) (s := fun _ => none) ?_ (fun _ _ h => nomatch h)
    h index result hmemo
  intro memo i memo' _ hmemo hround index result hresult
  split at hround
  · exact hmemo index result (ok.inj hround ▸ hresult)
  · next path fp hfile =>
    split at hround
    · next r hr =>
      cases hround
      by_cases hi : index = i
      · subst hi
        rw [update_self] at hresult
        cases hresult
        exact ⟨(path, fp), hfile, hr⟩
      · rw [update_of_ne hi] at hresult
        exact hmemo index result hresult
    · nomatch hround

theorem processFiles_clean {indices : List UInt32} {state : Bool × Bool} {shouldUpdate : Bool}
    (h : processFiles memo indices state = .ok (true, shouldUpdate)) :
    state.1 = true ∧ ∀ index ∈ indices, ∃ result, memo index = some result ∧ result.clean = true := by
  induction indices generalizing state with
  | nil =>
    cases h
    exact ⟨rfl, nofun⟩
  | cons index indices ih =>
    obtain ⟨clean, update⟩ := state
    rw [processFiles] at h
    split at h
    · next hclean =>
      cases h
      nomatch hclean
    · next hclean =>
      split at h
      · nomatch h
      · next result hresult =>
        obtain ⟨hfirst, hrest⟩ := ih h
        exact ⟨by simpa using hclean, List.forall_mem_cons.mpr ⟨⟨result, hresult, hfirst⟩, hrest⟩⟩

theorem processFiles_of_clean {indices : List UInt32} {state state' : Bool × Bool}
    (h : processFiles memo indices state = .ok state') (hstate : state.1 = true)
    (hclean : ∀ index ∈ indices, ∀ result, memo index = some result → result.clean = true) : state'.1 = true := by
  induction indices generalizing state with
  | nil => exact ok.inj h ▸ hstate
  | cons index indices ih =>
    obtain ⟨hindex, hclean⟩ := List.forall_mem_cons.mp hclean
    simp only [processFiles, hstate, Bool.not_true, Bool.false_eq_true, if_false] at h
    split at h
    · nomatch h
    · next result hresult => exact ih h (hindex result hresult) hclean

def EntryClean (invocations : Invocations) (memo : FingerprintMatchesMemo) (step : Step n) : Prop :=
  ∃ entry, invocations.entries.lookup step.hash = some entry ∧
    ∀ index ∈ entry.outputFiles ++ entry.inputFiles, ∃ result, memo index = some result ∧ result.clean = true

variable {disk : Disk σ} {manifest : CompiledManifest n} {failuresAllowed : UInt64} {specifiedSteps : List (Fin n)}
    {checkClock : Fin n → Int64} {clock : Int64} {params : BuildCommandParameters σ n} {w : World σ n}

variable (F invocations memo) in
/-- What the answer says about a step, when the files are in the state `s`. -/
structure CleanAnswer (s : σ) (step : Step n) (clean : Bool) : Prop where
  entry : step.generator = false → clean = true → EntryClean invocations memo step
  ofEntry : step.generator = false → ∀ entry, invocations.entries.lookup step.hash = some entry →
    (∀ index ∈ entry.outputFiles ++ entry.inputFiles, ∀ result, memo index = some result → result.clean = true) →
      clean = true
  generator : step.generator = true → clean = generatorStepIsClean F s step

theorem isClean_spec {now : Int64} {disk' : Disk σ} {step : Step n} {clean : Bool}
    (h : isClean F invocations now memo disk step = .ok (disk', clean)) :
    disk'.fs = disk.fs ∧ CleanAnswer F invocations memo disk.fs step clean := by
  rw [isClean] at h
  split at h
  · next hgenerator =>
    cases h
    refine ⟨rfl, ⟨fun hnot => ?_, fun hnot => ?_, fun _ => rfl⟩⟩ <;> simp [hgenerator] at hnot
  · next hgenerator =>
    rw [nonGeneratorStepIsClean] at h
    split at h
    · next hentry =>
      cases h
      refine ⟨rfl, ⟨fun _ hclean => ?_, fun _ entry hsome => ?_, fun hnot => absurd hnot hgenerator⟩⟩
      · simp at hclean
      · simp [hentry] at hsome
    · next entry hentry =>
      obtain ⟨outputState, houtputs, h⟩ := bind_eq_ok.mp h
      obtain ⟨⟨clean', update⟩, hinputs, h⟩ := bind_eq_ok.mp h
      have hanswer : CleanAnswer F invocations memo disk.fs step clean' := by
        refine ⟨?_, fun _ entry' hsome hfiles => ?_, fun hnot => absurd hnot hgenerator⟩
        · rintro - rfl
          obtain ⟨outputsClean, outputsUpdate⟩ := outputState
          obtain ⟨rfl, hinputsClean⟩ := processFiles_clean hinputs
          obtain ⟨-, houtputsClean⟩ := processFiles_clean houtputs
          exact ⟨entry, hentry, List.forall_mem_append.mpr ⟨houtputsClean, hinputsClean⟩⟩
        · cases hentry.symm.trans hsome
          obtain ⟨hcleanOutputs, hcleanInputs⟩ := List.forall_mem_append.mp hfiles
          exact processFiles_of_clean hinputs (processFiles_of_clean houtputs rfl hcleanOutputs) hcleanInputs
      simp only at h
      split at h
      · obtain ⟨command, -, h⟩ := bind_eq_ok.mp h
        cases h
        exact ⟨rfl, hanswer⟩
      · cases h
        exact ⟨rfl, hanswer⟩

/-- Each answer is that of the round of its step. -/
theorem foldlM_computeCleanStep {clock : Fin n → Int64} {build : Build n} {steps : List (Fin n)} (hsteps : steps.Nodup)
    {state state' : Disk σ × (Fin n → Bool)}
    (h : steps.foldlM (computeCleanStep F invocations clock manifest build memo) state = .ok state') :
    state'.1.fs = state.1.fs ∧ ∀ i, if i ∈ steps ∧ (build.stepNodes i).shouldBuild = true then
        CleanAnswer F invocations memo state.1.fs (manifest.steps i) (state'.2 i)
      else state'.2 i = state.2 i := by
  induction steps generalizing state with
  | nil =>
    cases h
    exact ⟨rfl, by simp⟩
  | cons j steps ih =>
    obtain ⟨hj, hsteps⟩ := List.nodup_cons.mp hsteps
    rw [List.foldlM_cons] at h
    obtain ⟨state₁, hround, h⟩ := bind_eq_ok.mp h
    obtain ⟨hfs, hrest⟩ := ih hsteps h
    have hkept := hrest j
    rw [if_neg (by simp [hj])] at hkept
    rw [computeCleanStep] at hround
    split at hround
    · next hbuild =>
      obtain ⟨⟨disk, clean⟩, hisClean, hround⟩ := bind_eq_ok.mp hround
      cases hround
      obtain ⟨hfs₁, hanswer⟩ := isClean_spec hisClean
      refine ⟨hfs.trans hfs₁, fun i => ?_⟩
      by_cases hij : i = j
      · subst hij
        rw [if_pos ⟨List.mem_cons_self, hbuild⟩, hkept]
        simpa using hanswer
      · simpa [hij, hfs₁] using hrest i
    · next hbuild =>
      cases hround
      refine ⟨hfs, fun i => ?_⟩
      by_cases hij : i = j
      · subst hij
        rw [if_neg (by simp [hbuild]), hkept]
      · simpa [hij] using hrest i

theorem computeCleanSteps_spec {clock : Fin n → Int64} {build : Build n} {disk' : Disk σ} {clean : Fin n → Bool}
    (h : computeCleanSteps F invocations clock manifest build memo disk = .ok (disk', clean)) :
    disk'.fs = disk.fs ∧ ∀ i, if (build.stepNodes i).shouldBuild = true then
        CleanAnswer F invocations memo disk.fs (manifest.steps i) (clean i)
      else clean i = false := by
  obtain ⟨hfs, hclean⟩ := foldlM_computeCleanStep (List.nodup_finRange n) h
  exact ⟨hfs, fun i => by simpa using hclean i⟩

/-- The state in which the steps of a build are going to be discarded or run. -/
structure Begun (disk : Disk σ) (params : BuildCommandParameters σ n) (w : World σ n) : Prop where
  initial : w = World.initial w.disk w.clock w.build
  constructed : ∃ stepsToBuild, Build.Constructed params.manifest params.invocations stepsToBuild w.build
  remaining : w.build.remainingFailures = params.failuresAllowed.toUInt32.toInt32
  fs : w.disk.fs = disk.fs
  clean : ∀ i, params.cleanSteps i = true → (w.build.stepNodes i).shouldBuild = true ∧
    ((params.manifest.steps i).generator = false →
      (params.invocations.entries.lookup (params.manifest.steps i).hash).isSome = true ∧
      ∀ file ∈ params.invocations.outputs (params.manifest.steps i).hash ++
        params.invocations.inputs (params.manifest.steps i).hash,
        MatchesNow params.fileSystem w.disk.fs file)

section
variable (h : startBuild F manifest invocations failuresAllowed specifiedSteps checkClock clock disk = .ok (params, w))
include h

theorem startBuild_params : params.fileSystem = F ∧ params.manifest = manifest ∧ params.invocations = invocations ∧
      params.failuresAllowed = failuresAllowed := by
  obtain ⟨stepsToBuild, -, h⟩ := bind_eq_ok.mp h
  obtain ⟨build, -, h⟩ := bind_eq_ok.mp h
  obtain ⟨memo, -, h⟩ := bind_eq_ok.mp h
  obtain ⟨⟨disk', cleanSteps⟩, -, h⟩ := bind_eq_ok.mp h
  cases h
  exact ⟨rfl, rfl, rfl, rfl⟩

theorem startBuild_answers : w.disk.fs = disk.fs ∧
    (∀ index result, params.fingerprintMatchesMemo index = some result →
      ∃ file, fileAt invocations.fingerprints index = some file ∧
        fingerprintMatches F disk.fs file.1 file.2 = .ok result) ∧
    ∀ i, if (w.build.stepNodes i).shouldBuild = true then
        CleanAnswer F invocations params.fingerprintMatchesMemo disk.fs (manifest.steps i) (params.cleanSteps i)
      else params.cleanSteps i = false := by
  obtain ⟨stepsToBuild, -, h⟩ := bind_eq_ok.mp h
  obtain ⟨build, -, h⟩ := bind_eq_ok.mp h
  obtain ⟨memo, hmemo, h⟩ := bind_eq_ok.mp h
  obtain ⟨⟨disk', cleanSteps⟩, hclean, h⟩ := bind_eq_ok.mp h
  cases h
  obtain ⟨hfs, hclean⟩ := computeCleanSteps_spec hclean
  exact ⟨hfs, fun index result => computeFingerprintMatchesMemo_spec hmemo, hclean⟩

theorem startBuild_answer {i : Fin n} (hclean : params.cleanSteps i = true) : (w.build.stepNodes i).shouldBuild = true ∧
    CleanAnswer F invocations params.fingerprintMatchesMemo disk.fs (manifest.steps i) true := by
  have hanswer := (startBuild_answers h).2.2 i
  rw [hclean] at hanswer
  split at hanswer
  · next hbuild => exact ⟨hbuild, hanswer⟩
  · simp at hanswer

theorem startBuild_constructed : ∃ stepsToBuild, computeStepsToBuild manifest specifiedSteps = .ok stepsToBuild ∧
    Build.Constructed manifest invocations stepsToBuild w.build ∧
    w.build.remainingFailures = failuresAllowed.toUInt32.toInt32 ∧ w = World.initial w.disk w.clock w.build := by
  obtain ⟨stepsToBuild, hsteps, h⟩ := bind_eq_ok.mp h
  obtain ⟨build, hconstruct, h⟩ := bind_eq_ok.mp h
  obtain ⟨memo, -, h⟩ := bind_eq_ok.mp h
  obtain ⟨⟨disk', cleanSteps⟩, -, h⟩ := bind_eq_ok.mp h
  cases h
  obtain ⟨hbuild, hremaining⟩ := Build.construct_spec hconstruct
  exact ⟨stepsToBuild, hsteps, hbuild, hremaining, rfl⟩

theorem startBuild_grounded {i : Fin n} (hi : (w.build.stepNodes i).shouldBuild = true) :
    Search.Grounded (Build.Edge params.manifest params.invocations) i := by
  obtain ⟨stepsToBuild, -, h⟩ := bind_eq_ok.mp h
  obtain ⟨build, hconstruct, h⟩ := bind_eq_ok.mp h
  obtain ⟨memo, -, h⟩ := bind_eq_ok.mp h
  obtain ⟨⟨disk', cleanSteps⟩, -, h⟩ := bind_eq_ok.mp h
  cases h
  exact Build.construct_grounded hconstruct hi

theorem startBuild_begun : Begun disk params w := by
  obtain ⟨rfl, rfl, rfl, rfl⟩ := startBuild_params h
  obtain ⟨stepsToBuild, -, hbuild, hremaining, hinitial⟩ := startBuild_constructed h
  obtain ⟨hfs, hmemo, -⟩ := startBuild_answers h
  refine ⟨hinitial, ⟨stepsToBuild, hbuild⟩, hremaining, hfs, fun i hi =>
    ⟨(startBuild_answer h hi).1, fun hgenerator => ?_⟩⟩
  obtain ⟨entry, hentry, hfiles⟩ := (startBuild_answer h hi).2.entry hgenerator rfl
  have hmatches : ∀ indices, (∀ index ∈ indices, ∃ r, params.fingerprintMatchesMemo index = some r ∧ r.clean = true) →
      ∀ file ∈ params.invocations.files indices, MatchesNow params.fileSystem w.disk.fs file := by
    intro indices hindices file hfile
    obtain ⟨index, hindex, hat⟩ := List.mem_filterMap.mp hfile
    obtain ⟨r, hr, hclean⟩ := hindices index hindex
    obtain ⟨file', hat', hr⟩ := hmemo index r hr
    cases hat.symm.trans hat'
    exact ⟨r, hfs ▸ hr, hclean⟩
  have hparts := List.forall_mem_append.mp hfiles
  simp only [Invocations.outputs, Invocations.inputs, hentry]
  exact ⟨rfl, List.forall_mem_append.mpr ⟨hmatches _ hparts.1, hmatches _ hparts.2⟩⟩

theorem startBuild_generatorClean
    {i : Fin n} (hclean : params.cleanSteps i = true) (hgenerator : (params.manifest.steps i).generator = true) :
    generatorStepIsClean params.fileSystem w.disk.fs (params.manifest.steps i) = true := by
  obtain ⟨rfl, rfl, rfl, -⟩ := startBuild_params h
  rw [(startBuild_answers h).1]
  exact ((startBuild_answer h hclean).2.generator hgenerator).symm

end

end
end Shuriken
