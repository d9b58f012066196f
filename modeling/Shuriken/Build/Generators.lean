import Shuriken.Build.Restat

/-!
# Generator steps

Whether a generator step is clean is decided by the times of its declared files and only at the start of the
build.
-/
namespace Shuriken
open Option List

section
variable {σ : Type} {n : Nat}

/-- The declared files of a generator step exist, and no input is newer than an output. -/
def Step.UpToDate (F : FileSystem σ) (s : σ) (step : Step n) : Prop :=
  step.generatorInputs = [] ∨ step.generatorOutputs = [] ∨
    (∀ file ∈ step.generatorInputs ++ step.generatorOutputs, (F.stat s file).result = 0) ∧
      ∀ input ∈ step.generatorInputs, ∀ output ∈ step.generatorOutputs, (F.stat s input).mtime ≤ (F.stat s output).mtime

theorem int64_max_le_iff {a b c : Int64} : max a b ≤ c ↔ a ≤ c ∧ b ≤ c := by
  rw [show max a b = if a ≤ b then b else a from rfl]
  split <;> simp only [Int64.le_iff_toInt_le] at * <;> omega

theorem int64_le_min_iff {a b c : Int64} : c ≤ min a b ↔ c ≤ a ∧ c ≤ b := by
  rw [show min a b = if a ≤ b then a else b from rfl]
  split <;> simp only [Int64.le_iff_toInt_le] at * <;> omega

variable {F : FileSystem σ} {s : σ} {combine : Int64 → Int64 → Int64} {files : List Path} {times : List Int64}
    {step : Step n}

theorem foldMtime_some {first mtime : Int64} : foldMtime F s combine files (some first) = some mtime ↔
      (∀ file ∈ files, (F.stat s file).result = 0) ∧
        (files.map fun file => (F.stat s file).mtime).foldl combine first = mtime := by
  induction files generalizing first with
  | nil => simp [foldMtime]
  | cons file files ih =>
    rw [foldMtime]
    by_cases hfound : (F.stat s file).result = 0
    · simp [hfound, ih]
    · simp [hfound]

theorem foldMtime_none {first : Path} {mtime : Int64} : foldMtime F s combine (first :: files) none = some mtime ↔
      (∀ file ∈ first :: files, (F.stat s file).result = 0) ∧
        (files.map fun file => (F.stat s file).mtime).foldl combine (F.stat s first).mtime = mtime := by
  rw [foldMtime]
  by_cases hfound : (F.stat s first).result = 0
  · simp [hfound, foldMtime_some]
  · simp [hfound]

theorem foldl_max_le_iff {first bound : Int64} :
    times.foldl max first ≤ bound ↔ ∀ time ∈ first :: times, time ≤ bound := by
  induction times generalizing first with
  | nil => simp
  | cons time times ih => simp [ih, int64_max_le_iff, and_assoc]

theorem le_foldl_min_iff {first bound : Int64} :
    bound ≤ times.foldl min first ↔ ∀ time ∈ first :: times, bound ≤ time := by
  induction times generalizing first with
  | nil => simp
  | cons time times ih => simp [ih, int64_le_min_iff, and_assoc]

/-- What `generatorStepIsClean` finds out. -/
theorem generatorStepIsClean_iff : generatorStepIsClean F s step = true ↔ step.UpToDate F s := by
  rw [generatorStepIsClean, Step.UpToDate]
  cases hinputs : step.generatorInputs with
  | nil => simp
  | cons input inputs =>
    cases houtputs : step.generatorOutputs with
    | nil => simp
    | cons output outputs =>
      simp only [isEmpty_cons, Bool.or_self, Bool.false_eq_true, if_false, reduceCtorEq, false_or,
        forall_mem_append]
      constructor
      · intro h
        split at h
        · next newest oldest hnewest holdest =>
          obtain ⟨hfoundin, rfl⟩ := foldMtime_none.mp hnewest
          obtain ⟨hfoundout, rfl⟩ := foldMtime_none.mp holdest
          have hle := foldl_max_le_iff.mp (of_decide_eq_true h)
          refine ⟨⟨hfoundin, hfoundout⟩, fun file hfile file' hfile' => ?_⟩
          have hmem {file files} (h : file ∈ files) := mem_map_of_mem (f := fun file => (F.stat s file).mtime) h
          exact le_foldl_min_iff.mp (hle _ (hmem hfile)) _ (hmem hfile')
        · nomatch h
      · rintro ⟨⟨hfoundin, hfoundout⟩, hle⟩
        rw [foldMtime_none.mpr ⟨hfoundin, rfl⟩, foldMtime_none.mpr ⟨hfoundout, rfl⟩]
        refine decide_eq_true (foldl_max_le_iff.mpr fun time htime => le_foldl_min_iff.mpr fun time' htime' => ?_)
        rw [← map_cons (f := fun file => (F.stat s file).mtime)] at htime htime'
        obtain ⟨file, hfile, rfl⟩ := mem_map.mp htime
        obtain ⟨file', hfile', rfl⟩ := mem_map.mp htime'
        exact hle file hfile file' hfile'

theorem Step.UpToDate.congr {s' : σ} (h : step.UpToDate F s)
    (hsame : ∀ file ∈ step.generatorInputs ++ step.generatorOutputs, F.stat s' file = F.stat s file) :
    step.UpToDate F s' := by
  refine h.imp_right fun h => h.imp_right fun ⟨hfound, hle⟩ => ⟨fun file hfile => ?_, ?_⟩
  · rw [hsame file hfile]
    exact hfound file hfile
  · intro input hinput output houtput
    rw [hsame input (mem_append_left _ hinput), hsame output (mem_append_right _ houtput)]
    exact hle input hinput output houtput

section
variable (params : BuildCommandParameters σ n)

def BuildCommandParameters.declaredFiles (i : Fin n) : List Path :=
  (params.manifest.steps i).generatorInputs ++ (params.manifest.steps i).generatorOutputs

/-- As long as a clean generator step is not reached, its declared files change only if the step has
no log entry, and then only for a step that it depends on directly. -/
def World.ChangesGeneratorsWithoutEntry (w : World σ n) (event : Event σ n) : Prop :=
  ∀ i, params.cleanSteps i = true → (params.manifest.steps i).generator = true → w.Unreached i →
    ∀ file ∈ params.declaredFiles i, (∃ w', w.next params event = some w' ∧
        params.fileSystem.stat w'.disk.fs file ≠ params.fileSystem.stat w.disk.fs file) →
      params.invocations.entries.lookup (params.manifest.steps i).hash = none ∧
        ∃ j, w.actor event = some j ∧ j ∈ params.edges i

/-- The declared files of a clean generator step are as they were, or it has no log entry and a
dependency was started. -/
def World.GeneratorsAsAt (fs : σ) (w : World σ n) : Prop :=
  ∀ i, params.cleanSteps i = true → (params.manifest.steps i).generator = true → w.Unreached i →
    (∀ file ∈ params.declaredFiles i, params.fileSystem.stat w.disk.fs file = params.fileSystem.stat fs file) ∨
    ∃ j, (params.invocations.entries.lookup (params.manifest.steps i).hash = none ∧ j ∈ params.edges i) ∧
      j ∈ w.history.started

end

variable {params : BuildCommandParameters σ n} {w w' : World σ n}

theorem World.GeneratorsAsAt.next {fs : σ} (h : World.GeneratorsAsAt params fs w)
    (hrunning : w.running ⊆ w.history.started) {event : Event σ n}
    (hevent : w.ChangesGeneratorsWithoutEntry params event) (hnext : w.next params event = some w')
    (htransition : Transition params w event w'.observed) : World.GeneratorsAsAt params fs w' := by
  intro i hclean hgenerator hi
  have hbefore := htransition.unreached hi
  refine htransition.kept_or_started hrunning (P := fun s => ∀ file ∈ params.declaredFiles i,
    params.fileSystem.stat s file = params.fileSystem.stat fs file)
    (h i hclean hgenerator hbefore) fun hsame hchange => ?_
  simp only [not_forall] at hchange
  obtain ⟨file, hfile, hchange⟩ := hchange
  obtain ⟨hentry, j, hactor, hj⟩ := hevent i hclean hgenerator hbefore file hfile
    ⟨w', hnext, fun h => hchange (h.trans (hsame file hfile))⟩
  exact ⟨j, hactor, hentry, hj⟩

/-- In every run in which the declared files of clean generator steps that are not yet reached
change only for dependencies of steps without a log entry. -/
theorem bypassed_generator_is_up_to_date {F : FileSystem σ} {manifest : CompiledManifest n} {invocations : Invocations}
    {failuresAllowed : UInt64} {specifiedSteps : List (Fin n)} {checkClock : Fin n → Int64} {clock : Int64}
    {disk : Disk σ} {w₀ : World σ n}
    (hstart : startBuild F manifest invocations failuresAllowed specifiedSteps checkClock clock disk = .ok (params, w₀))
    (hreaches : World.Reaches params (World.ChangesGeneratorsWithoutEntry params) w₀ w) {i : Fin n}
    (hphase : w.phase = .enqueueing) (hready : w.build.readySteps.getLast? = some i)
    (hgenerator : (params.manifest.steps i).generator = true)
    (hskip : canSkipBuildCommand params w.disk.fs w.build i = true) :
    (params.manifest.steps i).UpToDate params.fileSystem w.disk.fs := by
  have hbegun := startBuild_begun hstart
  have hfiles : World.GeneratorsAsAt params w₀.disk.fs w := hreaches.invariant hbegun
    (fun _ _ _ _ => .inl fun _ _ => rfl)
    (fun hscheduled hevent hnext htransition h => h.next hscheduled.running hevent hnext htransition)
    (by simp [hphase])
  have hscheduled := (hbegun.accounted hreaches).holdsNothing (by simp [hphase])
  have hlast := mem_of_getLast? hready
  have hclean : params.cleanSteps i = true := by
    by_contra hdirty
    simp [canSkipBuildCommand, hdirty] at hskip
  rcases hfiles i hclean hgenerator (hscheduled.fresh_of_ready hlast).2 with
    hsame | ⟨j, ⟨hentry, hj⟩, hstarted⟩
  · exact (generatorStepIsClean_iff.mp (startBuild_generatorClean hstart hclean hgenerator)).congr hsame
  · have hignored : stepIsIgnored params.invocations (params.manifest.steps i).hash j = false := by
      rw [stepIsIgnored, hentry]
    have hflag := hscheduled.flag_of_started hlast hj hstarted hignored
    simp [canSkipBuildCommand, hclean, hflag, hentry] at hskip

end

def generatorChain : CompiledManifest 2 where
  steps i :=
    { hash := .repeated i.val.toUInt8
      dependencies := if i = 1 then [0] else []
      command := [1]
      generator := true
      generatorInputs := if i = 1 then [[97]] else [[115]]
      generatorOutputs := if i = 1 then [[111]] else [[97]] }

/-- The first build runs both steps. Their commands are not traced and report no files. -/
def generatedBuild : Option (World FlatFiles 2) := do
  let (params, w) ← openBuild .valueFirst flatFileSystem generatorChain 1 [1] (fun _ => 10) 10
    [sourceFile 1 1] none
  w.run (fun _ _ => true) params
    [.discard, .discard, .enqueue true, .effect 0 [sourceFile 1 1, middleFile 3 10], .enqueue true,
      .commandDone 0 {}, .enqueue true, .enqueue true,
      .effect 1 [sourceFile 1 1, middleFile 3 10, outputFile], .tick 12, .commandDone 1 {},
      .enqueue true, .finish]

def regeneratedBuild : Option (BuildCommandParameters FlatFiles 2 × World FlatFiles 2) := do
  let w ← generatedBuild
  openBuild .valueFirst flatFileSystem generatorChain 1 [1] (fun _ => 20) 20
    [sourceFile 15 2, middleFile 3 10, outputFile] (some w.logFile)

/-- The first step is run again and leaves `a` as it is. -/
theorem bypassed_generator_is_up_to_date_of_unchanged : ∃ params w₀ w, regeneratedBuild = some (params, w₀) ∧
      World.Reaches params (World.ChangesGeneratorsWithoutEntry params) w₀ w ∧
      w.build.readySteps.getLast? = some 1 ∧ (params.manifest.steps 1).generator = true ∧
      canSkipBuildCommand params w.disk.fs w.build 1 = true ∧
      (params.manifest.steps 1).UpToDate params.fileSystem w.disk.fs := by
  have h : ∃ params w₀, regeneratedBuild = some (params, w₀) ∧ ∃ w,
      w₀.run (fun w w' => decide (w'.disk.fs = w.disk.fs)) params
        [.discard, .discard, .enqueue true, .enqueue true, .commandDone 0 {}] = some w ∧
      ∃ w', w.next params (.enqueue true) = some w' ∧ w.build.readySteps.getLast? = some 1 ∧
        (params.manifest.steps 1).generator = true ∧
        canSkipBuildCommand params w.disk.fs w.build 1 = true := by
    decide +kernel
  obtain ⟨params, w₀, hstart, w, hrun, w', hnext, hready, hgenerator, hskip⟩ := h
  have hreaches : World.Reaches params (World.ChangesGeneratorsWithoutEntry params) w₀ w := by
    refine World.reaches_of_run (fun w event w' hnext hsame i _ _ _ file _ hchanges => ?_) .refl hrun
    obtain ⟨w'', hnext', hchanges⟩ := hchanges
    cases hnext.symm.trans hnext'
    exact absurd (by rw [of_decide_eq_true hsame]) hchanges
  have hbuilds := hstart
  rw [regeneratedBuild] at hbuilds
  obtain ⟨w₁, -, hopen⟩ := bind_eq_some_iff.mp hbuilds
  obtain ⟨result, left, -, hbegin⟩ := openBuild_eq_some hopen
  exact ⟨params, w₀, w, hstart, hreaches, hready, hgenerator, hskip,
    bypassed_generator_is_up_to_date hbegin hreaches (World.phase_of_next_enqueue hnext) hready hgenerator hskip⟩

/-- The first step is run again and writes `a`. The second step is skipped although `a` is newer
than `o`. -/
theorem bypassed_generator_is_out_of_date : ∃ params w₀ w w', regeneratedBuild = some (params, w₀) ∧
      w₀.run (fun _ _ => true) params [.discard, .discard, .enqueue true,
          .effect 0 [sourceFile 15 2, middleFile 3 21, outputFile], .tick 22, .enqueue true,
          .commandDone 0 {}] = some w ∧
      w.build.readySteps.getLast? = some 1 ∧ (params.manifest.steps 1).generator = true ∧
      w.next params (.enqueue true) = some w' ∧ w'.history.skipped = [1] ∧
      w'.disk.fs = w.disk.fs ∧ ¬(params.manifest.steps 1).UpToDate params.fileSystem w.disk.fs := by
  simp only [exists_and_left, ← generatorStepIsClean_iff]
  decide +kernel

end Shuriken
