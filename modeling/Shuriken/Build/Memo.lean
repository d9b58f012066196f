import Shuriken.Build.Cycles
import Shuriken.Build.Skipping
import Shuriken.Lib.ForkJoin

/-!
# The memo of fingerprint matches

Worker threads find the fingerprints that the entries of a build refer to, and then match them.
-/
namespace Shuriken
open Function List

section
variable {σ : Type} {n : Nat} (F : FileSystem σ) (s : σ)

namespace Threaded
variable {numThreads : Nat} (schedule : List (Fin numThreads))

def markEntry (entries : List InvocationEntry) (i : Fin numThreads) (entryIdx : Nat)
    (usedFingerprints : Fin numThreads → Nat → Bool) : Fin numThreads → Nat → Bool :=
  update usedFingerprints i fun idx => usedFingerprints i idx || entries[entryIdx]?.any (·.uses idx)

def findUsedFingerprints (entries : List InvocationEntry) : Option (Fin numThreads → Nat → Bool) :=
  ForkJoin.outcome entries.length (markEntry entries) schedule fun _ _ => false

def fingerprintsFor (invocations : Invocations) (entries : List InvocationEntry) : Option (List UInt32) :=
  (findUsedFingerprints schedule entries).map fun usedFingerprints =>
    ((range invocations.fingerprints.length).filter fun i =>
      (finRange numThreads).any fun j => usedFingerprints j i).map UInt32.ofNat

def matchFingerprint (fingerprints : List (Path × Fingerprint)) (memo : FingerprintMatchesMemo)
    (fingerprintIdx : UInt32) : Except Failure FingerprintMatchesMemo :=
  match fileAt fingerprints fingerprintIdx with
  | none => .ok memo
  | some (path, fp) =>
    match fingerprintMatches F s path fp with
    | .ok result => .ok (update memo fingerprintIdx (some result))
    | .error error => .error (.uncaught error)

/-- After an exception it does not matter what the other threads do. -/
def computeFingerprintMatchesMemo (fingerprints : List (Path × Fingerprint)) (usedFingerprints : List UInt32) :
    Option (Except Failure FingerprintMatchesMemo) :=
  ForkJoin.outcome usedFingerprints.length
    (fun _ usedFingerprintsIdx memo =>
      match usedFingerprints[usedFingerprintsIdx]? with
      | none => memo
      | some fingerprintIdx => memo.bind fun memo => matchFingerprint F s fingerprints memo fingerprintIdx)
    schedule (.ok fun _ => none)

end Threaded

theorem Threaded.fingerprintsFor_total (numThreads : Nat) (invocations : Invocations) (entries : List InvocationEntry) :
    ∃ (schedule : List (Fin numThreads)) (used : List UInt32),
      fingerprintsFor schedule invocations entries = some used := by
  obtain ⟨schedule, maps, hmaps⟩ :=
    @ForkJoin.outcome_total numThreads _ entries.length (markEntry entries) fun _ _ => false
  exact ⟨schedule, _, congrArg (Option.map _) hmaps⟩

section
variable {k : Nat} {entries : List InvocationEntry}

theorem foldl_markEntry {processed : List (Fin k × Nat)} {used : Fin k → Nat → Bool} {j : Fin k} {idx : Nat} :
    processed.foldl (fun used p => Threaded.markEntry entries p.1 p.2 used) used j idx = true ↔
      used j idx = true ∨ ∃ p ∈ processed, p.1 = j ∧ entries[p.2]?.any (·.uses idx) = true := by
  induction processed generalizing used with
  | nil => simp
  | cons p processed ih =>
    rw [foldl_cons, ih, exists_mem_cons_iff, Threaded.markEntry, update_apply]
    split
    · next hj => rw [hj, Bool.or_eq_true_iff, and_iff_right rfl, or_assoc]
    · next hj => rw [or_iff_right (a := _ ∧ _) fun h => hj h.1.symm]

theorem Threaded.fingerprintsFor_eq {schedule : List (Fin k)} (hk : 0 < k) {invocations : Invocations}
    {used : List UInt32} (h : fingerprintsFor schedule invocations entries = some used) :
    used = invocations.fingerprintsFor entries := by
  obtain ⟨maps, hmaps, rfl⟩ := Option.map_eq_some_iff.mp h
  obtain ⟨processed, hperm, rfl⟩ := ForkJoin.outcome_eq_some hk hmaps
  refine congrArg (map UInt32.ofNat) (filter_congr fun i _ => Bool.eq_iff_iff.mpr ?_)
  rw [any_eq_true, any_eq_true]
  constructor
  · rintro ⟨j, -, hj⟩
    obtain ⟨p, hp, -, hentry⟩ := (foldl_markEntry.mp hj).resolve_left Bool.false_ne_true
    exact (ForkJoin.exists_processed_iff hperm).mp ⟨p, hp, (Option.any_eq_true _ _).mp hentry⟩
  · intro hentry
    obtain ⟨p, hp, hentry⟩ := (ForkJoin.exists_processed_iff hperm).mpr hentry
    exact ⟨p.1, mem_finRange _, foldl_markEntry.mpr (.inr ⟨p, hp, rfl, (Option.any_eq_true _ _).mpr hentry⟩)⟩

end

section
variable {F s} {fingerprints : List (Path × Fingerprint)} {k : Nat}

variable (F s fingerprints) in
def matchOf (fingerprintIdx : UInt32) : Option MatchesResult :=
  (fileAt fingerprints fingerprintIdx).bind fun file => (fingerprintMatches F s file.1 file.2).toOption

variable (F s fingerprints) in
def Matched (fingerprintIdx : UInt32) : Prop := ∀ file, fileAt fingerprints fingerprintIdx = some file →
    ∃ result, fingerprintMatches F s file.1 file.2 = .ok result

theorem matchFingerprint_eq_ok {i : UInt32} {memo memo' : FingerprintMatchesMemo} :
    Threaded.matchFingerprint F s fingerprints memo i = .ok memo' ↔ Matched F s fingerprints i ∧
        memo' = update memo i ((matchOf F s fingerprints i).or (memo i)) := by
  rw [Threaded.matchFingerprint, matchOf, Matched]
  cases hfile : fileAt fingerprints i with
  | none =>
    rw [Option.bind_none, Option.none_or, update_eq_self]
    exact ⟨fun h => ⟨nofun, (Except.ok.inj h).symm⟩, fun h => congrArg Except.ok h.2.symm⟩
  | some file =>
    simp only [Option.bind_some]
    cases hresult : fingerprintMatches F s file.1 file.2 with
    | error error =>
      refine iff_of_false nofun fun h => ?_
      obtain ⟨result, hok⟩ := h.1 file rfl
      nomatch hresult.symm.trans hok
    | ok result =>
      refine ⟨fun h => ⟨?_, (Except.ok.inj h).symm⟩, fun h => congrArg Except.ok h.2.symm⟩
      intro file' hfile'
      cases hfile'
      exact ⟨result, hresult⟩

variable {used : List UInt32}

/-- The memo only depends on which fingerprints there are, not on their order. -/
theorem foldlM_matchFingerprint_eq_ok {memo₀ memo : FingerprintMatchesMemo} :
    used.foldlM (Threaded.matchFingerprint F s fingerprints) memo₀ = .ok memo ↔
      (∀ idx ∈ used, Matched F s fingerprints idx) ∧
        memo = fun idx => if idx ∈ used then (matchOf F s fingerprints idx).or (memo₀ idx) else memo₀ idx := by
  induction used generalizing memo₀ with
  | nil =>
    simp only [not_mem_nil, if_false]
    exact ⟨fun h => ⟨nofun, (Except.ok.inj h).symm⟩, fun h => congrArg Except.ok h.2.symm⟩
  | cons i used ih =>
    have hmemo : (fun idx => if idx ∈ used then
          (matchOf F s fingerprints idx).or
            (update memo₀ i ((matchOf F s fingerprints i).or (memo₀ i)) idx)
        else update memo₀ i ((matchOf F s fingerprints i).or (memo₀ i)) idx) =
        fun idx => if idx ∈ i :: used then (matchOf F s fingerprints idx).or (memo₀ idx) else memo₀ idx := by
      funext idx
      by_cases hidx : idx = i
      · subst hidx
        simp only [update_self, mem_cons_self, if_true, ← Option.or_assoc, Option.or_self, ite_self]
      · simp only [update_of_ne hidx, mem_cons, hidx, false_or]
    rw [foldlM_cons, Except.bind_eq_ok, forall_mem_cons, ← hmemo]
    simp only [matchFingerprint_eq_ok, ih]
    exact ⟨fun ⟨_, ⟨hi, rfl⟩, hused, hmemo⟩ => ⟨⟨hi, hused⟩, hmemo⟩,
      fun ⟨⟨hi, hused⟩, hmemo⟩ => ⟨_, ⟨hi, rfl⟩, hused, hmemo⟩⟩

theorem computeFingerprintMatchesMemo_eq_ok {memo : FingerprintMatchesMemo} :
    computeFingerprintMatchesMemo F s fingerprints used = .ok memo ↔ (∀ idx ∈ used, Matched F s fingerprints idx) ∧
        memo = fun idx => if idx ∈ used then matchOf F s fingerprints idx else none := by
  refine foldlM_matchFingerprint_eq_ok.trans (and_congr_right fun _ => ?_)
  simp only [Option.or_none]

/-- Every schedule gives the memo of the sequential loop. -/
theorem Threaded.computeFingerprintMatchesMemo_eq_ok {schedule : List (Fin k)} (hk : 0 < k)
    {result : Except Failure FingerprintMatchesMemo}
    (h : computeFingerprintMatchesMemo F s schedule fingerprints used = some result) (memo : FingerprintMatchesMemo) :
    result = .ok memo ↔ Shuriken.computeFingerprintMatchesMemo F s fingerprints used = .ok memo := by
  obtain ⟨processed, hperm, rfl⟩ := ForkJoin.outcome_eq_some hk h
  have hfold : ∀ (processed : List (Fin k × Nat)) (memo : Except Failure FingerprintMatchesMemo),
      processed.foldl (fun memo p =>
        match used[p.2]? with
        | none => memo
        | some fingerprintIdx => memo.bind fun memo => matchFingerprint F s fingerprints memo fingerprintIdx)
        memo = memo.bind ((processed.filterMap fun p => used[p.2]?).foldlM (matchFingerprint F s fingerprints)) := by
    intro processed
    induction processed with
    | nil => intro memo; cases memo <;> rfl
    | cons p processed ih =>
      intro memo
      rw [foldl_cons, ih, filterMap_cons]
      cases used[p.2]? with
      | none => rfl
      | some idx => cases memo <;> rfl
  have hmem : ∀ idx, idx ∈ processed.filterMap (fun p => used[p.2]?) ↔ idx ∈ used := by
    intro idx
    rw [mem_filterMap]
    refine Iff.trans ?_ ((ForkJoin.exists_processed_iff hperm (p := (· = idx))).trans exists_eq_right)
    exact exists_congr fun p => and_congr_right fun _ => ⟨fun h => ⟨idx, h, rfl⟩, fun ⟨_, h, heq⟩ => heq ▸ h⟩
  rw [hfold, Shuriken.computeFingerprintMatchesMemo_eq_ok]
  refine foldlM_matchFingerprint_eq_ok.trans ?_
  simp only [hmem, Option.or_none]

end

def Invocations.InRange (invocations : Invocations) : Prop :=
  ∀ hash entry, invocations.entries.lookup hash = some entry →
    ∀ idx ∈ entry.outputFiles ++ entry.inputFiles, idx.toNat < invocations.fingerprints.length

def Build.Refers (manifest : CompiledManifest n) (invocations : Invocations) (build : Build n) (idx : UInt32) : Prop :=
  ∃ i entry, (build.stepNodes i).shouldBuild = true ∧ invocations.entries.lookup (manifest.steps i).hash = some entry ∧
    idx ∈ entry.outputFiles ++ entry.inputFiles

section
variable {F s} {manifest : CompiledManifest n} {invocations : Invocations} {build : Build n}

variable {entry : InvocationEntry} {idx : UInt32} {failure : Failure} {now : Int64} {step : Step n}

theorem InvocationEntry.uses_iff {idx : Nat} :
    entry.uses idx = true ↔ ∃ file ∈ entry.outputFiles ++ entry.inputFiles, file.toNat = idx := by
  simp [InvocationEntry.uses, mem_append, or_and_right, exists_or]

theorem mem_fingerprintsFor {entries : List InvocationEntry} :
    idx ∈ invocations.fingerprintsFor entries ↔ idx.toNat < invocations.fingerprints.length ∧
      ∃ entry ∈ entries, idx ∈ entry.outputFiles ++ entry.inputFiles := by
  rw [Invocations.fingerprintsFor, mem_map]
  simp only [mem_filter, mem_range, any_eq_true, InvocationEntry.uses_iff]
  constructor
  · rintro ⟨i, ⟨hlt, entry, hentry, file, hfile, rfl⟩, rfl⟩
    rw [UInt32.ofNat_toNat]
    exact ⟨hlt, entry, hentry, hfile⟩
  · rintro ⟨hlt, entry, hentry, hidx⟩
    exact ⟨idx.toNat, ⟨hlt, entry, hentry, idx, hidx, rfl⟩, UInt32.ofNat_toNat⟩

theorem mem_fingerprintsFor_entries (hrange : invocations.InRange) :
    idx ∈ invocations.fingerprintsFor (build.entries manifest invocations) ↔ build.Refers manifest invocations idx := by
  rw [mem_fingerprintsFor, Build.Refers]
  simp only [Build.entries, mem_filterMap, mem_filter, mem_finRange, true_and]
  constructor
  · rintro ⟨-, entry, ⟨i, hi, hentry⟩, hidx⟩
    exact ⟨i, entry, hi, hentry, hidx⟩
  · rintro ⟨i, entry, hi, hentry, hidx⟩
    exact ⟨hrange _ entry hentry idx hidx, entry, ⟨i, hi, hentry⟩, hidx⟩

variable {memo : FingerprintMatchesMemo}

/-- The memo has a result for the files of the steps that should be built, and for no others. -/
theorem memo_eq_some (hrange : invocations.InRange) (h : computeFingerprintMatchesMemo F s invocations.fingerprints
      (invocations.fingerprintsFor (build.entries manifest invocations)) = .ok memo) (idx : UInt32) :
    ((∃ result, memo idx = some result) ↔ build.Refers manifest invocations idx) ∧
      ∀ result, memo idx = some result → ∃ file, fileAt invocations.fingerprints idx = some file ∧
        fingerprintMatches F s file.1 file.2 = .ok result := by
  obtain ⟨hmatched, hmemo⟩ := computeFingerprintMatchesMemo_eq_ok.mp h
  have hidx : memo idx = if idx ∈ invocations.fingerprintsFor (build.entries manifest invocations) then
      matchOf F s invocations.fingerprints idx else none := congrFun hmemo idx
  refine ⟨⟨fun ⟨result, hresult⟩ => ?_, fun hrefers => ?_⟩, fun result => computeFingerprintMatchesMemo_spec h⟩
  · rw [hidx] at hresult
    split at hresult
    · next hmem => exact (mem_fingerprintsFor_entries hrange).mp hmem
    · nomatch hresult
  · have hmem := (mem_fingerprintsFor_entries hrange).mpr hrefers
    obtain ⟨i, entry, -, hentry, hfiles⟩ := hrefers
    have hfile : fileAt invocations.fingerprints idx = some _ := getElem?_eq_getElem (hrange _ entry hentry idx hfiles)
    obtain ⟨result, hresult⟩ := hmatched idx hmem _ hfile
    refine ⟨result, ?_⟩
    rw [hidx, if_pos hmem, matchOf, hfile, Option.bind_some, hresult]
    rfl

def Covered (invocations : Invocations) (memo : FingerprintMatchesMemo) (step : Step n) : Prop :=
  ∀ entry, invocations.entries.lookup step.hash = some entry →
    ∀ idx ∈ entry.outputFiles ++ entry.inputFiles, ∃ result, memo idx = some result

theorem covered_of_memo (hrange : invocations.InRange) (h : computeFingerprintMatchesMemo F s invocations.fingerprints
      (invocations.fingerprintsFor (build.entries manifest invocations)) = .ok memo) {i : Fin n}
    (hi : (build.stepNodes i).shouldBuild = true) : Covered invocations memo (manifest.steps i) :=
  fun entry hentry idx hidx => (memo_eq_some hrange h idx).1.mpr ⟨i, entry, hi, hentry, hidx⟩

theorem processFiles_ne_error {indices : List UInt32} {state : Bool × Bool}
    (h : ∀ idx ∈ indices, ∃ result, memo idx = some result) : processFiles memo indices state ≠ .error failure := by
  induction indices generalizing state with
  | nil => rintro ⟨⟩
  | cons idx indices ih =>
    obtain ⟨⟨result, hresult⟩, h⟩ := forall_mem_cons.mp h
    rw [processFiles]
    split
    · rintro ⟨⟩
    · rw [hresult]
      exact ih h

theorem fingerprintFiles_error {disk : Disk σ} {paths : List Path}
    (h : fingerprintFiles F now disk paths = .error failure) : ∃ error, failure = .ioError error := by
  obtain ⟨path, -, h⟩ := Except.exists_of_mapM_eq_error h
  split at h
  · nomatch h
  · exact ⟨_, (Except.error.inj h).symm⟩

theorem relogCommand_error {disk : Disk σ} {hash : Hash}
    (h : relogCommand F invocations now disk entry hash = .error failure) :
    ∃ paths, fingerprintFiles F now disk paths = .error failure := by
  rw [relogCommand] at h
  rcases Except.bind_eq_error.mp h with h | ⟨_, -, h⟩
  · exact ⟨_, h⟩
  · rcases Except.bind_eq_error.mp h with h | ⟨_, -, h⟩
    · exact ⟨_, h⟩
    · nomatch h

theorem isClean_error {disk : Disk σ} (hcovered : Covered invocations memo step)
    (h : isClean F invocations now memo disk step = .error failure) :
    ∃ paths, fingerprintFiles F now disk paths = .error failure := by
  rw [isClean] at h
  split at h
  · cases h
  · rw [nonGeneratorStepIsClean] at h
    split at h
    · cases h
    · next entry hentry =>
      obtain ⟨houtputs, hinputs⟩ := forall_mem_append.mp (hcovered entry hentry)
      rcases Except.bind_eq_error.mp h with h | ⟨state, -, h⟩
      · exact absurd h (processFiles_ne_error houtputs)
      · rcases Except.bind_eq_error.mp h with h | ⟨⟨clean, shouldUpdate⟩, -, h⟩
        · exact absurd h (processFiles_ne_error hinputs)
        · simp only at h
          split at h
          · rcases Except.bind_eq_error.mp h with h | ⟨_, -, h⟩
            · exact relogCommand_error h
            · cases h
          · cases h

theorem computeFingerprintMatchesMemo_error {fingerprints : List (Path × Fingerprint)} {used : List UInt32}
    (h : computeFingerprintMatchesMemo F s fingerprints used = .error failure) :
    ∃ error, failure = .uncaught error := by
  obtain ⟨memo, idx, -, h⟩ := Except.exists_of_foldlM_eq_error h
  split at h
  · nomatch h
  · split at h
    · nomatch h
    · exact ⟨_, (Except.error.inj h).symm⟩

theorem computeStepsToBuild_error {specifiedSteps : List (Fin n)}
    (h : computeStepsToBuild manifest specifiedSteps = .error failure) : ∃ what, failure = .buildError what := by
  rw [computeStepsToBuild] at h
  split at h
  · nomatch h
  · split at h
    · nomatch h
    · split at h
      · exact ⟨_, (Except.error.inj h).symm⟩
      · nomatch h

/-- What goes wrong inside `shk` itself. -/
def Failure.internal : Failure → Prop
  | .runtimeError _ => True
  | .assertionFailed _ => True
  | _ => False

theorem startBuild_error (hrange : invocations.InRange) {failuresAllowed : UInt64} {specifiedSteps : List (Fin n)}
    {checkClock : Fin n → Int64} {clock : Int64} {disk : Disk σ}
    (h : startBuild F manifest invocations failuresAllowed specifiedSteps checkClock clock disk = .error failure) :
    ¬ failure.internal := by
  rw [startBuild] at h
  rcases Except.bind_eq_error.mp h with h | ⟨stepsToBuild, -, h⟩
  · obtain ⟨what, rfl⟩ := computeStepsToBuild_error h
    exact id
  · rcases Except.bind_eq_error.mp h with h | ⟨build, -, h⟩
    · exact Build.construct_error h ▸ id
    · rcases Except.bind_eq_error.mp h with h | ⟨memo, hmemo, h⟩
      · obtain ⟨error, rfl⟩ := computeFingerprintMatchesMemo_error h
        exact id
      · rcases Except.bind_eq_error.mp h with h | ⟨_, -, h⟩
        · obtain ⟨state, i, -, h⟩ := Except.exists_of_foldlM_eq_error h
          rw [computeCleanStep] at h
          split at h
          · next hi =>
            rcases Except.bind_eq_error.mp h with h | ⟨_, -, h⟩
            · obtain ⟨_, h⟩ := isClean_error (covered_of_memo hrange hmemo hi) h
              obtain ⟨error, rfl⟩ := fingerprintFiles_error h
              exact id
            · cases h
          · cases h
        · cases h

theorem outputFileIdsForBuildStep_ne_error
    (hstep : step.phony = true ∨ Covered invocations memo step ∧
      (step.generator = false → (invocations.entries.lookup step.hash).isSome = true)) :
    outputFileIdsForBuildStep invocations memo step ≠ .error failure := by
  intro h
  rw [outputFileIdsForBuildStep] at h
  split at h
  · cases h
  · next hkind =>
    obtain ⟨hphony, hgenerator⟩ := Bool.or_eq_false_iff.mp (Bool.eq_false_iff.mpr hkind)
    obtain ⟨hcovered, hentry⟩ := hstep.resolve_left (Bool.eq_false_iff.mp hphony)
    split at h
    · next hnone => cases (congrArg Option.isSome hnone).symm.trans (hentry hgenerator)
    · next entry hsome =>
      obtain ⟨idx, hidx, h⟩ := Except.exists_of_mapM_eq_error h
      obtain ⟨result, hresult⟩ := hcovered entry hsome idx (mem_append_left _ hidx)
      rw [hresult] at h
      cases h

variable {failuresAllowed : UInt64} {specifiedSteps : List (Fin n)} {checkClock : Fin n → Int64}
  {clock : Int64} {disk : Disk σ} {params : BuildCommandParameters σ n} {w₀ w : World σ n}

theorem startBuild_covered (hrange : invocations.InRange)
    (h : startBuild F manifest invocations failuresAllowed specifiedSteps checkClock clock disk = .ok (params, w₀))
    {i : Fin n} (hi : (w₀.build.stepNodes i).shouldBuild = true) :
    Covered params.invocations params.fingerprintMatchesMemo (params.manifest.steps i) := by
  obtain ⟨stepsToBuild, -, h⟩ := Except.bind_eq_ok.mp h
  obtain ⟨build, -, h⟩ := Except.bind_eq_ok.mp h
  obtain ⟨memo, hmemo, h⟩ := Except.bind_eq_ok.mp h
  obtain ⟨⟨disk', cleanSteps⟩, -, h⟩ := Except.bind_eq_ok.mp h
  cases h
  exact covered_of_memo hrange hmemo hi

theorem reaches_not_internal (hrange : invocations.InRange)
    (hstart : startBuild F manifest invocations failuresAllowed specifiedSteps checkClock clock disk = .ok (params, w₀))
    (hreaches : World.Reaches params (fun _ _ => True) w₀ w) (hthrown : w.phase = .thrown failure) :
    ¬ failure.internal := by
  have hbegun := startBuild_begun hstart
  obtain ⟨w₁, w₂, event, -, -, -, -, hthrows⟩ := hreaches.throws hbegun hthrown
  cases hthrows with
  | io event error => exact id
  | assertion event what =>
    exact absurd hthrown ((hbegun.accounted hreaches).noAssertionFailed what)
  | skipUnknown event hskips hids =>
    refine absurd hids (outputFileIdsForBuildStep_ne_error ?_)
    refine hskips.clean_or_phony.symm.imp_right fun hclean => ?_
    obtain ⟨hbuild, hentry⟩ := hbegun.clean _ hclean
    exact ⟨startBuild_covered hrange hstart hbuild, fun hgenerator => (hentry hgenerator).1⟩
  | skipClash event hskips hids hclash => exact Build.emplaceOutputFiles_error _ hclash ▸ id
  | finishClash hfiles hstatus hclash => exact Build.emplaceOutputFiles_error _ hclash ▸ id

end

/-- For any number of threads and any way in which they are scheduled: the memo has a result for
exactly the files of the steps that should be built, which is that of `fingerprintMatches` and what
the sequential loop computes. So a build neither starts with nor throws an internal error. -/
theorem fingerprint_memo_covers_build (manifest : CompiledManifest n) {invocations : Invocations}
    (hrange : invocations.InRange) :
    (∀ (build : Build n) (numThreads numThreads' : Nat), 0 < numThreads → 0 < numThreads' →
      (∃ (schedule : List (Fin numThreads)) (used : List UInt32) (schedule' : List (Fin numThreads'))
          (result : Except Failure FingerprintMatchesMemo),
        Threaded.fingerprintsFor schedule invocations (build.entries manifest invocations) = some used ∧
        Threaded.computeFingerprintMatchesMemo F s schedule' invocations.fingerprints used = some result) ∧
      ∀ (schedule : List (Fin numThreads)) (schedule' : List (Fin numThreads')) (used : List UInt32)
          (memo : FingerprintMatchesMemo),
        Threaded.fingerprintsFor schedule invocations (build.entries manifest invocations) = some used →
        Threaded.computeFingerprintMatchesMemo F s schedule' invocations.fingerprints used = some (.ok memo) →
        computeFingerprintMatchesMemo F s invocations.fingerprints
          (invocations.fingerprintsFor (build.entries manifest invocations)) = .ok memo ∧
        ∀ idx, ((∃ result, memo idx = some result) ↔ build.Refers manifest invocations idx) ∧
          ∀ result, memo idx = some result → ∃ file, fileAt invocations.fingerprints idx = some file ∧
            fingerprintMatches F s file.1 file.2 = .ok result) ∧
    ∀ (failuresAllowed : UInt64) (specifiedSteps : List (Fin n)) (checkClock : Fin n → Int64)
        (clock : Int64) (disk : Disk σ),
      (∀ failure, startBuild F manifest invocations failuresAllowed specifiedSteps checkClock clock disk =
        .error failure → ¬ failure.internal) ∧
      ∀ params w₀ w, startBuild F manifest invocations failuresAllowed specifiedSteps checkClock clock
          disk = .ok (params, w₀) → World.Reaches params (fun _ _ => True) w₀ w →
        ∀ failure, w.phase = .thrown failure → ¬ failure.internal := by
  refine ⟨fun build numThreads numThreads' hthreads hthreads' => ⟨?_, ?_⟩, fun _ _ _ _ _ =>
    ⟨fun _ => startBuild_error hrange, fun _ _ _ hstart hreaches _ => reaches_not_internal hrange hstart hreaches⟩⟩
  · obtain ⟨schedule, used, hused⟩ :=
      Threaded.fingerprintsFor_total numThreads invocations (build.entries manifest invocations)
    obtain ⟨schedule', result, hresult⟩ : ∃ (schedule' : List (Fin numThreads')) (result : _),
        Threaded.computeFingerprintMatchesMemo F s schedule' invocations.fingerprints used = some result :=
      ForkJoin.outcome_total _
    exact ⟨schedule, used, schedule', result, hused, hresult⟩
  · intro schedule schedule' used memo hused hmemo
    obtain rfl := Threaded.fingerprintsFor_eq hthreads hused
    have hseq := (Threaded.computeFingerprintMatchesMemo_eq_ok hthreads' hmemo memo).mp rfl
    exact ⟨hseq, memo_eq_some hrange hseq⟩

end

def recordedFiles : Invocations where
  fingerprints := [([111], {}), ([112], {}), ([115], {})]
  entries := Finmap.singleton (chain.steps 1).hash { outputFiles := [0], inputFiles := [2] }

theorem recordedFiles_inRange : recordedFiles.InRange := by
  intro hash entry hentry idx hidx
  by_cases hhash : hash = (chain.steps 1).hash
  · subst hhash
    cases (Finmap.lookup_singleton_eq).symm.trans hentry
    rcases mem_cons.mp hidx with rfl | hidx
    · decide
    · obtain rfl := mem_singleton.mp hidx
      decide
  · have hnone : recordedFiles.entries.lookup hash = none :=
      Finmap.lookup_eq_none.mpr (mt (Finmap.mem_singleton _ _ _).mp hhash)
    nomatch hnone.symm.trans hentry

/-- Two threads match the two files that the entry refers to, and not the one in between. -/
theorem fingerprint_memo_covers_recorded_files :
    ∃ build used memo, Build.construct chain recordedFiles 1 [1] = .ok build ∧
      Threaded.fingerprintsFor ([0, 1, 0, 0] : List (Fin 2)) recordedFiles
        (Build.entries chain recordedFiles build) = some used ∧
      Threaded.computeFingerprintMatchesMemo flatFileSystem [] ([1, 0, 1, 0, 1, 0] : List (Fin 2))
        recordedFiles.fingerprints used = some (.ok memo) ∧
      (∃ result, memo 0 = some result) ∧ (∃ result, memo 2 = some result) ∧ memo 1 = none := by
  have h : ((Build.construct chain recordedFiles 1 [1]).toOption.any fun build =>
      (Threaded.fingerprintsFor ([0, 1, 0, 0] : List (Fin 2)) recordedFiles
        (Build.entries chain recordedFiles build)).any fun used =>
      ((Threaded.computeFingerprintMatchesMemo flatFileSystem [] ([1, 0, 1, 0, 1, 0] : List (Fin 2))
        recordedFiles.fingerprints used).bind Except.toOption).any fun memo =>
      (build.stepNodes 1).shouldBuild && (memo 1).isNone) = true := by
    decide +kernel
  obtain ⟨build, hbuild, h⟩ := (Option.any_eq_true _ _).mp h
  obtain ⟨used, hused, h⟩ := (Option.any_eq_true _ _).mp h
  obtain ⟨memo, hmemo, h⟩ := (Option.any_eq_true _ _).mp h
  obtain ⟨result, hresult, hok⟩ := Option.bind_eq_some_iff.mp hmemo
  obtain rfl := Except.toOption_eq_some.mp hok
  obtain ⟨hbuilds, hnone⟩ := Bool.and_eq_true_iff.mp h
  obtain ⟨-, hcovers⟩ := ((fingerprint_memo_covers_build flatFileSystem [] chain recordedFiles_inRange).1
    build 2 2 (by decide) (by decide)).2 _ _ used memo hused hresult
  exact ⟨build, used, memo, Except.toOption_eq_some.mp hbuild, hused, hresult,
    (hcovers 0).1.mpr ⟨1, _, hbuilds, Finmap.lookup_singleton_eq, mem_cons_self⟩,
    (hcovers 2).1.mpr ⟨1, _, hbuilds, Finmap.lookup_singleton_eq, mem_cons_of_mem _ mem_cons_self⟩,
    Option.isNone_iff_eq_none.mp hnone⟩

end Shuriken
