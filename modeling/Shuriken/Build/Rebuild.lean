import Shuriken.Build.UpToDate

/-!
# Building again

After a build that was successful the next one finds in its log what there is on
disk. It starts no command, unless a step that was skipped has missed a change.
-/
namespace Shuriken
open Option Except

section
variable {σ : Type} {n : Nat} {params : BuildCommandParameters σ n} {w₀ w : World σ n}

/-- The log was opened after records that give the commands of the invocations. -/
def PersistentInvocationLog.Continues (log : PersistentInvocationLog) (front : List Record)
    (invocations : Invocations) : Prop :=
  ∀ order lstat, ∃ v, log.Opened order lstat front v ∧ v.commands = invocations.logged

/-- What the build has logged fits into the format of the log. -/
structure World.Storable (w : World σ n) (front : List Record) : Prop where
  paths : ∀ c ∈ w.disk.log.calls, ∀ path ∈ c.2.paths, 0 ∉ path
  clock : ∀ c ∈ w.disk.log.calls, c.1 < Int64.maxValue
  room : Parsing.Room {} (front ++ (w.disk.log.state.destroy PersistentInvocationLog.call).innerLog.written)

variable {invocations : Invocations}

theorem Invocations.Represents.inRange {v : LogView} (h : invocations.Represents v) : invocations.InRange := by
  intro hash entry hentry
  have hcommand := h.commands hash
  rw [hentry] at hcommand
  generalize v.commands hash = command at hcommand
  cases hcommand with
  | @some _ c hrefers =>
    have hfiles : (entry.outputFiles ++ entry.inputFiles).map (fileAt invocations.fingerprints) =
        (c.outputs ++ c.inputs).map some := by
      rw [List.map_append, List.map_append, hrefers.outputs, hrefers.inputs]
    intro idx hidx
    obtain ⟨file, -, hfile⟩ := List.mem_map.mp (hfiles ▸ List.mem_map_of_mem hidx)
    exact (List.getElem?_eq_some_iff.mp hfile.symm).1

theorem World.Storable.parse {front : List Record} (h : w.Storable front)
    (hlog : w.disk.log.opened.Continues front invocations) (order : EvalOrder) (lstat : Path → Stat) :
    ∃ result, parsePersistentInvocationLog order lstat (some w.logFile) = .ok (result, some w.logFile) ∧
      result.invocations.InRange ∧ result.invocations.logged = w.disk.log.logged invocations := by
  obtain ⟨v, hopened, hcommands⟩ := hlog order lstat
  obtain ⟨result, v', hparse, hrepresents, hv'⟩ := parse_session hopened 0 h.paths h.clock h.room
  refine ⟨result, hparse, hrepresents.inRange, ?_⟩
  rw [hrepresents.logged_eq, hv', hcommands]
  rfl

/-- Every step of a build that was successful, or had nothing to do, is done. -/
theorem done_of_success {disk : Disk σ} (hbegun : Begun disk params w₀)
    (hgrounded : ∀ i, (w₀.build.stepNodes i).shouldBuild = true →
      Search.Grounded (Build.Edge params.manifest params.invocations) i)
    (hpositive : 0 < params.failuresAllowed) (hallowed : params.failuresAllowed.toNat < 2 ^ 31)
    {Allowed : World σ n → Event σ n → Prop} (hreaches : World.Reaches params Allowed w₀ w)
    {result : BuildResult} (hphase : w.phase = .finished result) (hinterrupted : result ≠ .interrupted)
    (hfailure : result ≠ .failure) : ∀ i, (w₀.build.stepNodes i).shouldBuild = true → i ∈ w.history.done := by
  obtain ⟨stepsToBuild, hbuild⟩ := hbegun.constructed
  have haccounted := hbegun.accounted hreaches
  have hscheduled := haccounted.holdsNothing (by simp [hphase])
  have hidle := haccounted.idle
  rw [World.Idle, hphase] at hidle
  obtain ⟨hrunning, hexhausted, hresult⟩ := hidle hinterrupted
  rw [result_iff hscheduled hbegun.remaining hpositive hallowed] at hresult
  have hfailed : w.history.failed = [] := by
    by_contra hfailed
    exact hfailure (hresult.trans (if_neg hfailed))
  have hallows : 0 < w₀.build.remainingFailures.toInt := by
    have hpos : 0 < params.failuresAllowed.toNat := UInt64.lt_iff_toNat_lt.mp hpositive
    rw [hbegun.remaining, toInt_failuresAllowed hallowed]
    omega
  intro i hi
  exact hscheduled.done_of_grounded hbuild (hscheduled.ready_of_exhausted hallows hfailed hexhausted)
    (by rw [hphase]; rfl) hrunning hfailed hi (hgrounded i hi)

variable (params w₀) in
/-- The steps that were done without being run would still be skipped: their outputs were left
alone, and their inputs match what is recorded. -/
def World.KeepsSkipped (w : World σ n) : Prop :=
  ∀ i ∈ w.history.done, i ∉ w.history.started → (params.manifest.steps i).phony = false →
    ∀ c, w₀.observed.logged params (params.manifest.steps i).hash = some c →
      (∀ file ∈ c.outputs, params.fileSystem.view w.disk.fs file.1 = params.fileSystem.view w₀.disk.fs file.1) ∧
      ∀ file ∈ c.inputs, MatchesNow params.fileSystem w.disk.fs file

section
variable {F : FileSystem σ} {manifest : CompiledManifest n} {invocations : Invocations}
  {failuresAllowed : UInt64} {specifiedSteps : List (Fin n)} {checkClock : Fin n → Int64} {clock : Int64}
  {log : PersistentInvocationLog} {front : List Record} {fs : σ}
  (hgenerator : ∀ i, (manifest.steps i).generator = false)
  (hconsole : ∀ i, isConsolePool (manifest.steps i).poolName = false)
  (hhashes : Function.Injective fun i => (manifest.steps i).hash)
  (hpositive : 0 < failuresAllowed) (hallowed : failuresAllowed.toNat < 2 ^ 31)
  (hlog : log.Continues front invocations)
  (hstart : startBuild F manifest invocations failuresAllowed specifiedSteps checkClock clock
    { fs, log := { opened := log } } = .ok (params, w₀))
  (hreaches : World.Reaches params (World.KeepsFiles params) w₀ w) (hsuccess : w.returned = some .success)
  (hskipped : w₀.KeepsSkipped params w) (hreadable : F.Readable w.disk.fs) (hstorable : w.Storable front)
  (order : EvalOrder) (checkClock' : Fin n → Int64) (clock' : Int64)
include hgenerator hconsole hhashes hpositive hallowed hlog hstart hreaches hsuccess hskipped hreadable hstorable

/-- A build with what was recorded by a successful one is up to date. -/
theorem openBuild_upToDate :
    ∃ params' w₀', openBuild order F manifest failuresAllowed specifiedSteps checkClock' clock'
        w.disk.fs (some w.logFile) = some (params', w₀') ∧ w₀'.UpToDate params' := by
  have hphase := World.phase_of_returned hsuccess
  have hbegun := startBuild_begun hstart
  obtain ⟨hF, hmanifest, hinvocations, hfailures⟩ := startBuild_params hstart
  have hrecords := hreaches.records hstart rfl hgenerator hconsole hhashes (by simp [hphase])
  have hdone := done_of_success hbegun (fun i => startBuild_grounded hstart) (hfailures ▸ hpositive)
    (hfailures ▸ hallowed) hreaches hphase (by simp) (by simp)
  have hopened : w.disk.log.opened = log := hrecords.opened.trans (startBuild_logged hstart rfl).1
  obtain ⟨result, hparse, hrange, hlogged⟩ := hstorable.parse (hopened ▸ hlog) order (F.lstat w.disk.fs)
  have hcommands : result.invocations.logged = w.observed.logged params := by
    rw [hlogged, ← hinvocations]
    rfl
  have hsettles : result.invocations.Settles F w.disk.fs manifest w.build.outputFiles w.history.done := by
    refine ⟨hrange, fun i hi hphony => ?_, ?_⟩
    · rw [hcommands, ← hF, ← hmanifest]
      rw [← hmanifest] at hphony
      by_cases hstarted : i ∈ w.history.started
      · exact hrecords.run i hi hstarted hphony
      · obtain ⟨c, hc, hrecorded⟩ := hrecords.skipped i hi hstarted hphony
        obtain ⟨houtputs, hinputs⟩ := hskipped i hi hstarted hphony c hc
        exact ⟨c, (hrecords.unlogged i (.inr (.inl hstarted))).trans hc,
          hrecorded.mono houtputs hinputs fun _ _ h => h⟩
    · rw [hcommands, ← hmanifest]
      exact hrecords.ordered
  obtain ⟨stepsToBuild, hsteps, hbuild, -⟩ := startBuild_constructed hstart
  obtain ⟨params', w₀', hstart', huptodate⟩ := hsettles.startBuild hreadable hgenerator hsteps
    (fun r hr => hdone r (hbuild.roots r hr)) failuresAllowed checkClock' clock'
    { opened := openPersistentInvocationLog w.logFile result.parseData }
  refine ⟨params', w₀', ?_, huptodate⟩
  rw [openBuild, hparse]
  exact toOption_eq_some.mpr hstart'

end

end

theorem flatFileSystem_readable (files : FlatFiles) : flatFileSystem.Readable files := by
  intro path hfound
  simp only [flatFileSystem, FlatFiles.view] at hfound ⊢
  split
  · next hnone =>
    rw [hnone] at hfound
    exact absurd hfound (by decide)
  · rfl

end Shuriken
