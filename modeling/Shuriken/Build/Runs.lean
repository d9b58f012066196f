import Shuriken.Build.Exceptions
import Shuriken.Build.Scheduling
import Shuriken.Fs.Nested

/-!
# Whole builds

The accounting of the steps holds in every state that a build reaches. From it
follows in which order steps are run and that a build in which nothing fails
does not stop early.
-/
namespace Shuriken
open Countdown List

section
variable {σ : Type} {n : Nat} (params : BuildCommandParameters σ n) (build₀ : Build n)

def Phase.active : Phase n → Bool
  | .discarding .. | .enqueueing => true
  | _ => false

def Build.Exhausted (build : Build n) : Prop := build.readySteps = [] ∨ build.remainingFailures = 0

/-- When no command is running the build waits or returns only because it can enqueue nothing. -/
def World.Idle (w : World σ n) : Prop :=
  match w.phase with
  | .waiting => w.running = [] → w.build.Exhausted
  | .finished result =>
    result ≠ .interrupted → w.running = [] ∧ w.build.Exhausted ∧ result = w.result params
  | _ => True

structure Accounted (w : World σ n) : Prop where
  scheduled : ∃ holding, Scheduled params build₀ holding w ∧ ((∀ failure, w.phase ≠ .thrown failure) → holding = [])
  idle : w.Idle params
  noAssertionFailed : ∀ what, w.phase ≠ .thrown (.assertionFailed what)

variable {params build₀} {holding : List (Fin n)} {w w' : World σ n} {stepsToBuild : List (Fin n)}

theorem Accounted.holdsNothing (h : Accounted params build₀ w)
    (hphase : ∀ failure, w.phase ≠ .thrown failure) : Scheduled params build₀ [] w := by
  obtain ⟨holding, hscheduled, hnil⟩ := h.scheduled
  exact hnil hphase ▸ hscheduled

theorem Scheduled.accounted_of_active (h : Scheduled params build₀ [] w) (hphase : w.phase.active = true) :
    Accounted params build₀ w where
  scheduled := ⟨[], h, fun _ => rfl⟩
  idle := by
    rw [World.Idle]
    cases hp : w.phase with
    | discarding | enqueueing | thrown => trivial
    | waiting | finished =>
      rw [hp] at hphase
      nomatch hphase
  noAssertionFailed what hp := by
    rw [hp] at hphase
    nomatch hphase

theorem Scheduled.accounted_throw (h : Scheduled params build₀ holding w) {failure : Failure}
    (hfailure : ∀ what, failure ≠ .assertionFailed what) : Accounted params build₀ (w.throw failure) where
  scheduled := by
    refine ⟨holding ++ w.phase.newReadySteps, { h with accounted := ?_, visited := ?_, started := ?_ }, ?_⟩
    · refine h.accounted.trans (perm_iff_count.mpr fun a => ?_)
      simp only [World.throw, Phase.newReadySteps, count_append, count_nil]
      omega
    · exact fun i hi => by cases hi
    · exact fun i hi => (h.started i hi).imp_left (mem_append_left _)
    · exact fun hphase => absurd rfl (hphase failure)
  idle := trivial
  noAssertionFailed what hp := hfailure what (Phase.thrown.inj hp)

variable {s i : Fin n}

section
variable (hbuild : Build.Constructed params.manifest params.invocations stepsToBuild build₀)
include hbuild

theorem accounted_bypass
    (h : Scheduled params build₀ [s] w) (hphase : w.phase.active = true) (hstarted : s ∉ w.history.started) :
    Accounted params build₀ (w.bypass params s) := by
  rw [World.bypass, commandBypassed]
  cases hids : outputFileIdsForBuildStep params.invocations params.fingerprintMatchesMemo
      (params.manifest.steps s) with
  | error failure =>
    obtain ⟨what, rfl⟩ := outputFileIdsForBuildStep_error hids
    exact h.accounted_throw (by simp)
  | ok fileIds =>
    rcases h.markDone hbuild fileIds true fun _ => hstarted with hmark | ⟨build, hmark, hscheduled⟩
    · simp only [bind, Except.bind, hmark]
      exact h.accounted_throw (by simp)
    · simp only [bind, Except.bind, hmark]
      exact hscheduled.accounted_of_active hphase

section
variable (h : Scheduled params build₀ [] w)
include h

theorem accounted_discard {visited : Fin n → Bool} {newReadySteps : List (Fin n)} {discardedSteps : Nat}
    (hphase : w.phase = .discarding visited newReadySteps discardedSteps) :
    Accounted params build₀ (w.discard params visited newReadySteps discardedSteps) := by
  rw [World.discard]
  split
  · next hready =>
    rw [getLast?_eq_none_iff] at hready
    refine Scheduled.accounted_of_active { h with accounted := ?_, visited := ?_ } rfl
    · refine h.accounted.trans (perm_iff_count.mpr fun a => ?_)
      simp only [hready, hphase, Phase.newReadySteps, count_append, count_nil]
      omega
    · exact fun i hi => by cases hi
  · next s hs =>
    have hpop := h.pop hs
    have hfresh := h.fresh_of_ready (mem_of_getLast? hs)
    simp only
    split
    · next hvisited =>
      -- a step that was seen is no longer ready
      rcases h.visited s (by rw [hphase]; exact hvisited) with hdone | hnew | hnil
      · exact absurd hdone hfresh.2.1
      · exact absurd hnew hfresh.1
      · cases hnil
    · have hseen : ∀ i, Function.update visited s true i = true → i = s ∨ i ∈ w.history.done ∨ i ∈ newReadySteps := by
        intro i hi
        by_cases his : i = s
        · exact .inl his
        · rw [Function.update_of_ne his] at hi
          have := h.visited i (by rw [hphase]; exact hi)
          rw [hphase] at this
          exact .inr (this.imp_right (Or.resolve_right · (by simp)))
      split
      · refine accounted_bypass hbuild { hpop with accounted := ?_, visited := ?_ } rfl hfresh.2.2
        · simpa only [hphase, Phase.newReadySteps] using hpop.accounted
        · intro i hi
          rcases hseen i hi with his | hi
          · exact .inr (.inr (mem_singleton.mpr his))
          · exact hi.imp_right .inl
      · refine Scheduled.accounted_of_active
          { hpop with accounted := ?_, visited := ?_, started := ?_ } rfl
        · refine hpop.accounted.trans (perm_iff_count.mpr fun a => ?_)
          simp only [hphase, Phase.newReadySteps, count_append, count_nil]
          omega
        · intro i hi
          refine (hseen i hi).elim (fun his => ?_) fun hi => hi.imp_right fun hi => ?_
          · exact .inr (.inl (mem_append_right _ (mem_singleton.mpr his)))
          · exact .inl (mem_append_left _ hi)
        · exact h.started

theorem accounted_enqueueStep (hphase : w.phase = .enqueueing) (hs : w.build.readySteps.getLast? = some s) :
    Accounted params build₀ (w.enqueueStep params s) := by
  have hscheduled : Scheduled params build₀ [s] (w.takeReady params s) := (h.pop hs).congr rfl rfl rfl rfl rfl rfl rfl
  have hphase₁ : (w.takeReady params s).phase = .enqueueing := hphase
  rw [World.enqueueStep]
  split
  · exact accounted_bypass hbuild hscheduled (by rw [hphase₁]; rfl)
      (h.fresh_of_ready (mem_of_getLast? hs)).2.2
  · rw [World.invoke]
    split
    · next disk failure hprepare =>
      obtain ⟨error, rfl⟩ := prepareCommand_failure (congrArg Prod.snd hprepare)
      have hdisk : Scheduled params build₀ [s] { w.takeReady params s with disk } :=
        hscheduled.congr rfl rfl rfl rfl rfl rfl rfl
      exact hdisk.accounted_throw (by simp)
    · next disk _ =>
      refine (hscheduled.start ?_ disk).accounted_of_active ?_
      · rw [hphase₁]
        rfl
      · exact congrArg Phase.active hphase₁

theorem accounted_enqueue (hphase : w.phase = .enqueueing) {canRunMore : Bool}
    (hrunner : ¬ (w.running = [] ∧ canRunMore = false)) : Accounted params build₀ (w.enqueue params canRunMore) := by
  have hwaiting : (w.running = [] → w.build.Exhausted) → Accounted params build₀ { w with phase := .waiting } := by
    intro hidle
    refine ⟨⟨[], h.congr rfl rfl rfl ?_ ?_ rfl rfl, fun _ => rfl⟩, hidle, fun _ => nofun⟩ <;>
      rw [hphase] <;> rfl
  rw [World.enqueue]
  split
  · next hready =>
    exact hwaiting fun _ => .inl (getLast?_eq_none_iff.mp hready)
  · next s hs =>
    split
    · next hstop =>
      refine hwaiting fun hrunning => .inr ?_
      have hmore : canRunMore = true := by simpa [hrunning] using hrunner
      simpa [hmore] using hstop
    · exact accounted_enqueueStep hbuild h hphase hs

theorem accounted_complete (hphase : w.phase = .waiting) (hs : s ∈ w.running) (result : CommandResult) :
    Accounted params build₀ (w.complete params s result) := by
  have htake : ∀ disk, Scheduled params build₀ [s]
      { w with disk, phase := .enqueueing, running := w.running.erase s } := fun disk =>
    h.takeRunning hs hphase disk .enqueueing rfl rfl
  rw [World.complete]
  rcases commandDone_cases params w.clock w.disk w.build s result with
    ⟨error, hdone⟩ | ⟨disk, outputs, inputs, -, -, -, ⟨-, hdone⟩ | ⟨-, hdone⟩⟩
  · simp only [hdone]
    exact ((htake _).accounted_throw (by simp))
  · rw [hdone]
    generalize (if (params.manifest.steps s).logged = true then _ else disk) = disk'
    have hwritten : Scheduled params build₀ [s] { w with
        disk := disk', phase := .enqueueing, running := w.running.erase s
        build.writtenFiles := outputs.writtenFiles } :=
      (htake disk').congr rfl rfl rfl rfl rfl rfl rfl
    rcases hwritten.markDone hbuild outputs.fileIds false nofun with hmark | ⟨build, hmark, hscheduled⟩
    · simp only [hmark, Except.map]
      exact (htake disk').accounted_throw (by simp)
    · simp only [hmark, Except.map]
      exact hscheduled.accounted_of_active rfl
  · simp only [hdone]
    exact ((htake disk).fail rfl outputs.writtenFiles).accounted_of_active rfl

end

theorem Accounted.next (h : Accounted params build₀ w) {event : Event σ n} (hnext : w.next params event = some w') :
    Accounted params build₀ w' := by
  cases World.happens_of_next hnext with
  | discard hphase => exact accounted_discard hbuild (h.holdsNothing (by simp [hphase])) hphase
  | enqueue hphase hrunner =>
    exact accounted_enqueue hbuild (h.holdsNothing (by simp [hphase])) hphase hrunner
  | commandDone hphase hs =>
    exact accounted_complete hbuild (h.holdsNothing (by simp [hphase])) hphase hs _
  | effect | tick =>
    obtain ⟨holding, hscheduled, hnil⟩ := h.scheduled
    exact ⟨⟨holding, hscheduled.congr rfl rfl rfl rfl rfl rfl rfl, hnil⟩, h.idle, h.noAssertionFailed⟩
  | interrupt hphase =>
    refine ⟨⟨[], (h.holdsNothing (by simp [hphase])).congr rfl rfl rfl ?_ ?_ rfl rfl, fun _ => rfl⟩,
      fun hresult => absurd rfl hresult, fun _ => nofun⟩ <;> rw [hphase] <;> rfl
  | finish hphase hrunning =>
    have hidle : w.running = [] → w.build.Exhausted := by
      have := h.idle
      rwa [World.Idle, hphase] at this
    refine ⟨⟨[], (h.holdsNothing (by simp [hphase])).congr rfl rfl rfl ?_ ?_ rfl rfl,
      fun _ => rfl⟩, fun _ => ⟨hrunning, hidle hrunning, rfl⟩, fun _ => nofun⟩ <;> rw [hphase] <;> rfl

theorem Accounted.reaches (h : Accounted params build₀ w) {Allowed : World σ n → Event σ n → Prop}
    (hreaches : World.Reaches params Allowed w w') : Accounted params build₀ w' := by
  induction hreaches with
  | refl => exact h
  | step _ _ hnext ih => exact ih.next hbuild hnext

end

theorem Scheduled.done_of_dependsOn (h : Scheduled params build₀ holding w) {j : Fin n} (hi : i ∈ w.history.entered)
    (hdepends : Build.DependsOn params.manifest params.invocations i j) : j ∈ w.history.done := by
  induction hdepends with
  | single hedge => exact ((h.entered i).mp hi).2 _ hedge
  | tail _ hedge ih => exact ((h.entered _).mp (h.mem_entered (by simp [ih]))).2 _ hedge

theorem Scheduled.done_of_grounded (hbuild : Build.Constructed params.manifest params.invocations stepsToBuild build₀)
    (h : Scheduled params build₀ [] w) (hready : w.build.readySteps = []) (hnew : w.phase.newReadySteps = [])
    (hrunning : w.running = []) (hfailed : w.history.failed = []) (hi : (build₀.stepNodes i).shouldBuild = true)
    (hgrounded : Search.Grounded (Build.Edge params.manifest params.invocations) i) : i ∈ w.history.done := by
  have hdone : ∀ i, i ∈ w.history.entered ↔ i ∈ w.history.done := by
    intro i
    rw [h.accounted.mem_iff, hready, hnew, hrunning, hfailed]
    simp
  induction hgrounded with
  | intro i _ ih =>
    exact (hdone i).mp ((h.entered i).mpr ⟨hi, fun j hj => ih j hj (hbuild.closed i hi j hj)⟩)

theorem Scheduled.ready_of_exhausted (h : Scheduled params build₀ holding w)
    (hallowed : 0 < build₀.remainingFailures.toInt) (hfailed : w.history.failed = [])
    (hexhausted : w.build.Exhausted) : w.build.readySteps = [] := by
  refine hexhausted.resolve_right fun hzero => ?_
  have hremaining := h.remaining hallowed.le
  rw [hzero, hfailed, show (0 : Int32).toInt = 0 from rfl] at hremaining
  simp only [length_nil] at hremaining
  omega

theorem toInt_failuresAllowed {failuresAllowed : UInt64} (h : failuresAllowed.toNat < 2 ^ 31) :
    failuresAllowed.toUInt32.toInt32.toInt = failuresAllowed.toNat := by
  rw [show failuresAllowed.toUInt32.toInt32.toInt = failuresAllowed.toUInt32.toBitVec.toInt from rfl,
    BitVec.toInt_eq_toNat_of_lt]
  · simp
    omega
  · simp
    omega

end

/-- The schedule of a build. The number of failures allowed is positive and fits into an `int`,
as the command line gives it. -/
theorem build_schedule {σ : Type} {n : Nat} (params : BuildCommandParameters σ n)
    (hacyclic : Build.Acyclic params.manifest params.invocations) (hpositive : 0 < params.failuresAllowed)
    (hallowed : params.failuresAllowed.toNat < 2 ^ 31) (stepsToBuild : List (Fin n)) (disk : Disk σ) (clock : Int64) :
    ∃ build, Build.construct params.manifest params.invocations params.failuresAllowed stepsToBuild = .ok build ∧
      ∀ w, World.Reaches params (fun _ _ => True) (World.initial disk clock build) w →
        (∀ i, (w.build.stepNodes i).shouldBuild = true → (w.build.stepNodes i).dependencies =
          (Build.edges params.manifest params.invocations i).countP (· ∉ w.history.done)) ∧
        (∀ what, w.phase ≠ .thrown (.assertionFailed what)) ∧
        w.history.entered.Nodup ∧
        (∀ i ∈ w.history.started ++ w.history.skipped,
          ∀ j, Build.DependsOn params.manifest params.invocations i j → j ∈ w.history.done) ∧
        (∀ j ∈ w.history.failed, ∀ i, Build.DependsOn params.manifest params.invocations i j → i ∉ w.history.started) ∧
        (w.history.failed = [] → (w.phase = .waiting ∧ w.running = [] ∨ ∃ r, r ≠ .interrupted ∧ w.phase = .finished r) →
          ∀ i, (w.build.stepNodes i).shouldBuild = true → i ∈ w.history.done) := by
  obtain ⟨build, hconstruct⟩ := Build.construct_succeeds hacyclic params.failuresAllowed stepsToBuild
  obtain ⟨hbuild, hremaining⟩ := Build.construct_spec hconstruct
  have hpos : 0 < build.remainingFailures.toInt := by
    rw [hremaining, toInt_failuresAllowed hallowed]
    exact Int.natCast_pos.mpr (UInt64.lt_iff_toNat_lt.mp hpositive)
  refine ⟨build, hconstruct, fun w hreaches => ?_⟩
  have h : Accounted params build w := Accounted.reaches hbuild
    ((Scheduled.initial hbuild disk clock).accounted_of_active rfl) hreaches
  obtain ⟨holding, hscheduled, -⟩ := h.scheduled
  have hbegun : ∀ i ∈ w.history.started ++ w.history.skipped, i ∈ w.history.entered := by
    intro i hi
    refine hscheduled.mem_entered ?_
    rcases mem_append.mp hi with hi | hi
    · rcases hscheduled.started i hi with hi | hi | hi | ⟨hi, -⟩ <;> simp [hi]
    · simp [hscheduled.skipped hi]
  refine ⟨fun i hi => hscheduled.dependencies i (hscheduled.shouldBuild i ▸ hi), h.noAssertionFailed,
    hscheduled.nodup, fun i hi j hij => hscheduled.done_of_dependsOn (hbegun i hi) hij,
    fun j hj i hij hi => ?_, fun hfailed hphase i hi => ?_⟩
  · have hdone := hscheduled.done_of_dependsOn (hbegun i (mem_append_left _ hi)) hij
    exact (hscheduled.only_done hdone).2.2 hj
  · rw [hscheduled.shouldBuild] at hi
    have hidle := h.idle
    rw [World.Idle] at hidle
    rcases hphase with ⟨hphase, hrunning⟩ | ⟨r, hr, hphase⟩
    · rw [hphase] at hidle
      have hnothing := h.holdsNothing (by simp [hphase])
      exact hnothing.done_of_grounded hbuild (hnothing.ready_of_exhausted hpos hfailed (hidle hrunning))
        (by rw [hphase]; rfl) hrunning hfailed hi (hacyclic.grounded i)
    · rw [hphase] at hidle
      obtain ⟨hrunning, hexhausted, -⟩ := hidle hr
      have hnothing := h.holdsNothing (by simp [hphase])
      exact hnothing.done_of_grounded hbuild (hnothing.ready_of_exhausted hpos hfailed hexhausted)
        (by rw [hphase]; rfl) hrunning hfailed hi (hacyclic.grounded i)

def chain : CompiledManifest 2 where
  steps i :=
    { hash := .repeated i.val.toUInt8
      dependencies := if i = 1 then [0] else []
      command := [1] }

def chainParameters : BuildCommandParameters FlatFiles 2 where
  fileSystem := flatFileSystem
  manifest := chain
  invocations := {}
  cleanSteps _ := false
  fingerprintMatchesMemo _ := none
  failuresAllowed := 1

theorem build_schedule_of_chain : ∃ build, Build.construct chain {} 1 [1] = .ok build ∧
      ∀ w, World.Reaches chainParameters (fun _ _ => True) (World.initial ⟨[], ⟨emptyLog, []⟩⟩ 0 build) w →
        1 ∈ w.history.started → 0 ∈ w.history.done := by
  obtain ⟨build, hconstruct, hbuild⟩ := build_schedule chainParameters
    (Build.acyclic_of_lt _ _ (by decide)) (by decide) (by decide) [1]
    ⟨[], ⟨emptyLog, []⟩⟩ 0
  refine ⟨build, hconstruct, fun w hw hstarted => ?_⟩
  refine (hbuild w hw).2.2.2.1 1 (mem_append_left _ hstarted) 0 (.single ?_)
  exact (by decide : 0 ∈ Build.edges chain {} 1)

end Shuriken
