import Shuriken.Build.Cycles
import Shuriken.Build.OneWriter

/-!
# Progress

The calls that a build makes to its `BuildStatus`, from which the progress is
printed. Each step that was not discarded is started at most once and finished
only after that, and a build that succeeds has finished all of them.
-/
namespace Shuriken
open Option Except List Nat

inductive StatusCall (n : Nat) where
  /-- The call of `make_build_status` -/
  | makeBuildStatus (totalSteps : Int)
  | stepStarted (step : Fin n)
  | stepFinished (step : Fin n) (success : Bool)
  deriving DecidableEq

namespace StatusCall
variable {n : Nat}

def isStarted : StatusCall n → Bool
  | stepStarted _ => true
  | _ => false

def isFinished : StatusCall n → Bool
  | stepFinished .. => true
  | _ => false

end StatusCall

def startedSteps {n : Nat} (calls : List (StatusCall n)) : Nat := calls.countP (·.isStarted)

def finishedSteps {n : Nat} (calls : List (StatusCall n)) : Nat := calls.countP (·.isFinished)

section
variable {σ : Type} {n : Nat}

def countStepsToBuild (manifest : CompiledManifest n) (build : Build n) : Nat :=
  (finRange n).countP fun i => (build.stepNodes i).shouldBuild && !(manifest.steps i).phony

variable (params : BuildCommandParameters σ n)

def reportedStatus (now : Int64) (disk : Disk σ) (build : Build n) (stepIdx : Fin n)
    (result : CommandResult) : Option ExitStatus :=
  match deleteCommandFiles params now disk (params.manifest.steps stepIdx) result.exitStatus with
  | (_, some _) => none
  | (disk, none) =>
    match result.outputFiles.foldlM (fingerprintOutput params now disk)
        { writtenFiles := build.writtenFiles, exitStatus := result.exitStatus },
      fingerprintInputs params now disk result.inputFiles with
    | .ok outputs, .ok _ => some outputs.exitStatus
    | _, _ => none

/-- The calls that `enqueueBuildCommand` makes for a step. Phony steps are not reported. -/
def World.enqueueCalls (w : World σ n) (stepIdx : Fin n) : List (StatusCall n) :=
  let w := w.takeReady params stepIdx
  if (params.manifest.steps stepIdx).phony then []
  else
    .stepStarted stepIdx ::
      if canSkipBuildCommand params w.disk.fs w.build stepIdx then [.stepFinished stepIdx true] else []

def World.statusCalls (w : World σ n) : Event σ n → List (StatusCall n)
  | .discard =>
    match w.phase, w.build.readySteps with
    | .discarding _ _ discardedSteps, [] =>
      [.makeBuildStatus (countStepsToBuild params.manifest w.build - discardedSteps)]
    | _, _ => []
  | .enqueue canRunMore =>
    match w.build.readySteps.getLast? with
    | none => []
    | some stepIdx =>
      if !canRunMore || w.build.remainingFailures == 0 then [] else w.enqueueCalls params stepIdx
  | .commandDone stepIdx result =>
    if (params.manifest.steps stepIdx).phony then []
    else
      match reportedStatus params w.clock w.disk w.build stepIdx result with
      | none => []
      | some exitStatus => [.stepFinished stepIdx (exitStatus == .success)]
  | _ => []

inductive World.ReachesCalling (w₀ : World σ n) : List (StatusCall n) → World σ n → Prop
  | refl : ReachesCalling w₀ [] w₀
  | step {calls : List (StatusCall n)} {w w' : World σ n} {event : Event σ n} :
      ReachesCalling w₀ calls w → w.next params event = some w' →
      ReachesCalling w₀ (calls ++ w.statusCalls params event) w'

def reported (steps : List (Fin n)) : Nat := steps.countP fun i => !(params.manifest.steps i).phony

/-- The number of calls, since the status object was made for a build with so many discarded steps. -/
structure Counted (discarded : Nat) (calls : List (StatusCall n)) (w : World σ n) : Prop where
  madeOnce : ∀ total, .makeBuildStatus total ∉ calls
  invoked : startedSteps calls = w.build.invokedCommands
  started : startedSteps calls + discarded =
    reported params w.running + reported params w.history.done + reported params w.history.failed
  finished : finishedSteps calls + discarded = reported params w.history.done + reported params w.history.failed
  ordered : ∀ p, p <+: calls → finishedSteps p ≤ startedSteps p

inductive Progress (build₀ : Build n) (w : World σ n) : List (StatusCall n) → Prop
  | discarding {visited : Fin n → Bool} {newReadySteps : List (Fin n)} {discardedSteps : Nat} :
      w.phase = .discarding visited newReadySteps discardedSteps →
      discardedSteps = reported params w.history.done → w.running = [] → w.history.failed = [] →
      w.build.invokedCommands = 0 → Progress build₀ w []
  | building {discardedSteps : Nat} {calls : List (StatusCall n)} :
      (∀ visited newReadySteps discarded, w.phase ≠ .discarding visited newReadySteps discarded) →
      Counted params discardedSteps calls w →
      Progress build₀ w
        (.makeBuildStatus (countStepsToBuild params.manifest build₀ - discardedSteps) :: calls)

variable {params}

theorem startedSteps_append (calls calls' : List (StatusCall n)) :
    startedSteps (calls ++ calls') = startedSteps calls + startedSteps calls' := countP_append

theorem finishedSteps_append (calls calls' : List (StatusCall n)) :
    finishedSteps (calls ++ calls') = finishedSteps calls + finishedSteps calls' := countP_append

@[simp] theorem startedSteps_makeBuildStatus (total : Int) (calls : List (StatusCall n)) :
    startedSteps (.makeBuildStatus total :: calls) = startedSteps calls := countP_cons_of_neg nofun

@[simp] theorem finishedSteps_makeBuildStatus (total : Int) (calls : List (StatusCall n)) :
    finishedSteps (.makeBuildStatus total :: calls) = finishedSteps calls := countP_cons_of_neg nofun

theorem reported_append (steps steps' : List (Fin n)) :
    reported params (steps ++ steps') = reported params steps + reported params steps' := countP_append

theorem reported_singleton (i : Fin n) : reported params [i] = if (params.manifest.steps i).phony then 0 else 1 := by
  cases hphony : (params.manifest.steps i).phony <;> simp [reported, hphony]

theorem reported_erase {steps : List (Fin n)} {i : Fin n} (hi : i ∈ steps) :
    reported params (steps.erase i) + reported params [i] = reported params steps := by
  rw [← reported_append]
  exact ((perm_append_comm.trans (perm_cons_erase hi).symm).countP_eq _)

variable {w w' : World σ n} {build₀ : Build n} {discarded : Nat} {calls : List (StatusCall n)}

theorem Counted.extend (h : Counted params discarded calls w) {new : List (StatusCall n)}
    (hnew : ∀ total, .makeBuildStatus total ∉ new)
    (hinvoked : w'.build.invokedCommands = w.build.invokedCommands + startedSteps new)
    (hdone : reported params w'.history.done + reported params w'.history.failed =
      reported params w.history.done + reported params w.history.failed + finishedSteps new)
    (hrunning : reported params w'.running + finishedSteps new = reported params w.running + startedSteps new)
    (hordered : ∀ p, p <+: new → finishedSteps p ≤ reported params w.running + startedSteps p) :
    Counted params discarded (calls ++ new) w' where
  madeOnce total hmem := (mem_append.mp hmem).elim (h.madeOnce total) (hnew total)
  invoked := by rw [startedSteps_append, h.invoked, hinvoked]
  started := by
    have hstarted := h.started
    rw [startedSteps_append]
    omega
  finished := by
    have hfinished := h.finished
    rw [finishedSteps_append]
    omega
  ordered p hp := by
    have hstarted := h.started
    have hfinished := h.finished
    rcases prefix_or_prefix_of_prefix hp (prefix_append calls new) with hp | ⟨q, rfl⟩
    · exact h.ordered p hp
    · have hq := hordered q ((prefix_append_right_inj calls).mp hp)
      rw [finishedSteps_append, startedSteps_append]
      omega

variable {s : Fin n} {disk : Disk σ}

theorem bypass_of_active (hactive : ∀ failure, (w.bypass params s).phase ≠ .thrown failure) :
    ∃ build, w.bypass params s = w.markDone s true build ∧ build.invokedCommands = w.build.invokedCommands := by
  rw [World.bypass] at hactive ⊢
  cases hbypassed : commandBypassed params w.build s with
  | error failure =>
    rw [hbypassed] at hactive
    exact absurd rfl (hactive failure)
  | ok build =>
    obtain ⟨fileIds, -, hmark⟩ := bind_eq_ok.mp hbypassed
    exact ⟨build, rfl, (Build.markStepNodeAsDone_files hmark).2.2.2⟩

theorem Counted.quiet (h : Counted params discarded calls w)
    (hinvoked : w'.build.invokedCommands = w.build.invokedCommands) (hrunning : w'.running = w.running)
    (hhistory : w'.history = w.history) : Counted params discarded (calls ++ []) w' := by
  refine h.extend nofun hinvoked (by rw [hhistory]; rfl) (by rw [hrunning]; rfl) fun p hp => ?_
  rw [prefix_nil.mp hp]
  exact zero_le _

theorem progress_discard (hscheduled : Scheduled params build₀ [] w) {visited : Fin n → Bool}
    {newReadySteps : List (Fin n)} {discardedSteps : Nat}
    (hphase : w.phase = .discarding visited newReadySteps discardedSteps)
    (hdiscarded : discardedSteps = reported params w.history.done) (hrunning : w.running = [])
    (hfailed : w.history.failed = []) (hinvoked : w.build.invokedCommands = 0)
    (hactive : ∀ failure, (w.discard params visited newReadySteps discardedSteps).phase ≠ .thrown failure) :
    Progress params build₀ (w.discard params visited newReadySteps discardedSteps) (w.statusCalls params .discard) := by
  rw [World.discard] at hactive ⊢
  split at hactive <;> rename_i hlast
  · have hready := getLast?_eq_none_iff.mp hlast
    simp only [World.statusCalls, hphase, hready, countStepsToBuild, hscheduled.shouldBuild]
    refine .building (by simp) ⟨by simp, hinvoked.symm, ?_, ?_, fun p hp => ?_⟩
    · rw [hrunning, hfailed, hdiscarded]
      simp [startedSteps, reported]
    · rw [hfailed, hdiscarded]
      simp [finishedSteps, reported]
    · rw [prefix_nil.mp hp]
      exact le_refl _
  · next s =>
    have hready : w.build.readySteps ≠ [] := fun h => by cases (congrArg getLast? h).symm.trans hlast
    have hcalls : w.statusCalls params .discard = [] := by
      rw [World.statusCalls, hphase]
      split
      · next hnil => exact absurd hnil hready
      · rfl
    rw [hcalls]
    simp only at hactive ⊢
    split at hactive <;> rename_i hvisited
    · rw [if_pos hvisited]
      exact .discarding hphase hdiscarded hrunning hfailed hinvoked
    · rw [if_neg hvisited]
      split at hactive <;> rename_i hclean
      · rw [if_pos hclean]
        obtain ⟨build, hbypass, hcommands⟩ := bypass_of_active hactive
        rw [hbypass]
        refine .discarding rfl ?_ hrunning hfailed (hcommands.trans hinvoked)
        simp only [World.markDone, reported_append, reported_singleton, hdiscarded]
        split <;> rfl
      · rw [if_neg hclean]
        exact .discarding rfl hdiscarded hrunning hfailed hinvoked

theorem ordered_stepStarted {rest p : List (StatusCall n)} (hrest : finishedSteps rest ≤ 1)
    (hp : p <+: .stepStarted s :: rest) : finishedSteps p ≤ startedSteps p := by
  rcases prefix_cons_iff.mp hp with rfl | ⟨q, rfl, hq⟩
  · exact le_refl _
  · have hle : finishedSteps q ≤ finishedSteps rest := hq.sublist.countP_le
    have hfinished : finishedSteps (.stepStarted s :: q) = finishedSteps q := countP_cons_of_neg nofun
    have hstarted : startedSteps (.stepStarted s :: q) = startedSteps q + 1 := countP_cons_of_pos rfl
    omega

variable (params) in
theorem enqueueCalls_spec (w : World σ n) (s : Fin n) :
    let skips := canSkipBuildCommand params (w.takeReady params s).disk.fs (w.takeReady params s).build s
    (∀ total, .makeBuildStatus total ∉ w.enqueueCalls params s) ∧
      startedSteps (w.enqueueCalls params s) = reported params [s] ∧
      finishedSteps (w.enqueueCalls params s) = (if skips then reported params [s] else 0) ∧
      ∀ p, p <+: w.enqueueCalls params s → finishedSteps p ≤ startedSteps p := by
  simp only [World.enqueueCalls, reported_singleton]
  generalize canSkipBuildCommand params (w.takeReady params s).disk.fs (w.takeReady params s).build s = skips
  cases (params.manifest.steps s).phony with
  | true =>
    refine ⟨nofun, rfl, (ite_self 0).symm, fun p hp => ?_⟩
    rw [prefix_nil.mp hp]
    exact le_refl _
  | false =>
    cases skips with
    | true => exact ⟨by simp, rfl, rfl, fun p => ordered_stepStarted (le_refl 1)⟩
    | false => exact ⟨by simp, rfl, rfl, fun p => ordered_stepStarted (zero_le 1)⟩

section
variable (h : Counted params discarded calls w)
include h

theorem counted_enqueueStep (hactive : ∀ failure, (w.enqueueStep params s).phase ≠ .thrown failure) :
    Counted params discarded (calls ++ w.enqueueCalls params s) (w.enqueueStep params s) ∧
      (w.enqueueStep params s).phase = w.phase := by
  obtain ⟨hmade, hstarted, hfinished, hordered⟩ := enqueueCalls_spec params w s
  have hinvoked : (w.takeReady params s).build.invokedCommands =
      w.build.invokedCommands + startedSteps (w.enqueueCalls params s) := by
    rw [hstarted, reported_singleton]
    rfl
  rw [World.enqueueStep] at hactive ⊢
  split at hactive <;> rename_i hskip
  · obtain ⟨build, hbypass, hcommands⟩ := bypass_of_active hactive
    rw [if_pos hskip] at hfinished ⊢
    rw [hbypass]
    refine ⟨h.extend hmade (hcommands.trans hinvoked) ?_ ?_ fun p hp =>
      (hordered p hp).trans (le_add_left _ _), rfl⟩
    · rw [hfinished]
      change reported params (w.history.done ++ [s]) + reported params w.history.failed = _
      rw [reported_append]
      omega
    · rw [hfinished, hstarted]
      rfl
  · rw [if_neg hskip] at hfinished ⊢
    rw [World.invoke] at hactive ⊢
    split at hactive <;> rename_i hprepare
    · exact absurd rfl (hactive _)
    · refine ⟨h.extend hmade hinvoked (by rw [hfinished]; rfl) ?_ fun p hp =>
        (hordered p hp).trans (le_add_left _ _), rfl⟩
      rw [hfinished, hstarted]
      exact reported_append w.running [s]

theorem counted_enqueue
    (hbuilding : ∀ visited newReadySteps discarded, w.phase ≠ .discarding visited newReadySteps discarded)
    {canRunMore : Bool} (hactive : ∀ failure, (w.enqueue params canRunMore).phase ≠ .thrown failure) :
    Counted params discarded (calls ++ w.statusCalls params (.enqueue canRunMore)) (w.enqueue params canRunMore) ∧
      ∀ visited newReadySteps discarded,
        (w.enqueue params canRunMore).phase ≠ .discarding visited newReadySteps discarded := by
  rw [World.enqueue] at hactive ⊢
  rw [World.statusCalls]
  cases hlast : w.build.readySteps.getLast? with
  | none => exact ⟨h.quiet rfl rfl rfl, by simp⟩
  | some s =>
    rw [hlast] at hactive
    simp only at hactive ⊢
    split at hactive <;> rename_i hstop
    · rw [if_pos hstop, if_pos hstop]
      exact ⟨h.quiet rfl rfl rfl, by simp⟩
    · rw [if_neg hstop, if_neg hstop]
      obtain ⟨hcounted, hsame⟩ := counted_enqueueStep h hactive
      exact ⟨hcounted, fun _ _ _ heq => hbuilding _ _ _ (hsame.symm.trans heq)⟩

theorem counted_complete (hs : s ∈ w.running) (result : CommandResult)
    (hactive : ∀ failure, (w.complete params s result).phase ≠ .thrown failure) :
    Counted params discarded (calls ++ w.statusCalls params (.commandDone s result)) (w.complete params s result) ∧
      (w.complete params s result).phase = .enqueueing := by
  rw [World.complete] at hactive ⊢
  rcases commandDone_cases params w.clock w.disk w.build s result with
    ⟨error, hdone⟩ | ⟨disk, outputs, inputs, hdelete, houtputs, hinputs, hdone⟩
  · rw [hdone] at hactive
    exact absurd rfl (hactive _)
  · have hcalls : w.statusCalls params (.commandDone s result) = if (params.manifest.steps s).phony then []
        else [.stepFinished s (outputs.exitStatus == .success)] := by
      simp only [World.statusCalls, reportedStatus, hdelete, houtputs, hinputs]
    have hstarted : startedSteps (w.statusCalls params (.commandDone s result)) = 0 := by
      rw [hcalls]
      split <;> rfl
    have hfinished : finishedSteps (w.statusCalls params (.commandDone s result)) = reported params [s] := by
      rw [hcalls, reported_singleton]
      split <;> rfl
    have hmade : ∀ total, .makeBuildStatus total ∉ w.statusCalls params (.commandDone s result) := by
      rw [hcalls]
      split <;> simp
    have herase := @reported_erase _ _ params _ _ hs
    have hordered : ∀ p, p <+: w.statusCalls params (.commandDone s result) →
        finishedSteps p ≤ reported params w.running + startedSteps p := by
      intro p hp
      have hle : finishedSteps p ≤ finishedSteps (w.statusCalls params (.commandDone s result)) := hp.sublist.countP_le
      omega
    rcases hdone with ⟨-, hdone⟩ | ⟨-, hdone⟩
    · rw [hdone] at hactive ⊢
      cases hmark : Build.markStepNodeAsDone params.manifest params.invocations s outputs.fileIds false
          { w.build with writtenFiles := outputs.writtenFiles } with
      | error failure =>
        rw [hmark] at hactive
        exact absurd rfl (hactive failure)
      | ok build =>
        refine ⟨h.extend hmade ?_ ?_ ?_ hordered, rfl⟩
        · rw [hstarted]
          exact (Build.markStepNodeAsDone_files hmark).2.2.2
        · change reported params (w.history.done ++ [s]) + reported params w.history.failed = _
          rw [hfinished, reported_append]
          omega
        · rw [hfinished, hstarted]
          exact herase
    · rw [hdone]
      refine ⟨h.extend hmade (by rw [hstarted]; rfl) ?_ ?_ hordered, rfl⟩
      · change reported params w.history.done + reported params (w.history.failed ++ [s]) = _
        rw [hfinished, reported_append]
        omega
      · rw [hfinished, hstarted]
        exact herase

end

/-- Every event that does not throw keeps the counts. -/
theorem Progress.next (h : Progress params build₀ w calls) (hscheduled : Scheduled params build₀ [] w)
    {event : Event σ n} (hnext : w.next params event = some w') (hactive : ∀ failure, w'.phase ≠ .thrown failure) :
    Progress params build₀ w' (calls ++ w.statusCalls params event) := by
  cases h with
  | discarding hphase hdiscarded hrunning hfailed hinvoked =>
    rw [nil_append]
    cases World.happens_of_next hnext with
    | discard hdiscarding =>
      obtain ⟨rfl, rfl, rfl⟩ := Phase.discarding.inj (hdiscarding.symm.trans hphase)
      exact progress_discard hscheduled hphase hdiscarded hrunning hfailed hinvoked hactive
    | tick => exact .discarding hphase hdiscarded hrunning hfailed hinvoked
    | effect hs =>
      rw [hrunning] at hs
      nomatch hs
    | enqueue h | commandDone h | interrupt h | finish h => nomatch hphase.symm.trans h
  | building hphase hcounted =>
    rw [cons_append]
    cases World.happens_of_next hnext with
    | discard hdiscarding => exact absurd hdiscarding (hphase _ _ _)
    | enqueue =>
      obtain ⟨hcounted', hbuilding⟩ := counted_enqueue hcounted hphase hactive
      exact .building hbuilding hcounted'
    | commandDone _ hs =>
      obtain ⟨hcounted', hsame⟩ := counted_complete hcounted hs _ hactive
      exact .building (fun _ _ _ h => nomatch hsame.symm.trans h) hcounted'
    | effect | tick => exact .building hphase (hcounted.quiet rfl rfl rfl)
    | interrupt | finish => exact .building nofun (hcounted.quiet rfl rfl rfl)

variable {w₀ : World σ n}

theorem World.ReachesCalling.reaches (h : w₀.ReachesCalling params calls w) :
    World.Reaches params (fun _ _ => True) w₀ w := by
  induction h with
  | refl => exact .refl
  | step _ hnext ih => exact ih.step trivial hnext

theorem World.ReachesCalling.progress (hbegun : Begun disk params w₀) (h : w₀.ReachesCalling params calls w)
    (hactive : ∀ failure, w.phase ≠ .thrown failure) : Progress params w₀.build w calls := by
  induction h with
  | refl =>
    obtain ⟨stepsToBuild, hbuild⟩ := hbegun.constructed
    rw [hbegun.initial]
    exact .discarding rfl rfl rfl rfl hbuild.invokedCommands
  | step hrun hnext ih =>
    have hbefore : ∀ failure, _ ≠ Phase.thrown failure := fun failure hthrown =>
      hactive failure (World.thrown_next hthrown hnext)
    exact (ih hbefore).next ((hbegun.accounted hrun.reaches).holdsNothing hbefore) hnext hactive

theorem Scheduled.reported_le (h : Scheduled params build₀ [] w) :
    reported params w.running + reported params w.history.done + reported params w.history.failed ≤
      countStepsToBuild params.manifest build₀ := by
  rw [← reported_append, ← reported_append, reported, countStepsToBuild, countP_eq_length_filter,
    countP_eq_length_filter]
  have hnodup : (w.running ++ w.history.done ++ w.history.failed).Nodup :=
    h.nodup_accounted.sublist (((sublist_append_right _ _).append (.refl _)).append (.refl _))
  refine ((hnodup.filter _).subperm fun i hi => ?_).length_le
  obtain ⟨hmem, hphony⟩ := mem_filter.mp hi
  have hentered : i ∈ w.history.entered := h.mem_entered (by
    simp only [nil_append, mem_append] at hmem ⊢
    tauto)
  simpa [((h.entered i).mp hentered).1] using hphony

theorem countStepsToBuild_le {done : List (Fin n)} (hdone : ∀ i, (build₀.stepNodes i).shouldBuild = true → i ∈ done) :
    countStepsToBuild params.manifest build₀ ≤ reported params done := by
  rw [reported, countStepsToBuild, countP_eq_length_filter, countP_eq_length_filter]
  refine (((nodup_finRange n).filter _).subperm fun i hi => ?_).length_le
  obtain ⟨-, hi⟩ := mem_filter.mp hi
  obtain ⟨hbuild, hphony⟩ := Bool.and_eq_true_iff.mp hi
  exact mem_filter.mpr ⟨hdone i hbuild, hphony⟩

theorem toNat_remainingFailures {r : Int32} (h : 0 ≤ r.toInt) : r.toInt64.toUInt64.toNat = r.toInt.toNat := by
  have hsame : r.toInt64.toInt = r.toInt := Int32.toInt_toInt64 r
  have hle : 0 ≤ r.toInt64 := Int64.le_iff_toInt_le.mpr (hsame ▸ h)
  exact (Int64.toNat_toBitVec_of_le hle).trans (congrArg Int.toNat hsame)

theorem result_iff (h : Scheduled params build₀ [] w)
    (hremaining : build₀.remainingFailures = params.failuresAllowed.toUInt32.toInt32)
    (hpositive : 0 < params.failuresAllowed) (hallowed : params.failuresAllowed.toNat < 2 ^ 31) :
    w.result params = if w.history.failed = [] then
      if w.build.invokedCommands = 0 then .noWorkToDo else .success else .failure := by
  have hint : build₀.remainingFailures.toInt = params.failuresAllowed.toNat := by
    rw [hremaining, toInt_failuresAllowed hallowed]
  have hleft := h.remaining (by omega)
  have hpos : 0 < params.failuresAllowed.toNat := UInt64.lt_iff_toNat_lt.mp hpositive
  have hiff : w.build.remainingFailures.toInt64.toUInt64 = params.failuresAllowed ↔ w.history.failed = [] := by
    rw [← UInt64.toNat_inj, toNat_remainingFailures (by omega), ← length_eq_zero_iff]
    omega
  rw [World.result]
  simp only [hiff]

variable {F : FileSystem σ} {manifest : CompiledManifest n} {invocations : Invocations} {failuresAllowed : UInt64}
  {specifiedSteps : List (Fin n)} {checkClock : Fin n → Int64} {clock : Int64}
  (hstart : startBuild F manifest invocations failuresAllowed specifiedSteps checkClock clock disk = .ok (params, w₀))

include hstart in
/-- While a failure is left, the build goes on with every step that no failed step is in the way of. -/
theorem keeps_going {Allowed : World σ n → Event σ n → Prop} {result : BuildResult}
    (hallowed : params.failuresAllowed.toNat < 2 ^ 31) (hreaches : World.Reaches params Allowed w₀ w)
    (hphase : w.phase = .finished result) (hresult : result ≠ .interrupted)
    (hfewer : w.history.failed.length < params.failuresAllowed.toNat) (i : Fin n) :
    i ∈ w.history.done ↔ (w.build.stepNodes i).shouldBuild = true ∧
      ∀ j ∈ w.history.failed, ¬Relation.ReflTransGen (Build.Edge params.manifest params.invocations) i j := by
  have hbegun := startBuild_begun hstart
  have haccounted := hbegun.accounted hreaches
  have hscheduled := haccounted.holdsNothing (by simp [hphase])
  have hidle := haccounted.idle
  rw [World.Idle, hphase] at hidle
  obtain ⟨hrunning, hexhausted, -⟩ := hidle hresult
  have hready : w.build.readySteps = [] := by
    refine hexhausted.resolve_right fun hzero => ?_
    have hleft := hscheduled.remaining
    rw [hzero, hbegun.remaining, toInt_failuresAllowed hallowed, show (0 : Int32).toInt = 0 from rfl] at hleft
    omega
  have hentered : ∀ i, i ∈ w.history.entered ↔ i ∈ w.history.done ∨ i ∈ w.history.failed := by
    intro i
    rw [hscheduled.accounted.mem_iff, hready, hphase, hrunning]
    simp [Phase.newReadySteps]
  rw [hscheduled.shouldBuild]
  constructor
  · intro hdone
    have hi := (hentered i).mpr (.inl hdone)
    refine ⟨((hscheduled.entered i).mp hi).1, fun j hj hpath => (hscheduled.only_done ?_).2.2 hj⟩
    rcases Relation.reflTransGen_iff_eq_or_transGen.mp hpath with rfl | hdepends
    · exact hdone
    · exact hscheduled.done_of_dependsOn hi hdepends
  · rintro ⟨hi, hclear⟩
    obtain ⟨stepsToBuild, hbuild⟩ := hbegun.constructed
    induction startBuild_grounded hstart hi with
    | intro i _ ih =>
      have hdone : ∀ j ∈ params.edges i, j ∈ w.history.done := fun j hj =>
        ih j hj (hbuild.closed i hi j hj) fun k hk hpath => hclear k hk (.head hj hpath)
      exact ((hentered i).mp ((hscheduled.entered i).mpr ⟨hi, hdone⟩)).resolve_right (hclear i · .refl)

/-- The first step of the chain fails, so that the second one is left. -/
theorem keeps_going_past_failure : ∃ (params : BuildCommandParameters FlatFiles 2) (w : World FlatFiles 2),
    w.history.failed = [0] ∧ 0 ∈ params.edges 1 ∧ 1 ∉ w.history.done := by
  have h : ∃ params w₀, openBuild .valueFirst flatFileSystem chain 2 [1] (fun _ => 10) 10 [] none = some (params, w₀) ∧
      ∃ w, w₀.run (fun _ _ => true) params [.discard, .discard, .enqueue true, .enqueue true,
          .commandDone 0 { exitStatus := .failure }, .enqueue true, .finish] = some w ∧
        params.failuresAllowed = 2 ∧ w.returned = some .failure ∧ w.history.failed = [0] ∧ 0 ∈ params.edges 1 := by
    decide +kernel
  obtain ⟨params, w₀, hopen, w, hrun, hallowed, hreturned, hfailed, hedge⟩ := h
  obtain ⟨_, _, -, hstart⟩ := openBuild_eq_some hopen
  have hreaches : World.Reaches params (fun _ _ => True) w₀ w :=
    World.reaches_of_run (fun _ _ _ _ _ => trivial) .refl hrun
  have hiff := keeps_going hstart (by simp [hallowed]) hreaches (World.phase_of_returned hreturned) (by simp)
    (by simp [hfailed, hallowed]) 1
  exact ⟨params, w, hfailed, hedge, fun hdone => (hiff.mp hdone).2 0 (by simp [hfailed]) (.single hedge)⟩

def percent {n : Nat} (totalSteps : Int) (calls : List (StatusCall n)) : Option Int :=
  if totalSteps = 0 then none else some (100 * startedSteps calls / totalSteps)

include hstart in
/-- What a build that has neither thrown nor was interrupted returns, and the calls that it makes.
The status object is made once and before anything else is reported, and whenever the progress is
printed there is a step in total. The failures are recorded event by event. -/
theorem build_result_and_progress (hpositive : 0 < failuresAllowed) (hallowed : failuresAllowed.toNat < 2 ^ 31)
    (hreaches : w₀.ReachesCalling params calls w) (hactive : ∀ failure, w.phase ≠ .thrown failure) :
    (∀ result, w.phase = .finished result → result ≠ .interrupted → (result = .failure ↔ w.history.failed ≠ []) ∧
      (w.history.failed = [] → result = if startedSteps calls = 0 then .noWorkToDo else .success)) ∧
    ∃ total : Int, (calls = [] ∨ ∃ rest, calls = .makeBuildStatus total :: rest ∧
        ∀ total', .makeBuildStatus total' ∉ rest) ∧
      (∀ p, p <+: calls → finishedSteps p ≤ startedSteps p ∧ startedSteps p ≤ total ∧
        (0 < startedSteps p + finishedSteps p → (percent total p).isSome = true)) ∧
      ((w.phase = .finished .noWorkToDo ∨ w.phase = .finished .success) →
        finishedSteps calls = startedSteps calls ∧ startedSteps calls = total) ∧
      w₀.history.failed = [] ∧ w₀.build.writtenFiles = ∅ ∧ ∀ event w', w.next params event = some w' →
        (∀ failure, w'.phase ≠ .thrown failure) → w.Records params w' event := by
  have hbegun := startBuild_begun hstart
  have hrecords : w₀.history.failed = [] ∧ w₀.build.writtenFiles = ∅ ∧ ∀ event w', w.next params event = some w' →
      (∀ failure, w'.phase ≠ .thrown failure) → w.Records params w' event := by
    obtain ⟨stepsToBuild, hbuild⟩ := hbegun.constructed
    refine ⟨?_, hbuild.writtenFiles, fun event w' => World.records_next⟩
    rw [hbegun.initial]
    rfl
  obtain ⟨-, -, -, hparams⟩ := startBuild_params hstart
  rw [← hparams] at hpositive hallowed
  have haccounted := hbegun.accounted hreaches.reaches
  have hscheduled := haccounted.holdsNothing hactive
  have hbound := hscheduled.reported_le
  cases hreaches.progress hbegun hactive with
  | discarding hphase =>
    refine ⟨fun result h => (by cases hphase.symm.trans h), 0, .inl rfl, fun p hp => ?_, fun h => ?_, hrecords⟩
    · rw [prefix_nil.mp hp]
      exact ⟨le_refl 0, Int.le_refl 0, fun h => absurd h (lt_irrefl 0)⟩
    · rcases h with h | h <;> cases hphase.symm.trans h
  | @building discarded rest hphase hcounted =>
    have hstarted := hcounted.started
    have hfinished := hcounted.finished
    have hresult : ∀ result, w.phase = .finished result → result ≠ .interrupted →
        w.running = [] ∧ w.build.Exhausted ∧ result = if w.history.failed = [] then
          if startedSteps rest = 0 then .noWorkToDo else .success else .failure := by
      intro result hfinish hinterrupted
      have hidle := haccounted.idle
      rw [World.Idle, hfinish] at hidle
      obtain ⟨hrunning, hexhausted, hresult⟩ := hidle hinterrupted
      rw [hcounted.invoked]
      exact ⟨hrunning, hexhausted, hresult.trans (result_iff hscheduled hbegun.remaining hpositive hallowed)⟩
    refine ⟨fun result hfinish hinterrupted => ?_, countStepsToBuild params.manifest w₀.build - discarded,
      .inr ⟨rest, rfl, hcounted.madeOnce⟩, fun p hp => ?_, fun hfinish => ?_, hrecords⟩
    · obtain ⟨-, -, rfl⟩ := hresult result hfinish hinterrupted
      rw [startedSteps_makeBuildStatus]
      refine ⟨?_, fun hnone => if_pos hnone⟩
      by_cases hfailed : w.history.failed = []
      · rw [if_pos hfailed]
        refine iff_of_false ?_ (not_not.mpr hfailed)
        split <;> simp
      · rw [if_neg hfailed]
        exact iff_of_true rfl hfailed
    · rcases prefix_cons_iff.mp hp with rfl | ⟨q, rfl, hq⟩
      · refine ⟨le_refl 0, ?_, fun h => absurd h (lt_irrefl 0)⟩
        change (0 : Int) ≤ _
        omega
      · have hordered := hcounted.ordered q hq
        have hle : startedSteps q ≤ startedSteps rest := hq.sublist.countP_le
        rw [startedSteps_makeBuildStatus, finishedSteps_makeBuildStatus]
        refine ⟨hordered, by omega, fun hprinted => ?_⟩
        rw [percent, if_neg (by omega)]
        rfl
    · obtain ⟨result, hfinish, hresult'⟩ : ∃ result, w.phase = .finished result ∧
          (result = .noWorkToDo ∨ result = .success) := by
        rcases hfinish with h | h
        · exact ⟨_, h, .inl rfl⟩
        · exact ⟨_, h, .inr rfl⟩
      obtain ⟨hrunning, hexhausted, heq⟩ := hresult result hfinish (by rintro rfl; simp at hresult')
      have hfailed : w.history.failed = [] := by
        by_contra hne
        rw [if_neg hne] at heq
        simp [heq] at hresult'
      obtain ⟨stepsToBuild, hbuild⟩ := hbegun.constructed
      have hpos : 0 < w₀.build.remainingFailures.toInt := by
        rw [hbegun.remaining, toInt_failuresAllowed hallowed]
        exact Int.natCast_pos.mpr (UInt64.lt_iff_toNat_lt.mp hpositive)
      have hdone : countStepsToBuild params.manifest w₀.build ≤ reported params w.history.done :=
        countStepsToBuild_le fun i hi =>
          hscheduled.done_of_grounded hbuild (hscheduled.ready_of_exhausted hpos hfailed hexhausted)
            (by rw [hfinish]; rfl) hrunning hfailed hi (startBuild_grounded hstart hi)
      rw [hrunning, hfailed] at hbound hstarted
      rw [hfailed] at hfinished
      rw [startedSteps_makeBuildStatus, finishedSteps_makeBuildStatus]
      simp only [reported, countP_nil] at hbound hstarted hfinished hdone
      omega

end

/-- Both steps of the chain are run. -/
theorem build_result_and_progress_of_chain :
    ∃ params w₀ w calls, chainBuild = some (params, w₀) ∧ w₀.ReachesCalling params calls w ∧
      w.phase = .finished .success ∧ finishedSteps calls = startedSteps calls ∧ 0 < startedSteps calls := by
  have h : ∃ params w₀, chainBuild = some (params, w₀) ∧ ∃ w, w₀.run (fun _ _ => true) params unusedEvents = some w ∧
      w.returned = some .success ∧ w.history.failed = [] := by
    decide +kernel
  obtain ⟨params, w₀, hopen, w, hrun, hreturned, hfailed⟩ := h
  have hphase := World.phase_of_returned hreturned
  obtain ⟨result, left, -, hstart⟩ := openBuild_eq_some hopen
  obtain ⟨calls, hcalls⟩ : ∃ calls, w₀.ReachesCalling params calls w :=
    foldlM_invariant (P := fun w => ∃ calls, w₀.ReachesCalling params calls w)
      (fun _ _ _ _ hround ⟨_, hreaches⟩ => ⟨_, hreaches.step (filter_eq_some_iff.mp hround).1⟩) ⟨[], .refl⟩ hrun
  obtain ⟨hresult, total, -, -, hequal, -⟩ := build_result_and_progress hstart (by decide) (by decide) hcalls
    fun failure h => nomatch hphase.symm.trans h
  refine ⟨params, w₀, w, calls, hopen, hcalls, hphase, (hequal (.inr hphase)).1, pos_of_ne_zero fun hzero => ?_⟩
  have hwork := (hresult .success hphase nofun).2 hfailed
  rw [if_pos hzero] at hwork
  nomatch hwork

end Shuriken
