import Shuriken.Build.OneWriter
import Shuriken.Build.Status

/-!
# Builds with nothing to do

A build in which every step is clean or phony discards all of them. It runs no
command and returns that there was no work to do, provided that no two of the
steps have an output file in common.
-/
namespace Shuriken

section
variable {σ : Type} {n : Nat} (params : BuildCommandParameters σ n) (w₀ : World σ n)

def World.outputIds (i : Fin n) : List FileId := (params.recordedOutputs i).map (params.fileSystem.fileId w₀.disk.fs)

/-- Nothing has to be run, and no file belongs to two steps. -/
structure World.UpToDate : Prop where
  clean : ∀ i, (w₀.build.stepNodes i).shouldBuild = true →
    (params.cleanSteps i || (params.manifest.steps i).phony) = true
  fileIds : ∀ i, (w₀.build.stepNodes i).shouldBuild = true →
    outputFileIdsForBuildStep params.invocations params.fingerprintMatchesMemo (params.manifest.steps i) =
      .ok (w₀.outputIds params i)
  once : ∀ i, (w₀.build.stepNodes i).shouldBuild = true → ((w₀.outputIds params i).filter fun id => !id.missing).Nodup
  distinct : ∀ i j, (w₀.build.stepNodes i).shouldBuild = true → (w₀.build.stepNodes j).shouldBuild = true →
    ∀ id ∈ w₀.outputIds params i, id ∈ w₀.outputIds params j → id.missing = false → i = j

/-- How far a build is that has set no step aside. -/
def World.Proceeds (w : World σ n) : Prop :=
  match w.phase with
  | .discarding _ newReadySteps _ => newReadySteps = []
  | .enqueueing | .waiting => w.build.readySteps = []
  | .finished result => result = .noWorkToDo
  | .thrown _ => False

structure World.RunsNothing (w : World σ n) : Prop where
  accounted : Accounted params w₀.build w
  running : w.running = []
  started : w.history.started = []
  failed : w.history.failed = []
  invoked : w.build.invokedCommands = 0
  output : ∀ id j, w.build.outputFiles.lookup id = some j → j ∈ w.history.done ∧ id ∈ w₀.outputIds params j
  proceeds : w.Proceeds

variable {params w₀} {w w' : World σ n} {stepsToBuild : List (Fin n)}

theorem World.RunsNothing.not_thrown (h : w₀.RunsNothing params w) (failure : Failure) : w.phase ≠ .thrown failure := by
  intro hphase
  have hproceeds := h.proceeds
  rw [World.Proceeds, hphase] at hproceeds
  exact hproceeds

theorem World.RunsNothing.scheduled (h : w₀.RunsNothing params w) : Scheduled params w₀.build [] w :=
  h.accounted.holdsNothing h.not_thrown

theorem bypass_eq_markDone {s : Fin n} {fileIds : List FileId}
    (hassertion : ∀ what, (w.bypass params s).phase ≠ .thrown (.assertionFailed what))
    (hids : outputFileIdsForBuildStep params.invocations params.fingerprintMatchesMemo
      (params.manifest.steps s) = .ok fileIds)
    (hnodup : (fileIds.filter fun id => !id.missing).Nodup)
    (hnew : ∀ id ∈ fileIds, id.missing = false → w.build.outputFiles.lookup id = none) :
    ∃ build, w.bypass params s = w.markDone s true build ∧
      w.build.markStepNodeAsDone params.manifest params.invocations s fileIds true = .ok build := by
  rw [World.bypass, commandBypassed, hids] at hassertion ⊢
  simp only [bind, Except.bind] at hassertion ⊢
  cases hmark : w.build.markStepNodeAsDone params.manifest params.invocations s fileIds true with
  | ok build => exact ⟨build, rfl, rfl⟩
  | error failure =>
    rw [hmark] at hassertion
    rcases Build.markStepNodeAsDone_error hmark with hclash | ⟨what, rfl⟩
    · obtain ⟨outputFiles, hok⟩ := (emplaceOutputFiles_succeeds_iff (s := s)).mpr ⟨hnodup, hnew⟩
      cases hclash.symm.trans hok
    · exact absurd rfl (hassertion what)

/-- A round of `discardCleanSteps` skips a step or is the last one. -/
theorem World.RunsNothing.discard (h : w₀.RunsNothing params w) (huptodate : w₀.UpToDate params)
    (hbuild : Build.Constructed params.manifest params.invocations stepsToBuild w₀.build)
    {visited : Fin n → Bool} {newReadySteps : List (Fin n)} {discardedSteps : Nat}
    (hphase : w.phase = .discarding visited newReadySteps discardedSteps) :
    let w' := w.discard params visited newReadySteps discardedSteps
    w₀.RunsNothing params w' ∧ (w'.phase = .enqueueing ∨ w.history.done.length < w'.history.done.length ∧
      ∃ visited' discardedSteps', w'.phase = .discarding visited' newReadySteps discardedSteps') := by
  intro w'
  have hnew : newReadySteps = [] := by
    have hproceeds := h.proceeds
    rwa [World.Proceeds, hphase] at hproceeds
  subst hnew
  have haccounted := accounted_discard hbuild h.scheduled hphase
  have hw' : w' = w.discard params visited [] discardedSteps := rfl
  rw [World.discard] at haccounted hw'
  rw [hw']
  cases hlast : w.build.readySteps.getLast? with
  | none =>
    rw [hlast] at haccounted
    exact ⟨⟨haccounted, h.running, h.started, h.failed, h.invoked, h.output, rfl⟩, .inl rfl⟩
  | some s =>
    rw [hlast] at haccounted
    have hready := List.mem_of_getLast? hlast
    have hfresh := h.scheduled.fresh_of_ready hready
    have hs := ((h.scheduled.entered s).mp (h.scheduled.mem_entered (by simp [hready]))).1
    have hvisited : visited s = false := by
      refine Bool.eq_false_iff.mpr fun hvisited => ?_
      rcases h.scheduled.visited s (by rw [hphase]; exact hvisited) with hdone | hnew | hnil
      · exact hfresh.2.1 hdone
      · exact hfresh.1 hnew
      · cases hnil
    simp only [hvisited, Bool.false_eq_true, if_false, huptodate.clean s hs, if_true] at haccounted ⊢
    have hnone : ∀ id ∈ w₀.outputIds params s, id.missing = false → w.build.outputFiles.lookup id = none := by
      intro id hid hmissing
      refine Option.eq_none_iff_forall_ne_some.mpr fun j hj => ?_
      obtain ⟨hdone, hidj⟩ := h.output id j hj
      have hj := ((h.scheduled.entered j).mp (h.scheduled.mem_entered (by simp [hdone]))).1
      exact hfresh.2.1 (huptodate.distinct j s hj hs id hidj hid hmissing ▸ hdone)
    obtain ⟨build, hbypass, hmark⟩ := bypass_eq_markDone haccounted.noAssertionFailed
      (huptodate.fileIds s hs) (huptodate.once s hs) hnone
    obtain ⟨-, houtput, -, hinvoked⟩ := Build.markStepNodeAsDone_files hmark
    rw [hbypass] at haccounted ⊢
    refine ⟨⟨haccounted, h.running, h.started, h.failed, hinvoked.trans h.invoked,
      fun id j hj => ?_, rfl⟩, .inr ⟨?_, _, _, rfl⟩⟩
    · rcases emplaceOutputFiles_lookup houtput hj with hold | ⟨rfl, hmem, -⟩
      · exact (h.output id j hold).imp_left (List.mem_append_left _)
      · exact ⟨List.mem_append_right _ (List.mem_singleton_self j), hmem⟩
    · simp only [World.markDone, List.length_append, List.length_singleton]
      exact Nat.lt_succ_self _

variable {disk : Disk σ} {event : Event σ n}

theorem Begun.runsNothing (hbegun : Begun disk params w₀) : w₀.RunsNothing params w₀ := by
  obtain ⟨stepsToBuild, hbuild⟩ := hbegun.constructed
  refine ⟨hbegun.accounted (@World.Reaches.refl _ _ params (fun _ _ => True) w₀), ?_, ?_, ?_,
    hbuild.invokedCommands, fun id j hj => ?_, ?_⟩
  · rw [hbegun.initial]
    rfl
  · rw [hbegun.initial]
    rfl
  · rw [hbegun.initial]
    rfl
  · rw [hbuild.outputFiles] at hj
    nomatch hj
  · rw [hbegun.initial]
    rfl

theorem World.RunsNothing.result (h : w₀.RunsNothing params w) (hbegun : Begun disk params w₀)
    (hpositive : 0 < params.failuresAllowed) (hallowed : params.failuresAllowed.toNat < 2 ^ 31) :
    w.result params = .noWorkToDo := by
  rw [result_iff h.scheduled hbegun.remaining hpositive hallowed, if_pos h.failed, if_pos h.invoked]

theorem World.RunsNothing.next (h : w₀.RunsNothing params w) (hbegun : Begun disk params w₀)
    (huptodate : w₀.UpToDate params) (hpositive : 0 < params.failuresAllowed)
    (hallowed : params.failuresAllowed.toNat < 2 ^ 31) (hnext : w.next params event = some w') :
    w₀.RunsNothing params w' := by
  obtain ⟨stepsToBuild, hbuild⟩ := hbegun.constructed
  have hproceeds := h.proceeds
  have haccounted := h.accounted.next hbuild hnext
  cases World.happens_of_next hnext with
  | discard hphase => exact (h.discard huptodate hbuild hphase).1
  | enqueue hphase =>
    rw [World.Proceeds, hphase] at hproceeds
    have hready : w.build.readySteps = [] := hproceeds
    rw [World.enqueue, hready] at haccounted ⊢
    exact { h with accounted := haccounted, proceeds := hready }
  | commandDone _ hs | effect hs =>
    rw [h.running] at hs
    cases hs
  | tick => exact { h with accounted := haccounted }
  | interrupt _ hrunning => exact absurd h.running hrunning
  | finish => exact { h with accounted := haccounted, proceeds := h.result hbegun hpositive hallowed }

theorem World.Reaches.runsNothing {Allowed : World σ n → Event σ n → Prop}
    (hreaches : World.Reaches params Allowed w₀ w) (hbegun : Begun disk params w₀) (huptodate : w₀.UpToDate params)
    (hpositive : 0 < params.failuresAllowed) (hallowed : params.failuresAllowed.toNat < 2 ^ 31) :
    w₀.RunsNothing params w := by
  induction hreaches with
  | refl => exact hbegun.runsNothing
  | step _ _ hnext ih => exact ih.next hbegun huptodate hpositive hallowed hnext

def World.Finishes (params : BuildCommandParameters σ n) (w : World σ n) : Prop :=
  ∃ w', World.Reaches params (fun _ _ => True) w w' ∧ w'.phase = .finished .noWorkToDo

theorem World.Finishes.of_next (hnext : w.next params event = some w') (h : w'.Finishes params) :
    w.Finishes params := by
  obtain ⟨w'', hreaches, hphase⟩ := h
  exact ⟨w'', (World.Reaches.refl.step trivial hnext).trans hreaches, hphase⟩

section
variable {disk : Disk σ} (hbegun : Begun disk params w₀) (huptodate : w₀.UpToDate params)
  (hpositive : 0 < params.failuresAllowed) (hallowed : params.failuresAllowed.toNat < 2 ^ 31)
include hbegun huptodate hpositive hallowed

omit huptodate in
theorem World.RunsNothing.finishes_waiting (h : w₀.RunsNothing params w) (hphase : w.phase = .waiting) :
    w.Finishes params := by
  have hnext : w.next params .finish = some { w with phase := .finished (w.result params) } := by
    simp only [World.next, hphase, h.running, if_true]
  refine .of_next hnext ⟨_, .refl, ?_⟩
  rw [h.result hbegun hpositive hallowed]

theorem World.RunsNothing.finishes_enqueueing (h : w₀.RunsNothing params w) (hphase : w.phase = .enqueueing) :
    w.Finishes params := by
  have hready : w.build.readySteps = [] := by
    have hproceeds := h.proceeds
    rwa [World.Proceeds, hphase] at hproceeds
  have hnext : w.next params (.enqueue true) = some { w with phase := .waiting } := by
    simp [World.next, hphase, World.enqueue, hready]
  exact .of_next hnext ((h.next hbegun huptodate hpositive hallowed hnext).finishes_waiting hbegun hpositive
    hallowed rfl)

theorem World.RunsNothing.finishes_discarding (left : Nat) (h : w₀.RunsNothing params w)
    (hleft : n < w.history.done.length + left) {visited : Fin n → Bool} {newReadySteps : List (Fin n)}
    {discardedSteps : Nat} (hphase : w.phase = .discarding visited newReadySteps discardedSteps) :
    w.Finishes params := by
  induction left generalizing w visited newReadySteps discardedSteps with
  | zero =>
    have hnodup := h.scheduled.nodup_accounted
    simp only [List.nodup_append] at hnodup
    have hlength := hnodup.1.2.1.length_le_card
    rw [Fintype.card_fin] at hlength
    omega
  | succ left ih =>
    obtain ⟨stepsToBuild, hbuild⟩ := hbegun.constructed
    have hnext : w.next params .discard = some (w.discard params visited newReadySteps discardedSteps) := by
      simp only [World.next, hphase]
    obtain ⟨h', hend | ⟨hmore, visited', discardedSteps', hphase'⟩⟩ := h.discard huptodate hbuild hphase
    · exact .of_next hnext (h'.finishes_enqueueing hbegun huptodate hpositive hallowed hend)
    · exact .of_next hnext (ih h' (by omega) hphase')

theorem World.RunsNothing.finishes (h : w₀.RunsNothing params w) : w.Finishes params := by
  have hproceeds := h.proceeds
  cases hphase : w.phase with
  | discarding visited newReadySteps discardedSteps =>
    exact h.finishes_discarding hbegun huptodate hpositive hallowed (n + 1) (by omega) hphase
  | enqueueing => exact h.finishes_enqueueing hbegun huptodate hpositive hallowed hphase
  | waiting => exact h.finishes_waiting hbegun hpositive hallowed hphase
  | finished result =>
    rw [World.Proceeds, hphase] at hproceeds
    exact ⟨w, .refl, hproceeds ▸ hphase⟩
  | thrown failure => exact absurd hphase (h.not_thrown failure)

end
end
end Shuriken
