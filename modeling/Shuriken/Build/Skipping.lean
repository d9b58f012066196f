import Shuriken.Build.Runs
import Shuriken.Build.World
import Shuriken.Build.Start
import Shuriken.Build.Steps

/-!
# Skipping without a look at the files

A clean step is skipped without a look at its inputs when none of its direct dependencies has been built,
other than those that its log entry ignores.
-/
namespace Shuriken
open Option

section
variable {σ : Type} {n : Nat} (params : BuildCommandParameters σ n)

def BuildCommandParameters.inputs (i : Fin n) : List (Path × Fingerprint) :=
  params.invocations.inputs (params.manifest.steps i).hash

def BuildCommandParameters.CleanByEntry (i : Fin n) : Prop :=
  params.cleanSteps i = true ∧ (params.manifest.steps i).generator = false

def World.Unreached (w : World σ n) (i : Fin n) : Prop := i ∉ w.history.done ∧ i ∉ w.history.started

def World.Changes (w : World σ n) (event : Event σ n) (path : Path) : Prop := ∃ w', w.next params event = some w' ∧
    params.fileSystem.view w'.disk.fs path ≠ params.fileSystem.view w.disk.fs path

/-- As long as a clean step is not reached, its inputs are changed only by steps that it depends
on directly and does not ignore. -/
def World.ChangesInputsOfDependents (w : World σ n) (event : Event σ n) : Prop :=
  ∀ i, params.CleanByEntry i → w.Unreached i → ∀ file ∈ params.inputs i, w.Changes params event file.1 →
    ∃ j, w.actor event = some j ∧ j ∈ params.edges i ∧
      stepIsIgnored params.invocations (params.manifest.steps i).hash j = false

variable {params} {w w' : World σ n}

variable {event : Event σ n} {failure : Failure} {disk : Disk σ} {w₀ : World σ n}
    {Allowed : World σ n → Event σ n → Prop} {o : Observed σ n}

theorem World.thrown_next (hphase : w.phase = .thrown failure) (hnext : w.next params event = some w') :
    w'.phase = .thrown failure := by
  cases World.happens_of_next hnext with
  | effect | tick => exact hphase
  | discard h | enqueue h | commandDone h | interrupt h | finish h => nomatch hphase.symm.trans h

theorem Begun.accounted (hbegun : Begun disk params w₀) (hreaches : World.Reaches params Allowed w₀ w) :
    Accounted params w₀.build w := by
  obtain ⟨stepsToBuild, hbuild⟩ := hbegun.constructed
  have hinitial : Accounted params w₀.build w₀ := by
    rw [hbegun.initial]
    exact (Scheduled.initial hbuild w₀.disk w₀.clock).accounted_of_active rfl
  exact hinitial.reaches hbuild hreaches

theorem World.Reaches.mono {Allowed' : World σ n → Event σ n → Prop} (hreaches : World.Reaches params Allowed w₀ w)
    (h : ∀ w event, Allowed w event → Allowed' w event) : World.Reaches params Allowed' w₀ w := by
  induction hreaches with
  | refl => exact .refl
  | step _ hevent hnext ih => exact ih.step (h _ _ hevent) hnext

theorem World.Reaches.trans (hfirst : World.Reaches params Allowed w₀ w) (hrest : World.Reaches params Allowed w w') :
    World.Reaches params Allowed w₀ w' := by
  induction hrest with
  | refl => exact hfirst
  | step _ hevent hnext ih => exact ih.step hevent hnext

theorem World.Reaches.invariant {P : World σ n → Prop} (hreaches : World.Reaches params Allowed w₀ w)
    (hbegun : Begun disk params w₀) (hinitial : P w₀)
    (hstep : ∀ {w w' : World σ n} {event : Event σ n}, Scheduled params w₀.build [] w → Allowed w event →
      w.next params event = some w' → Transition params w event w'.observed → P w → P w')
    (hphase : ∀ failure, w.phase ≠ .thrown failure) : P w := by
  induction hreaches with
  | refl => exact hinitial
  | step hrun hevent hnext ih =>
    rcases World.next_cases hnext with ⟨failure, hthrown, -⟩ | ⟨htransition, -⟩
    · exact absurd hthrown (hphase failure)
    · have hbefore : ∀ failure, _ ≠ Phase.thrown failure := fun failure hthrown =>
        hphase failure (World.thrown_next hthrown hnext)
      exact hstep ((hbegun.accounted hrun).holdsNothing hbefore) hevent hnext htransition (ih hbefore)

theorem World.Reaches.throws (hreaches : World.Reaches params Allowed w₀ w) (hbegun : Begun disk params w₀)
    (hthrown : w.phase = .thrown failure) :
    ∃ w₁ w₂ event, World.Reaches params Allowed w₀ w₁ ∧ Allowed w₁ event ∧
      w₁.next params event = some w₂ ∧ (∀ failure, w₁.phase ≠ .thrown failure) ∧
      Throws params w₁ event failure := by
  induction hreaches with
  | refl =>
    rw [hbegun.initial] at hthrown
    nomatch hthrown
  | @step w₁ w₂ event hrun hevent hnext ih =>
    by_cases hbefore : ∃ failure, w₁.phase = .thrown failure
    · obtain ⟨failure', hphase⟩ := hbefore
      obtain rfl := Phase.thrown.inj ((World.thrown_next hphase hnext).symm.trans hthrown)
      exact ih hphase
    · rcases World.next_cases hnext with ⟨failure', hphase, hthrows⟩ | ⟨-, hsame⟩
      · obtain rfl := Phase.thrown.inj (hphase.symm.trans hthrown)
        exact ⟨w₁, w₂, event, hrun, hevent, hnext, fun failure h => hbefore ⟨failure, h⟩, hthrows⟩
      · exact absurd ⟨failure, hsame failure hthrown⟩ hbefore

/-- The inputs of a clean step are as they were, or a dependency that is not ignored was started. -/
def World.InputsAsAt (params : BuildCommandParameters σ n) (fs : σ) (w : World σ n) : Prop :=
  ∀ i, params.CleanByEntry i → w.Unreached i → (∀ file ∈ params.inputs i,
      params.fileSystem.view w.disk.fs file.1 = params.fileSystem.view fs file.1) ∨
    ∃ j ∈ params.edges i, stepIsIgnored params.invocations (params.manifest.steps i).hash j = false ∧
      j ∈ w.history.started

section
variable (h : Transition params w event o)
include h

theorem Transition.grows : w.history.done ⊆ o.done ∧ w.history.started ⊆ o.started := by
  cases h with
  | quiet | effect | fail => exact ⟨fun _ h => h, fun _ h => h⟩
  | skip | finish => exact ⟨List.subset_append_left _ _, fun _ h => h⟩
  | start => exact ⟨fun _ h => h, List.subset_append_left _ _⟩

theorem Transition.started_of_changes (hrunning : w.running ⊆ w.history.started)
    (hchanges : o.disk.fs ≠ w.disk.fs) {j : Fin n} (hj : w.actor event = some j) : j ∈ o.started := by
  cases h with
  | quiet | skip => exact absurd rfl hchanges
  | effect fs hs => exact some.inj hj ▸ hrunning hs
  | start canRunMore hs =>
    exact List.mem_append_right _ (List.mem_singleton.mpr (some.inj (hj.symm.trans hs)))
  | finish hfiles | fail hfiles => exact some.inj hj ▸ hrunning hfiles.running

theorem Transition.kept_or_started (hrunning : w.running ⊆ w.history.started)
    {P : σ → Prop} {S : Fin n → Prop} (hbefore : P w.disk.fs ∨ ∃ j, S j ∧ j ∈ w.history.started)
    (hchange : P w.disk.fs → ¬P o.disk.fs → ∃ j, w.actor event = some j ∧ S j) :
    P o.disk.fs ∨ ∃ j, S j ∧ j ∈ o.started := by
  rcases hbefore with hkept | ⟨j, hj, hstarted⟩
  · by_cases hafter : P o.disk.fs
    · exact .inl hafter
    · obtain ⟨j, hactor, hj⟩ := hchange hkept hafter
      exact .inr ⟨j, hj, h.started_of_changes hrunning (fun hsame => hafter (hsame ▸ hkept)) hactor⟩
  · exact .inr ⟨j, hj, h.grows.2 hstarted⟩

end

theorem Transition.unreached (h : Transition params w event w'.observed) {i : Fin n} (hi : w'.Unreached i) :
    w.Unreached i :=
  ⟨fun hdone => hi.1 (h.grows.1 hdone), fun hstarted => hi.2 (h.grows.2 hstarted)⟩

theorem World.InputsAsAt.next {fs : σ} (h : w.InputsAsAt params fs) (hrunning : w.running ⊆ w.history.started)
    (hevent : w.ChangesInputsOfDependents params event) (hnext : w.next params event = some w')
    (htransition : Transition params w event w'.observed) : w'.InputsAsAt params fs := by
  intro i hclean hi
  have hbefore := htransition.unreached hi
  simp only [← and_assoc]
  refine htransition.kept_or_started hrunning (P := fun s => ∀ file ∈ params.inputs i,
    params.fileSystem.view s file.1 = params.fileSystem.view fs file.1)
    (by simpa only [← and_assoc] using h i hclean hbefore) fun hsame hchange => ?_
  simp only [not_forall] at hchange
  obtain ⟨file, hfile, hchange⟩ := hchange
  exact hevent i hclean hbefore file hfile ⟨w', hnext, fun h => hchange (h.trans (hsame file hfile))⟩

/-- A dependency of a ready step that was started is neither ignored nor skipped, so that it has
cleared the flag. -/
theorem Scheduled.flag_of_started {build₀ : Build n} (h : Scheduled params build₀ [] w) {i j : Fin n}
    (hi : i ∈ w.build.readySteps) (hj : j ∈ params.edges i) (hstarted : j ∈ w.history.started)
    (hignored : stepIsIgnored params.invocations (params.manifest.steps i).hash j = false) :
    (w.build.stepNodes i).noDirectDependenciesBuilt = false := by
  obtain ⟨hbuild, hdone⟩ := (h.entered i).mp (h.mem_entered (by simp [hi]))
  refine Bool.eq_false_iff.mpr fun hflag => ?_
  rcases h.flags i hbuild hflag j hj (hdone j hj) with hskipped | hignored'
  · exact h.not_skipped_of_started hstarted hskipped
  · nomatch hignored.symm.trans hignored'

/-- In every run in which the inputs of clean steps that are not yet reached are changed only by
direct dependencies that are not ignored. -/
theorem skipped_step_inputs_match {F : FileSystem σ} {manifest : CompiledManifest n} {invocations : Invocations}
    {failuresAllowed : UInt64} {specifiedSteps : List (Fin n)} {checkClock : Fin n → Int64} {clock : Int64}
    {disk : Disk σ} {w₀ : World σ n}
    (hstart : startBuild F manifest invocations failuresAllowed specifiedSteps checkClock clock disk = .ok (params, w₀))
    (hreaches : World.Reaches params (World.ChangesInputsOfDependents params) w₀ w) {i : Fin n}
    (hphase : w.phase = .enqueueing) (hready : w.build.readySteps.getLast? = some i)
    (hgenerator : (params.manifest.steps i).generator = false) (hclean : params.cleanSteps i = true)
    (hflag : (w.build.stepNodes i).noDirectDependenciesBuilt = true) :
    ∀ file ∈ params.invocations.inputs (params.manifest.steps i).hash,
      ∃ result, fingerprintMatches params.fileSystem w.disk.fs file.1 file.2 = .ok result ∧ result.clean = true := by
  have hbegun := startBuild_begun hstart
  have hinputs : w.InputsAsAt params w₀.disk.fs := hreaches.invariant hbegun
    (fun _ _ _ => .inl fun _ _ => rfl)
    (fun hscheduled hevent hnext htransition h => h.next hscheduled.running hevent hnext htransition)
    (by simp [hphase])
  have hscheduled := (hbegun.accounted hreaches).holdsNothing (by simp [hphase])
  have hlast := List.mem_of_getLast? hready
  rcases hinputs i ⟨hclean, hgenerator⟩ (hscheduled.fresh_of_ready hlast).2 with
    hsame | ⟨j, hj, hignored, hstarted⟩
  · intro file hfile
    exact (((hbegun.clean i hclean).2 hgenerator).2 file (List.mem_append_right _ hfile)).congr
      (hsame file hfile)
  · nomatch (hscheduled.flag_of_started hlast hj hstarted hignored).symm.trans hflag

end

def sourceFile (mtime : Int64) (byte : UInt8) : Path × FlatFile := ([115], { ino := 1, mtime, contents := [byte] })

def outputFile : Path × FlatFile := ([111], { ino := 2, mtime := 10, contents := [7] })

/-- The first step of the chain reads `s`. The second one looks for `x`, which is not there, and
writes `o`. It uses nothing of the first step. -/
def unusedEvents : List (Event FlatFiles 2) :=
  [.discard, .discard, .enqueue true, .enqueue true, .commandDone 0 { inputFiles := [[115]] },
    .enqueue true, .enqueue true, .effect 1 [sourceFile 1 1, outputFile], .tick 12,
    .commandDone 1 { inputFiles := [[120]], outputFiles := [[111]] }, .enqueue true, .finish]

def chainBuild : Option (BuildCommandParameters FlatFiles 2 × World FlatFiles 2) :=
  openBuild .valueFirst flatFileSystem chain 1 [1] (fun _ => 10) 10 [sourceFile 1 1] none

def unusedBuild : Option (World FlatFiles 2) := do
  let (params, w) ← chainBuild
  w.run (fun _ _ => true) params unusedEvents

def editedBuild : Option (BuildCommandParameters FlatFiles 2 × World FlatFiles 2) := do
  let w ← unusedBuild
  openBuild .valueFirst flatFileSystem chain 1 [1] (fun _ => 20) 20 [sourceFile 15 2, outputFile]
    (some w.logFile)

/-- In the next build the first step is run again, which does not touch an input of the second. -/
theorem skipped_step_inputs_match_of_unused : ∃ params w₀ w, editedBuild = some (params, w₀) ∧
      World.Reaches params (World.ChangesInputsOfDependents params) w₀ w ∧
      w.build.readySteps.getLast? = some 1 ∧ params.cleanSteps 1 = true ∧
      (w.build.stepNodes 1).noDirectDependenciesBuilt = true ∧
      ∀ file ∈ params.invocations.inputs (params.manifest.steps 1).hash,
        ∃ result, fingerprintMatches params.fileSystem w.disk.fs file.1 file.2 = .ok result ∧ result.clean = true := by
  have h : ∃ params w₀, editedBuild = some (params, w₀) ∧ ∃ w,
      w₀.run (fun w w' => decide (w'.disk.fs = w.disk.fs)) params
        [.discard, .discard, .enqueue true, .enqueue true, .commandDone 0 { inputFiles := [[115]] }] = some w ∧
      ∃ w', w.next params (.enqueue true) = some w' ∧ w.build.readySteps.getLast? = some 1 ∧
        params.cleanSteps 1 = true ∧ (params.manifest.steps 1).generator = false ∧
        (w.build.stepNodes 1).noDirectDependenciesBuilt = true := by
    decide +kernel
  obtain ⟨params, w₀, hstart, w, hrun, w', hnext, hready, hclean, hgenerator, hflag⟩ := h
  have hreaches : World.Reaches params (World.ChangesInputsOfDependents params) w₀ w := by
    refine World.reaches_of_run (fun w event w' hnext hsame i _ _ file _ hchanges => ?_) .refl hrun
    obtain ⟨w'', hnext', hchanges⟩ := hchanges
    cases hnext.symm.trans hnext'
    exact absurd (by rw [of_decide_eq_true hsame]) hchanges
  have hbuilds := hstart
  rw [editedBuild] at hbuilds
  obtain ⟨w₁, -, hopen⟩ := bind_eq_some_iff.mp hbuilds
  obtain ⟨result, left, -, hbegin⟩ := openBuild_eq_some hopen
  exact ⟨params, w₀, w, hstart, hreaches, hready, hclean, hflag, skipped_step_inputs_match hbegin hreaches
    (World.phase_of_next_enqueue hnext) hready hgenerator hclean hflag⟩

/-- The first step is run again and this time writes `x`. -/
def writingEvents : List (Event FlatFiles 2) :=
  [.discard, .discard, .enqueue true, .effect 0 [([120], { ino := 3, mtime := 20 }), sourceFile 15 2, outputFile],
    .tick 22, .enqueue true, .commandDone 0 { inputFiles := [[115]], outputFiles := [[120]] }]

/-- The second step is skipped although it would now find `x`. -/
theorem skipped_step_misses_new_input : ∃ params w₀ w w', editedBuild = some (params, w₀) ∧
      w₀.run (fun _ _ => true) params writingEvents = some w ∧
      w.build.readySteps.getLast? = some 1 ∧ params.cleanSteps 1 = true ∧ (params.manifest.steps 1).generator = false ∧
      (w.build.stepNodes 1).noDirectDependenciesBuilt = true ∧
      w.next params (.enqueue true) = some w' ∧ w'.history.skipped = [1] ∧
      ∃ file ∈ params.invocations.inputs (params.manifest.steps 1).hash,
        (fingerprintMatches params.fileSystem w.disk.fs file.1 file.2).toOption.map (·.clean) = some false := by
  simp only [exists_and_left]
  decide +kernel

end Shuriken
