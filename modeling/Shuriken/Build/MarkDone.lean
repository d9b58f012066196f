import Shuriken.Build.Construct

/-!
# Finishing a step

`markStepNodeAsDone` counts down for each step that waits for the one that is done.
-/
namespace Shuriken
namespace Build
open Countdown

variable {n : Nat} (manifest : CompiledManifest n) (invocations : Invocations) (stepIdx : Fin n)
  (stepWasSkipped : Bool)

/-- Whether `no_direct_dependencies_built` can stay for a step that waits for the one that is
done. -/
def keepsFlag (dependentIdx : Fin n) : Bool :=
  stepWasSkipped || stepIsIgnored invocations (manifest.steps dependentIdx).hash stepIdx

def released (build : Build n) (waiting : List (Fin n)) (counter : Fin n → Nat) (ready : List (Fin n)) : Build n :=
  { build with
    stepNodes := fun i => { build.stepNodes i with
        dependencies := counter i
        noDirectDependenciesBuilt := (build.stepNodes i).noDirectDependenciesBuilt &&
          (decide (i ∉ waiting) || keepsFlag manifest invocations stepIdx stepWasSkipped i) }
    readySteps := build.readySteps ++ ready }

def releasedOne (build : Build n) (i : Fin n) : Build n := { build.updateNode i fun node => { node with
        noDirectDependenciesBuilt := node.noDirectDependenciesBuilt &&
          keepsFlag manifest invocations stepIdx stepWasSkipped i
        dependencies := node.dependencies - 1 } with
    readySteps :=
      if (build.stepNodes i).dependencies = 1 then build.readySteps ++ [i] else build.readySteps }

theorem foldlM_releaseDependent {waiting : List (Fin n)} (build : Build n) {counter : Fin n → Nat}
    {ready : List (Fin n)} (h : countdown waiting (fun i => (build.stepNodes i).dependencies) = some (counter, ready)) :
    waiting.foldlM (releaseDependent manifest invocations stepIdx stepWasSkipped) build =
      .ok (released manifest invocations stepIdx stepWasSkipped build waiting counter ready) := by
  induction waiting generalizing build ready with
  | nil =>
    cases h
    simp [released]
  | cons i waiting ih =>
    rw [countdown] at h
    split at h
    · cases h
    · next hi =>
      obtain ⟨⟨counter', ready'⟩, hrest, heq⟩ := Option.map_eq_some_iff.mp h
      cases heq
      have hround : releaseDependent manifest invocations stepIdx stepWasSkipped build i =
          .ok (releasedOne manifest invocations stepIdx stepWasSkipped build i) := by
        rw [releaseDependent, if_neg hi]
        rfl
      have hcounter : (fun j => ((releasedOne manifest invocations stepIdx stepWasSkipped build
          i).stepNodes j).dependencies) = Function.update (fun j => (build.stepNodes j).dependencies) i
            ((build.stepNodes i).dependencies - 1) := by
        funext j
        by_cases hj : j = i
        · subst hj
          simp [releasedOne, updateNode_self]
        · simp [releasedOne, updateNode_of_ne, hj]
      refine (Except.foldlM_cons_of_ok hround).trans ((ih _ (hcounter ▸ hrest)).trans ?_)
      congr 1
      simp only [released, releasedOne]
      congr 1
      · funext j
        by_cases hj : j = i
        · subst hj
          simp only [updateNode_self, List.mem_cons, true_or, not_true_eq_false, decide_false,
            Bool.false_or, StepNode.mk.injEq, true_and, and_true]
          cases keepsFlag manifest invocations stepIdx stepWasSkipped j <;> simp
        · simp only [updateNode_of_ne _ _ hj, List.mem_cons, hj, false_or]
      · split <;> simp

theorem emplaceOutputFiles_error {fileIds : List FileId} {outputFiles : Finmap fun _ : FileId => Fin n}
    {failure : Failure} (h : emplaceOutputFiles stepIdx fileIds outputFiles = .error failure) :
    failure = .buildError "More than one step wrote to the same file" := by
  induction fileIds generalizing outputFiles with
  | nil => nomatch h
  | cons fileId fileIds ih =>
    rw [emplaceOutputFiles] at h
    split at h
    · exact ih h
    · split at h
      · exact (Except.error.inj h).symm
      · exact ih h

/-- When no counter is too small, finishing a step fails only for a file that was written twice. -/
theorem markStepNodeAsDone_spec {build : Build n}
    (hcounter : ∀ i, (build.stepNodes stepIdx).dependents.count i ≤ (build.stepNodes i).dependencies)
    (fileIds : List FileId) :
    build.markStepNodeAsDone manifest invocations stepIdx fileIds stepWasSkipped =
        .error (.buildError "More than one step wrote to the same file") ∨
      ∃ outputFiles ready, emplaceOutputFiles stepIdx fileIds build.outputFiles = .ok outputFiles ∧
        build.markStepNodeAsDone manifest invocations stepIdx fileIds stepWasSkipped =
          .ok (released manifest invocations stepIdx stepWasSkipped { build with outputFiles }
            (build.stepNodes stepIdx).dependents
            (fun i => (build.stepNodes i).dependencies - (build.stepNodes stepIdx).dependents.count i)
            ready) ∧
        ready.Nodup ∧ ∀ i, i ∈ ready ↔ i ∈ (build.stepNodes stepIdx).dependents ∧
          (build.stepNodes i).dependencies = (build.stepNodes stepIdx).dependents.count i := by
  obtain ⟨ready, hcountdown, hnodup, hmem⟩ := countdown_spec hcounter
  rw [markStepNodeAsDone]
  cases hfiles : emplaceOutputFiles stepIdx fileIds build.outputFiles with
  | error failure => exact .inl (by rw [emplaceOutputFiles_error stepIdx hfiles]; rfl)
  | ok outputFiles =>
    exact .inr ⟨outputFiles, ready, rfl,
      foldlM_releaseDependent manifest invocations stepIdx stepWasSkipped { build with outputFiles }
        hcountdown, hnodup, hmem⟩

end Build
end Shuriken
