import Shuriken.Build.Construct

/-!
# Cycles are detected

A visit of a step ends only when the visits of its dependencies have, so that
construction does not succeed when there is a cycle among the steps to build or
their dependencies.
-/
namespace Shuriken
open Except
namespace Build

section
variable {n : Nat} {manifest : CompiledManifest n} {invocations : Invocations} {build build' : Build n}
  {visit : Build n → Fin n → Except Failure (Build n)}

variable (manifest invocations) in
def FinishedGrounded (build : Build n) : Prop :=
  ∀ i, (build.stepNodes i).shouldBuild = true → (build.stepNodes i).currentlyVisited = false →
    Search.Grounded (Edge manifest invocations) i

variable (manifest invocations) in
def VisitGrounds (visit : Build n → Fin n → Except Failure (Build n)) : Prop :=
  ∀ build idx build', FinishedGrounded manifest invocations build → visit build idx = .ok build' →
    FinishedGrounded manifest invocations build' ∧ Search.Grounded (Edge manifest invocations) idx

theorem FinishedGrounded.sameVisits (h : FinishedGrounded manifest invocations build)
    (hsame : SameVisits build build') : FinishedGrounded manifest invocations build' :=
  fun i hi hi' => h i ((hsame.shouldBuild i).symm.trans hi) ((hsame.visited i).symm.trans hi')

variable {idx : Fin n} {es : List (Option (Fin n))} {depth : Nat} {failuresAllowed : UInt64}
    {stepsToBuild : List (Fin n)} {result : Except Failure (Build n)}

theorem foldlM_addEdge_grounds (hvisit : VisitGrounds manifest invocations visit)
    (h : FinishedGrounded manifest invocations build) (hrun : es.foldlM (addEdge visit idx) build = .ok build') :
    FinishedGrounded manifest invocations build' ∧
      ∀ d ∈ es.filterMap id, Search.Grounded (Edge manifest invocations) d := by
  induction es generalizing build with
  | nil =>
    cases hrun
    exact ⟨h, nofun⟩
  | cons e es ih =>
    rw [List.foldlM_cons] at hrun
    obtain ⟨build₂, hround, hrest⟩ := bind_eq_ok.mp hrun
    cases e with
    | none =>
      obtain ⟨build₁, hadd, hsame, -⟩ := addEdge_none visit idx build
      cases hadd.symm.trans hround
      exact ih (h.sameVisits hsame) hrest
    | some d =>
      obtain ⟨build₁, hadd, hsame, -⟩ := addEdge_some visit idx d build
      obtain ⟨h₂, hd⟩ := hvisit build₁ d build₂ (h.sameVisits hsame) (hadd.symm.trans hround)
      obtain ⟨h', hes⟩ := ih h₂ hrest
      exact ⟨h', List.forall_mem_cons.mpr ⟨hd, hes⟩⟩

theorem visitStep_grounds (depth : Nat) : VisitGrounds manifest invocations (visitStep manifest invocations depth) := by
  induction depth with
  | zero => exact fun _ _ _ _ h => nomatch h
  | succ depth ih =>
    intro build idx build' h hrun
    obtain ⟨hvisited, ⟨hbuild, rfl⟩ | ⟨hbuild, build₂, hloop, rfl⟩⟩ := visitStep_eq_ok hrun
    · exact ⟨h, h idx hbuild hvisited⟩
    · have hstart : FinishedGrounded manifest invocations (build.updateNode idx .startVisit) := by
        intro i hi hi'
        by_cases heq : i = idx
        · rw [heq, updateNode_self] at hi'
          nomatch hi'
        · rw [updateNode_of_ne _ _ heq] at hi hi'
          exact h i hi hi'
      obtain ⟨h₂, hedges⟩ := foldlM_addEdge_grounds ih hstart hloop
      have hidx : Search.Grounded (Edge manifest invocations) idx := Search.grounded_of_edges hedges
      refine ⟨fun i hi hi' => ?_, hidx⟩
      by_cases heq : i = idx
      · exact heq ▸ hidx
      · rw [updateNode_of_ne _ _ heq] at hi hi'
        exact h₂ i hi hi'

theorem foldlM_visitStep_grounds {roots : List (Fin n)} (h : FinishedGrounded manifest invocations build)
    (hrun : roots.foldlM (visitStep manifest invocations depth) build = .ok build') :
    ∀ r ∈ roots, Search.Grounded (Edge manifest invocations) r := by
  induction roots generalizing build with
  | nil => nofun
  | cons r roots ih =>
    rw [List.foldlM_cons] at hrun
    obtain ⟨build₁, hround, hrest⟩ := bind_eq_ok.mp hrun
    obtain ⟨h₁, hr⟩ := visitStep_grounds depth build r build₁ h hround
    exact List.forall_mem_cons.mpr ⟨hr, ih h₁ hrest⟩

theorem construct_grounded (h : construct manifest invocations failuresAllowed stepsToBuild = .ok build) {i : Fin n}
    (hi : (build.stepNodes i).shouldBuild = true) : Search.Grounded (Edge manifest invocations) i := by
  obtain ⟨r, hr, hpath⟩ := (construct_spec h).1.reachable i hi
  obtain ⟨build, hrun, -⟩ := bind_eq_ok.mp h
  exact (foldlM_visitStep_grounds (fun _ h _ => absurd h Bool.false_ne_true) hrun r hr).of_reflTransGen hpath

theorem construct_succeeds_iff (failuresAllowed : UInt64) :
    (∃ build, construct manifest invocations failuresAllowed stepsToBuild = .ok build) ↔
      ∀ r ∈ stepsToBuild, ∀ i, Relation.ReflTransGen (Edge manifest invocations) r i →
        ¬ DependsOn manifest invocations i i := by
  constructor
  · rintro ⟨build, h⟩ r hr
    exact Search.grounded_iff_no_cycle_ahead.mp (construct_grounded h ((construct_spec h).1.roots r hr))
  · intro h
    exact construct_succeeds_of_grounded failuresAllowed fun r hr => Search.grounded_iff_no_cycle_ahead.mpr (h r hr)

def Detects (build : Build n) : Except Failure (Build n) → Prop
  | .ok build' => unvisited build' ⊆ unvisited build
  | .error failure => failure = .buildError "Dependency cycle"

theorem Detects.weaken {build₁ : Build n} (h : Detects build₁ result) (hsubset : unvisited build₁ ⊆ unvisited build) :
    Detects build result := by
  cases result with
  | error failure => exact h
  | ok build' => exact Finset.Subset.trans h hsubset

theorem Detects.bind {f : Build n → Except Failure (Build n)} (h : Detects build result)
    (hf : ∀ build₁, unvisited build₁ ⊆ unvisited build → Detects build₁ (f build₁)) : Detects build (result >>= f) := by
  cases result with
  | error failure => exact h
  | ok build₁ => exact (hf build₁ h).weaken h

theorem SameVisits.unvisited_eq (h : SameVisits build build') : unvisited build' = unvisited build := by
  simp only [unvisited, h.shouldBuild]

theorem foldlM_addEdge_detects (hvisit : ∀ build idx, (unvisited build).card < depth → Detects build (visit build idx))
    (hdepth : (unvisited build).card < depth) : Detects build (es.foldlM (addEdge visit idx) build) := by
  induction es generalizing build with
  | nil => exact Finset.Subset.refl _
  | cons e es ih =>
    rw [List.foldlM_cons]
    refine Detects.bind ?_ fun build₁ hsubset => ih ((Finset.card_le_card hsubset).trans_lt hdepth)
    cases e with
    | none =>
      obtain ⟨build₁, hadd, hsame, -⟩ := addEdge_none visit idx build
      rw [hadd]
      exact hsame.unvisited_eq.subset
    | some d =>
      obtain ⟨build₁, hadd, hsame, -⟩ := addEdge_some visit idx d build
      rw [hadd]
      exact (hvisit build₁ d (hsame.unvisited_eq ▸ hdepth)).weaken hsame.unvisited_eq.subset

/-- The bound on the depth is not reached, as each level marks a step. -/
theorem visitStep_detects (depth : Nat) (build : Build n) (idx : Fin n) (hdepth : (unvisited build).card < depth) :
    Detects build (visitStep manifest invocations depth build idx) := by
  induction depth generalizing build idx with
  | zero => exact absurd hdepth (Nat.not_lt_zero _)
  | succ depth ih =>
    cases hvisited : (build.stepNodes idx).currentlyVisited with
    | true =>
      rw [visitStep, hvisited]
      rfl
    | false =>
      cases hbuild : (build.stepNodes idx).shouldBuild with
      | true =>
        rw [visitStep, hvisited, hbuild]
        exact Finset.Subset.refl _
      | false =>
        have hstart := unvisited_startVisit hbuild
        rw [visitStep_fresh _ _ depth hvisited hbuild]
        refine Detects.bind (Detects.weaken (foldlM_addEdge_detects ih
          (Nat.lt_of_lt_of_le hstart (Nat.le_of_lt_succ hdepth))) ?_) fun build₁ _ => ?_
        · intro i hi
          rw [unvisited, Finset.mem_filter] at hi ⊢
          by_cases heq : i = idx
          · exact ⟨Finset.mem_univ i, heq ▸ hbuild⟩
          · rwa [updateNode_of_ne _ _ heq] at hi
        · have hsame : ∀ i, ((build₁.updateNode idx .endVisit).stepNodes i).shouldBuild =
              (build₁.stepNodes i).shouldBuild := fun i =>
            updateNode_field build₁ idx i .endVisit StepNode.shouldBuild fun _ => rfl
          exact (Finset.filter_congr fun i _ => by rw [hsame]).subset

theorem construct_error {failure : Failure}
    (h : construct manifest invocations failuresAllowed stepsToBuild = .error failure) :
    failure = .buildError "Dependency cycle" := by
  have hdetects : Detects ({} : Build n)
      (stepsToBuild.foldlM (visitStep manifest invocations (n + 1)) {}) := by
    clear h
    generalize ({} : Build n) = build
    induction stepsToBuild generalizing build with
    | nil => exact Finset.Subset.refl _
    | cons r roots ih =>
      rw [List.foldlM_cons]
      exact (visitStep_detects (n + 1) build r (Nat.lt_succ_of_le (unvisited_card_le build))).bind
        fun build₁ _ => ih build₁
  rw [construct] at h
  generalize stepsToBuild.foldlM (visitStep manifest invocations (n + 1)) {} = result at h hdetects
  cases result with
  | error failure' => exact (error.inj h) ▸ hdetects
  | ok build => cases h

end
end Build
end Shuriken
