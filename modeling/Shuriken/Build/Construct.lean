import Shuriken.Build.Graph
import Shuriken.Lib.Except
import Shuriken.Lib.Search

/-!
# What construction yields

`visitStep` links exactly the edges of the steps that can be reached from the steps to build: those of the
manifest and the additional dependencies of the log that are steps of the manifest.
-/
namespace Shuriken
open Except Function List Finset
namespace Build

section
variable {n : Nat}

@[simp] theorem updateNode_self (build : Build n) (i : Fin n) (f : StepNode n → StepNode n) :
    (build.updateNode i f).stepNodes i = f (build.stepNodes i) :=
  update_self ..

theorem updateNode_of_ne (build : Build n) {i j : Fin n} (f : StepNode n → StepNode n) (h : j ≠ i) :
    (build.updateNode i f).stepNodes j = build.stepNodes j :=
  update_of_ne h ..

theorem updateNode_apply (build : Build n) (i j : Fin n) (f : StepNode n → StepNode n) :
    (build.updateNode i f).stepNodes j = if j = i then f (build.stepNodes j) else build.stepNodes j := by
  by_cases h : j = i
  · rw [if_pos h, h, updateNode_self]
  · rw [if_neg h, updateNode_of_ne build f h]

theorem updateNode_field {α : Type} (build : Build n) (i j : Fin n) (f : StepNode n → StepNode n)
    (field : StepNode n → α) (h : ∀ node, field (f node) = field node) :
    field ((build.updateNode i f).stepNodes j) = field (build.stepNodes j) := by
  rw [updateNode_apply, apply_ite field, h, ite_self]

variable (manifest : CompiledManifest n) (invocations : Invocations)

/-- The edges of a step as they are visited. An additional dependency that is not a step of
the manifest is an edge to nowhere. -/
def edgesOf (idx : Fin n) : List (Option (Fin n)) := (manifest.steps idx).dependencies.map some ++
    (additionalDependencies manifest invocations idx).map (stepIndex manifest)

def edges (idx : Fin n) : List (Fin n) := (edgesOf manifest invocations idx).filterMap id

def Edge (i j : Fin n) : Prop := j ∈ edges manifest invocations i

variable {manifest invocations} in
theorem edge_of_dependencies {i j : Fin n} (h : j ∈ (manifest.steps i).dependencies) : Edge manifest invocations i j :=
  mem_filterMap.mpr ⟨some j, mem_append_left _ (mem_map_of_mem h), rfl⟩

def DependsOn (i j : Fin n) : Prop := Relation.TransGen (Edge manifest invocations) i j

def Acyclic : Prop := ∀ i, ¬ DependsOn manifest invocations i i

theorem acyclic_of_lt (h : ∀ i, ∀ j ∈ edges manifest invocations i, j < i) : Acyclic manifest invocations := by
  have hlt : ∀ i j, DependsOn manifest invocations i j → j < i := by
    intro i j hij
    induction hij with
    | single hedge => exact h _ _ hedge
    | tail _ hedge ih => exact (h _ _ hedge).trans ih
  exact fun i hi => lt_irrefl i (hlt i i hi)

def addEdge (visit : Build n → Fin n → Except Failure (Build n)) (idx : Fin n) (build : Build n) :
    Option (Fin n) → Except Failure (Build n)
  | none => .ok (build.updateNode idx .setDependenciesBuilt)
  | some dependencyIdx => addDependency visit idx build dependencyIdx

variable {idx : Fin n} {depth : Nat} {roots : List (Fin n)}

theorem visitStep_fresh (depth : Nat) {build : Build n} (hvisited : (build.stepNodes idx).currentlyVisited = false)
    (hbuild : (build.stepNodes idx).shouldBuild = false) :
    visitStep manifest invocations (depth + 1) build idx = (do
      let build ← (edgesOf manifest invocations idx).foldlM
        (addEdge (visitStep manifest invocations depth) idx)
        (build.updateNode idx .startVisit)
      return build.updateNode idx .endVisit) := by
  have hadditional : addAdditionalDependency manifest (visitStep manifest invocations depth) idx =
      fun build hash => addEdge (visitStep manifest invocations depth) idx build
        (stepIndex manifest hash) := by
    funext build hash
    rw [addAdditionalDependency]
    cases stepIndex manifest hash <;> rfl
  rw [visitStep, hvisited, hbuild, if_neg Bool.false_ne_true, if_neg Bool.false_ne_true]
  simp only [edgesOf, foldlM_append, foldlM_map, hadditional, bind_assoc]
  rfl

variable {manifest invocations} in
theorem visitStep_eq_ok {build build' : Build n}
    (hrun : visitStep manifest invocations (depth + 1) build idx = .ok build') :
    (build.stepNodes idx).currentlyVisited = false ∧ ((build.stepNodes idx).shouldBuild = true ∧ build' = build ∨
        (build.stepNodes idx).shouldBuild = false ∧ ∃ build₂,
          (edgesOf manifest invocations idx).foldlM (addEdge (visitStep manifest invocations depth) idx)
            (build.updateNode idx .startVisit) = .ok build₂ ∧
          build' = build₂.updateNode idx .endVisit) := by
  cases hvisited : (build.stepNodes idx).currentlyVisited with
  | true =>
    rw [visitStep, hvisited] at hrun
    nomatch hrun
  | false =>
    refine ⟨rfl, ?_⟩
    cases hbuild : (build.stepNodes idx).shouldBuild with
    | true =>
      rw [visitStep, hvisited, hbuild] at hrun
      exact .inl ⟨rfl, (ok.inj hrun).symm⟩
    | false =>
      rw [visitStep_fresh _ _ depth hvisited hbuild] at hrun
      obtain ⟨build₂, hloop, hend⟩ := bind_eq_ok.mp hrun
      exact .inr ⟨rfl, build₂, hloop, (ok.inj hend).symm⟩

/-- The counters and the lists of dependents are those of the edges that were added. -/
structure Linked (build : Build n) (added : Fin n → List (Fin n)) : Prop where
  dependencies : ∀ i, (build.stepNodes i).dependencies = (added i).length
  dependents : ∀ s i, (build.stepNodes s).dependents.count i = (added i).count s
  unvisited : ∀ i, (build.stepNodes i).shouldBuild = false → added i = []

/-- What a visit changes: steps that were visited before stay as they are, the others have all
their edges afterwards. -/
structure Extends (build : Build n) (added : Fin n → List (Fin n)) (build' : Build n)
    (added' : Fin n → List (Fin n)) : Prop where
  nodesOnly : build' = { build with stepNodes := build'.stepNodes }
  keeps : ∀ i, (build.stepNodes i).shouldBuild = true → (build'.stepNodes i).shouldBuild = true ∧ added' i = added i
  visited : ∀ i, (build'.stepNodes i).currentlyVisited = (build.stepNodes i).currentlyVisited
  fresh : ∀ i, (build'.stepNodes i).shouldBuild = true → (build.stepNodes i).shouldBuild = false →
    added' i = edges manifest invocations i ∧
      ∀ j ∈ edges manifest invocations i, (build'.stepNodes j).shouldBuild = true

def unvisited (build : Build n) : Finset (Fin n) := univ.filter fun i => (build.stepNodes i).shouldBuild = false

theorem unvisited_card_le (build : Build n) : (unvisited build).card ≤ n :=
  (card_filter_le _ _).trans_eq (by rw [card_univ, Fintype.card_fin])

variable {manifest invocations} {build build' build'' : Build n}
  {added added' added'' : Fin n → List (Fin n)}

theorem Extends.refl : Extends manifest invocations build added build added where
  nodesOnly := rfl
  keeps _ h := ⟨h, rfl⟩
  visited _ := rfl
  fresh _ h h' := nomatch h.symm.trans h'

section
variable (h : Extends manifest invocations build added build' added')
include h

theorem Extends.trans (h' : Extends manifest invocations build' added' build'' added'') :
    Extends manifest invocations build added build'' added'' where
  nodesOnly := by rw [h'.nodesOnly, h.nodesOnly]
  keeps i hi := by
    obtain ⟨hi', hadded⟩ := h.keeps i hi
    exact ⟨(h'.keeps i hi').1, (h'.keeps i hi').2.trans hadded⟩
  visited i := (h'.visited i).trans (h.visited i)
  fresh i hi hi' := by
    cases hmid : (build'.stepNodes i).shouldBuild with
    | false => exact h'.fresh i hi hmid
    | true =>
      obtain ⟨hadded, hedges⟩ := h.fresh i hmid hi'
      exact ⟨(h'.keeps i hmid).2.trans hadded, fun j hj => (h'.keeps j (hedges j hj)).1⟩

theorem Extends.unvisited_subset : unvisited build' ⊆ unvisited build := by
  intro i hi
  rw [unvisited, Finset.mem_filter] at hi ⊢
  refine ⟨mem_univ i, ?_⟩
  cases hbuild : (build.stepNodes i).shouldBuild with
  | false => rfl
  | true => nomatch (h.keeps i hbuild).1.symm.trans hi.2

end

theorem Linked.addDependency (h : Linked build added) (hidx : (build.stepNodes idx).shouldBuild = true) (d : Fin n) :
    Linked ((build.updateNode d (.addDependent idx)).updateNode idx .addDependency)
      (update added idx (added idx ++ [d])) := by
  refine ⟨fun i => ?_, fun s i => ?_, fun i hi => ?_⟩
  · by_cases hi : i = idx <;>
      simp [updateNode_apply, StepNode.addDependent, StepNode.addDependency,
        apply_ite StepNode.dependencies, hi, h.dependencies]
  · have hsingle : ∀ a b : Fin n, [a].count b = if b = a then 1 else 0 := fun a b => by
      rw [count_singleton, Bool.beq_comm]
      simp only [beq_iff_eq]
    by_cases hi : i = idx <;> by_cases hs : s = d <;>
      simp [updateNode_apply, StepNode.addDependent, StepNode.addDependency,
        apply_ite StepNode.dependents, hi, hs, h.dependents, hsingle]
  · have hbuild : (build.stepNodes i).shouldBuild = false := by
      simpa [updateNode_apply, StepNode.addDependent, StepNode.addDependency, apply_ite StepNode.shouldBuild] using hi
    have hne : i ≠ idx := by
      rintro rfl
      nomatch hbuild.symm.trans hidx
    rw [update_of_ne hne, h.unvisited i hbuild]

/-- Only fields have changed that do not matter to visiting. -/
structure SameVisits (build build' : Build n) : Prop where
  nodesOnly : build' = { build with stepNodes := build'.stepNodes }
  shouldBuild : ∀ i, (build'.stepNodes i).shouldBuild = (build.stepNodes i).shouldBuild
  visited : ∀ i, (build'.stepNodes i).currentlyVisited = (build.stepNodes i).currentlyVisited

theorem SameVisits.updateNode (build : Build n) (idx : Fin n) (f : StepNode n → StepNode n)
    (hbuild : ∀ node, (f node).shouldBuild = node.shouldBuild)
    (hvisited : ∀ node, (f node).currentlyVisited = node.currentlyVisited) :
    SameVisits build (build.updateNode idx f) where
  nodesOnly := rfl
  shouldBuild i := updateNode_field _ _ i _ StepNode.shouldBuild hbuild
  visited i := updateNode_field _ _ i _ StepNode.currentlyVisited hvisited

theorem SameVisits.trans (h : SameVisits build build') (h' : SameVisits build' build'') :
    SameVisits build build'' where
  nodesOnly := by rw [h'.nodesOnly, h.nodesOnly]
  shouldBuild i := (h'.shouldBuild i).trans (h.shouldBuild i)
  visited i := (h'.visited i).trans (h.visited i)

theorem SameVisits.extends (h : SameVisits build build') :
    Extends manifest invocations build added build' added where
  nodesOnly := h.nodesOnly
  keeps i hi := ⟨(h.shouldBuild i).trans hi, rfl⟩
  visited := h.visited
  fresh i hi hi' := nomatch (hi.symm.trans (h.shouldBuild i)).trans hi'

theorem Extends.update (h : Extends manifest invocations build added build' added')
    (hidx : (build.stepNodes idx).shouldBuild = true) (more : List (Fin n)) :
    Extends manifest invocations build (update added idx (added idx ++ more)) build'
      (update added' idx (added' idx ++ more)) where
  nodesOnly := h.nodesOnly
  keeps i hi := by
    refine ⟨(h.keeps i hi).1, ?_⟩
    by_cases heq : i = idx
    · subst heq
      rw [update_self, update_self, (h.keeps i hi).2]
    · rw [update_of_ne heq, update_of_ne heq, (h.keeps i hi).2]
  visited := h.visited
  fresh i hi hi' := by
    have hne : i ≠ idx := by
      rintro rfl
      nomatch hidx.symm.trans hi'
    rw [update_of_ne hne]
    exact h.fresh i hi hi'

variable (manifest invocations)

def VisitSpec (visit : Build n → Fin n → Except Failure (Build n)) : Prop :=
  ∀ build added idx build', Linked build added → visit build idx = .ok build' →
    ∃ added', Linked build' added' ∧ Extends manifest invocations build added build' added' ∧
      (build'.stepNodes idx).shouldBuild = true ∧
      ∀ i, (build'.stepNodes i).shouldBuild = true → (build.stepNodes i).shouldBuild = false →
        Relation.ReflTransGen (Edge manifest invocations) idx i

/-- When a visit succeeds: no cycle is ahead, each step that is being visited depends on the one to
visit, and the bound on the depth leaves room for the steps that were not visited. -/
def VisitSucceeds (visit : Build n → Fin n → Except Failure (Build n)) (depth : Nat) : Prop :=
  ∀ build added idx, Linked build added → Search.Grounded (Edge manifest invocations) idx →
    (∀ j, (build.stepNodes j).currentlyVisited = true → DependsOn manifest invocations j idx) →
    (unvisited build).card < depth → ∃ build', visit build idx = .ok build'

variable {manifest invocations}

theorem Linked.updateNode (h : Linked build added) (idx : Fin n) (f : StepNode n → StepNode n)
    (hdependencies : ∀ node, (f node).dependencies = node.dependencies)
    (hdependents : ∀ node, (f node).dependents = node.dependents)
    (hbuild : ∀ node, (f node).shouldBuild = node.shouldBuild) : Linked (build.updateNode idx f) added where
  dependencies i := (updateNode_field build idx i f StepNode.dependencies hdependencies).trans (h.dependencies i)
  dependents s i := by
    rw [updateNode_field build idx s f StepNode.dependents hdependents, h.dependents]
  unvisited i hi := h.unvisited i ((updateNode_field build idx i f StepNode.shouldBuild hbuild).symm.trans hi)

theorem addEdge_none (visit : Build n → Fin n → Except Failure (Build n)) (idx : Fin n) (build : Build n) :
    ∃ build₁, addEdge visit idx build none = .ok build₁ ∧ SameVisits build build₁ ∧
      ∀ added, Linked build added → Linked build₁ added :=
  ⟨_, rfl, .updateNode build idx .setDependenciesBuilt (fun _ => rfl) fun _ => rfl,
    fun _ h => h.updateNode idx .setDependenciesBuilt (fun _ => rfl) (fun _ => rfl) fun _ => rfl⟩

theorem addEdge_some (visit : Build n → Fin n → Except Failure (Build n)) (idx d : Fin n) (build : Build n) :
    ∃ build₁, addEdge visit idx build (some d) = visit build₁ d ∧ SameVisits build build₁ ∧
      ∀ added, Linked build added → (build.stepNodes idx).shouldBuild = true →
        Linked build₁ (update added idx (added idx ++ [d])) :=
  ⟨_, rfl, .trans (.updateNode build d (.addDependent idx) (fun _ => rfl) fun _ => rfl)
    (.updateNode _ idx .addDependency (fun _ => rfl) fun _ => rfl),
    fun _ h hidx => h.addDependency hidx d⟩

section
variable {visit : Build n → Fin n → Except Failure (Build n)}
  (hvisit : VisitSpec manifest invocations visit) {idx : Fin n} {es : List (Option (Fin n))}
  (hedges : ∀ d ∈ es.filterMap id, Edge manifest invocations idx d)
include hvisit hedges

/-- The loop over the edges of a step that is being visited. -/
theorem foldlM_addEdge (hlinked : Linked build added) (hidx : (build.stepNodes idx).shouldBuild = true)
    (hrun : es.foldlM (addEdge visit idx) build = .ok build') :
    ∃ added', Linked build' added' ∧
      Extends manifest invocations build (update added idx (added idx ++ es.filterMap id)) build'
        added' ∧
      (∀ d ∈ es.filterMap id, (build'.stepNodes d).shouldBuild = true) ∧
      ∀ i, (build'.stepNodes i).shouldBuild = true → (build.stepNodes i).shouldBuild = false →
        Relation.ReflTransGen (Edge manifest invocations) idx i := by
  induction es generalizing build added with
  | nil =>
    cases hrun
    refine ⟨added, hlinked, ?_, by simp, fun i hi hi' => nomatch hi.symm.trans hi'⟩
    rw [filterMap_nil, append_nil, update_eq_self]
    exact .refl
  | cons e es ih =>
    rw [foldlM_cons] at hrun
    obtain ⟨build₂, hround, hrest⟩ := bind_eq_ok.mp hrun
    cases e with
    | none =>
      obtain ⟨build₁, hadd, hsame, hlinked₁⟩ := addEdge_none visit idx build
      cases hadd.symm.trans hround
      obtain ⟨added', hlinked', hextends, htargets, hreach⟩ :=
        ih hedges (hlinked₁ _ hlinked) ((hsame.shouldBuild idx).trans hidx) hrest
      exact ⟨added', hlinked', hsame.extends.trans hextends, htargets,
        fun i hi hi' => hreach i hi ((hsame.shouldBuild i).trans hi')⟩
    | some d =>
      obtain ⟨build₁, hadd, hsame, hlinked₁⟩ := addEdge_some visit idx d build
      obtain ⟨added₁, hadded₁⟩ : ∃ added₁, added₁ = update added idx (added idx ++ [d]) := ⟨_, rfl⟩
      have hd : Edge manifest invocations idx d := hedges d mem_cons_self
      have hextends₁ : Extends manifest invocations build added₁ build₁ added₁ := hsame.extends
      obtain ⟨added₂, hlinked₂, hextends₂, htarget, hreach₂⟩ := hvisit build₁ added₁ d build₂
        (hadded₁ ▸ hlinked₁ added hlinked hidx) (hadd.symm.trans hround)
      have hextends := hextends₁.trans hextends₂
      obtain ⟨added', hlinked', hextends', htargets, hreach⟩ := ih
        (fun d' hd' => hedges d' (mem_cons_of_mem _ hd')) hlinked₂
        (hextends.keeps idx hidx).1 hrest
      refine ⟨added', hlinked', ?_,
        forall_mem_cons.mpr ⟨(hextends'.keeps d htarget).1, htargets⟩, fun i hi hi' => ?_⟩
      swap
      · cases hmid : (build₂.stepNodes i).shouldBuild with
        | false => exact hreach i hi hmid
        | true => exact .head hd (hreach₂ i hmid ((hsame.shouldBuild i).trans hi'))
      have hadded : update added₁ idx (added₁ idx ++ es.filterMap id) =
          update added idx (added idx ++ (some d :: es).filterMap id) := by
        simp [hadded₁]
      exact hadded ▸ (hextends.update hidx _).trans hextends'

theorem foldlM_addEdge_succeeds {depth : Nat} (hsucceeds : VisitSucceeds manifest invocations visit depth)
    (hlinked : Linked build added) (hgrounded : Search.Grounded (Edge manifest invocations) idx)
    (hidx : (build.stepNodes idx).shouldBuild = true)
    (hpath : ∀ j, (build.stepNodes j).currentlyVisited = true → j = idx ∨ DependsOn manifest invocations j idx)
    (hdepth : (unvisited build).card < depth) : ∃ build', es.foldlM (addEdge visit idx) build = .ok build' := by
  induction es generalizing build added with
  | nil => exact ⟨build, rfl⟩
  | cons e es ih =>
    cases e with
    | none =>
      obtain ⟨build₁, hadd, hsame, hlinked₁⟩ := addEdge_none visit idx build
      have hsubset := (hsame.extends : Extends manifest invocations build added build₁ added).unvisited_subset
      obtain ⟨build', hrun⟩ := ih hedges (hlinked₁ _ hlinked)
        ((hsame.shouldBuild idx).trans hidx) (fun j hj => hpath j ((hsame.visited j).symm.trans hj))
        ((card_le_card hsubset).trans_lt hdepth)
      exact ⟨build', (foldlM_cons_of_ok hadd).trans hrun⟩
    | some d =>
      obtain ⟨build₁, hadd, hsame, hlinked₁⟩ := addEdge_some visit idx d build
      have hd : Edge manifest invocations idx d := hedges d mem_cons_self
      have hpath₁ : ∀ j, (build₁.stepNodes j).currentlyVisited = true → DependsOn manifest invocations j d := by
        intro j hj
        rcases hpath j ((hsame.visited j).symm.trans hj) with rfl | hdepends
        · exact .single hd
        · exact hdepends.tail hd
      have hextends₁ : Extends manifest invocations build added build₁ added := hsame.extends
      obtain ⟨build₂, hrun₂⟩ := hsucceeds build₁ _ d (hlinked₁ added hlinked hidx)
        (hgrounded.inv hd) hpath₁
        ((card_le_card hextends₁.unvisited_subset).trans_lt hdepth)
      obtain ⟨added₂, hlinked₂, hextends₂, -⟩ := hvisit build₁ _ d build₂ (hlinked₁ added hlinked hidx) hrun₂
      have hextends := hsame.extends.trans hextends₂
      obtain ⟨build', hrun⟩ := ih (fun d' hd' => hedges d' (mem_cons_of_mem _ hd')) hlinked₂
        (hextends.keeps idx hidx).1 (fun j hj => hpath j ((hextends.visited j).symm.trans hj))
        ((card_le_card hextends.unvisited_subset).trans_lt hdepth)
      exact ⟨build', (foldlM_cons_of_ok (hadd.trans hrun₂)).trans hrun⟩

end

theorem unvisited_startVisit (hidx : (build.stepNodes idx).shouldBuild = false) :
    (unvisited (build.updateNode idx .startVisit)).card < (unvisited build).card := by
  refine card_lt_card ((ssubset_iff_of_subset fun i hi => ?_).mpr ⟨idx, ?_, ?_⟩)
  · rw [unvisited, Finset.mem_filter] at hi ⊢
    refine ⟨hi.1, ?_⟩
    by_cases heq : i = idx
    · exact heq ▸ hidx
    · rw [← hi.2, updateNode_of_ne _ _ heq]
  · simpa [unvisited] using hidx
  · simp [unvisited, StepNode.startVisit]

theorem Linked.startVisit (h : Linked build added) (hidx : (build.stepNodes idx).shouldBuild = false) :
    Linked (build.updateNode idx .startVisit) added where
  dependencies i := by
    rw [updateNode_field build idx i .startVisit StepNode.dependencies fun _ => rfl, h.dependencies]
  dependents s i := by
    rw [updateNode_field build idx s .startVisit StepNode.dependents fun _ => rfl, h.dependents]
  unvisited i hi := by
    by_cases heq : i = idx
    · exact heq ▸ h.unvisited idx hidx
    · exact h.unvisited i (by rwa [updateNode_of_ne _ _ heq] at hi)

theorem shouldBuild_startVisit (build : Build n) (idx : Fin n) :
    ((build.updateNode idx .startVisit).stepNodes idx).shouldBuild = true := by
  rw [updateNode_self]
  rfl

/-- What the traversal does. The induction is on the depth. -/
theorem visitStep_spec (depth : Nat) : VisitSpec manifest invocations (visitStep manifest invocations depth) := by
  induction depth with
  | zero => exact fun _ _ _ _ _ h => nomatch h
  | succ depth ih =>
    intro build added idx build' hlinked hrun
    obtain ⟨hvisited, ⟨hbuild, rfl⟩ | ⟨hbuild, build₂, hloop, rfl⟩⟩ := visitStep_eq_ok hrun
    · exact ⟨added, hlinked, .refl, hbuild, fun i hi hi' => nomatch hi.symm.trans hi'⟩
    · have hidx := shouldBuild_startVisit build idx
      obtain ⟨added₂, hlinked₂, hextends, htargets, hreach⟩ := foldlM_addEdge ih
        (fun _ hd => hd : ∀ d ∈ (edgesOf manifest invocations idx).filterMap id, Edge manifest invocations idx d)
        (hlinked.startVisit hbuild) hidx hloop
      have hshould : ∀ i, ((build₂.updateNode idx .endVisit).stepNodes i).shouldBuild =
          (build₂.stepNodes i).shouldBuild := fun i =>
        updateNode_field build₂ idx i .endVisit StepNode.shouldBuild fun _ => rfl
      refine ⟨added₂, hlinked₂.updateNode idx .endVisit (fun _ => rfl) (fun _ => rfl) fun _ => rfl,
        ⟨?_, fun i hi => ?_, fun i => ?_, fun i hi hi' => ?_⟩,
        (hshould idx).trans (hextends.keeps idx hidx).1, fun i hi hi' => ?_⟩
      · rw [updateNode, hextends.nodesOnly]
        rfl
      · have hne : i ≠ idx := by
          rintro rfl
          nomatch hbuild.symm.trans hi
        have hkeeps := hextends.keeps i (by rwa [updateNode_of_ne _ _ hne])
        rw [update_of_ne hne] at hkeeps
        exact ⟨(hshould i).trans hkeeps.1, hkeeps.2⟩
      · by_cases heq : i = idx
        · rw [heq, updateNode_self, hvisited]
          rfl
        · rw [updateNode_of_ne _ _ heq, hextends.visited, updateNode_of_ne _ _ heq]
      · rw [hshould] at hi
        simp only [hshould]
        by_cases heq : i = idx
        · subst heq
          have hkeeps := (hextends.keeps i hidx).2
          rw [update_self, hlinked.unvisited i hbuild, nil_append] at hkeeps
          exact ⟨hkeeps, htargets⟩
        · exact hextends.fresh i hi (by rwa [updateNode_of_ne _ _ heq])
      · rw [hshould] at hi
        by_cases heq : i = idx
        · rw [heq]
        · exact hreach i hi (by rwa [updateNode_of_ne _ _ heq])

theorem visitStep_succeeds (depth : Nat) :
    VisitSucceeds manifest invocations (visitStep manifest invocations depth) depth := by
  induction depth with
  | zero => exact fun _ _ _ _ _ _ h => absurd h (Nat.not_lt_zero _)
  | succ depth ih =>
    intro build added idx hlinked hgrounded hpath hdepth
    have hvisited : (build.stepNodes idx).currentlyVisited = false :=
      Bool.eq_false_iff.mpr fun h => hgrounded.not_transGen (hpath idx h)
    cases hbuild : (build.stepNodes idx).shouldBuild with
    | true =>
      refine ⟨build, ?_⟩
      rw [visitStep, hvisited, hbuild]
      rfl
    | false =>
      have hpath₁ : ∀ j, ((build.updateNode idx .startVisit).stepNodes j).currentlyVisited = true →
          j = idx ∨ DependsOn manifest invocations j idx := by
        intro j hj
        by_cases heq : j = idx
        · exact .inl heq
        · exact .inr (hpath j (by rwa [updateNode_of_ne _ _ heq] at hj))
      obtain ⟨build₂, hloop⟩ := foldlM_addEdge_succeeds (visitStep_spec depth)
        (fun _ hd => hd : ∀ d ∈ (edgesOf manifest invocations idx).filterMap id, Edge manifest invocations idx d)
        ih (hlinked.startVisit hbuild) hgrounded (shouldBuild_startVisit build idx) hpath₁
        (Nat.lt_of_lt_of_le (unvisited_startVisit hbuild) (Nat.le_of_lt_succ hdepth))
      refine ⟨build₂.updateNode idx .endVisit, ?_⟩
      rw [visitStep_fresh _ _ depth hvisited hbuild, hloop]
      rfl

/-- The loop over the steps to build. -/
theorem foldlM_visitStep (hlinked : Linked build added)
    (hrun : roots.foldlM (visitStep manifest invocations depth) build = .ok build') :
    ∃ added', Linked build' added' ∧ Extends manifest invocations build added build' added' ∧
      (∀ r ∈ roots, (build'.stepNodes r).shouldBuild = true) ∧
      ∀ i, (build'.stepNodes i).shouldBuild = true → (build.stepNodes i).shouldBuild = false →
        ∃ r ∈ roots, Relation.ReflTransGen (Edge manifest invocations) r i := by
  induction roots generalizing build added with
  | nil =>
    cases hrun
    exact ⟨added, hlinked, .refl, by simp, fun i hi hi' => nomatch hi.symm.trans hi'⟩
  | cons r roots ih =>
    rw [foldlM_cons] at hrun
    obtain ⟨build₁, hrun₁, hrest⟩ := bind_eq_ok.mp hrun
    obtain ⟨added₁, hlinked₁, hextends₁, hr, hreach₁⟩ := visitStep_spec depth build added r build₁ hlinked hrun₁
    obtain ⟨added', hlinked', hextends, hroots, hreach⟩ := ih hlinked₁ hrest
    refine ⟨added', hlinked', hextends₁.trans hextends,
      forall_mem_cons.mpr ⟨(hextends.keeps r hr).1, hroots⟩, fun i hi hi' => ?_⟩
    cases hmid : (build₁.stepNodes i).shouldBuild with
    | true => exact ⟨r, mem_cons_self, hreach₁ i hmid hi'⟩
    | false =>
      obtain ⟨r', hr', hpath⟩ := hreach i hi hmid
      exact ⟨r', mem_cons_of_mem _ hr', hpath⟩

theorem foldlM_visitStep_succeeds (hgrounded : ∀ r ∈ roots, Search.Grounded (Edge manifest invocations) r)
    (hlinked : Linked build added) (hvisited : ∀ j, (build.stepNodes j).currentlyVisited = false) :
    ∃ build', roots.foldlM (visitStep manifest invocations (n + 1)) build = .ok build' := by
  induction roots generalizing build added with
  | nil => exact ⟨build, rfl⟩
  | cons r roots ih =>
    obtain ⟨hr, hgrounded⟩ := forall_mem_cons.mp hgrounded
    obtain ⟨build₁, hrun₁⟩ := visitStep_succeeds (n + 1) build added r hlinked hr
      (fun j hj => nomatch hj.symm.trans (hvisited j)) (Nat.lt_succ_of_le (unvisited_card_le build))
    obtain ⟨added₁, hlinked₁, hextends₁, -⟩ := visitStep_spec (n + 1) build added r build₁ hlinked hrun₁
    obtain ⟨build', hrun⟩ := ih hgrounded hlinked₁ fun j => (hextends₁.visited j).trans (hvisited j)
    exact ⟨build', (foldlM_cons_of_ok hrun₁).trans hrun⟩

end

/-- A graph that links all steps that are needed for the steps to build, and no others. -/
structure Constructed {n : Nat} (manifest : CompiledManifest n) (invocations : Invocations)
    (stepsToBuild : List (Fin n)) (build : Build n) : Prop where
  roots : ∀ r ∈ stepsToBuild, (build.stepNodes r).shouldBuild = true
  closed : ∀ i, (build.stepNodes i).shouldBuild = true →
    ∀ j ∈ edges manifest invocations i, (build.stepNodes j).shouldBuild = true
  reachable : ∀ i, (build.stepNodes i).shouldBuild = true →
    ∃ r ∈ stepsToBuild, Relation.ReflTransGen (Edge manifest invocations) r i
  dependencies : ∀ i, (build.stepNodes i).shouldBuild = true →
    (build.stepNodes i).dependencies = (edges manifest invocations i).length
  dependents : ∀ s i, (build.stepNodes s).dependents.count i =
    if (build.stepNodes i).shouldBuild = true then (edges manifest invocations i).count s else 0
  ready : build.readySteps = computeReadySteps build.stepNodes
  invokedCommands : build.invokedCommands = 0
  writtenFiles : build.writtenFiles = ∅
  outputFiles : build.outputFiles = ∅

variable {n : Nat} {manifest : CompiledManifest n} {invocations : Invocations} {stepsToBuild : List (Fin n)}

theorem linked_empty : Linked ({} : Build n) fun _ => [] := ⟨fun _ => rfl, fun _ _ => rfl, fun _ _ => rfl⟩

theorem construct_spec {failuresAllowed : UInt64} {build : Build n}
    (h : construct manifest invocations failuresAllowed stepsToBuild = .ok build) :
    Constructed manifest invocations stepsToBuild build ∧
      build.remainingFailures = failuresAllowed.toUInt32.toInt32 := by
  obtain ⟨build, hrun, hend⟩ := bind_eq_ok.mp h
  cases hend
  obtain ⟨added, hlinked, hextends, hroots, hreach⟩ := foldlM_visitStep linked_empty hrun
  have hnodes := hextends.nodesOnly
  refine ⟨⟨hroots, fun i hi => ?_, fun i hi => hreach i hi rfl, fun i hi => ?_, fun s i => ?_, rfl,
      congrArg Build.invokedCommands hnodes, congrArg Build.writtenFiles hnodes,
      congrArg Build.outputFiles hnodes⟩, rfl⟩
  · exact (hextends.fresh i hi rfl).2
  · exact (hlinked.dependencies i).trans (congrArg length (hextends.fresh i hi rfl).1)
  · refine (hlinked.dependents s i).trans ?_
    cases hi : (build.stepNodes i).shouldBuild with
    | true => rw [(hextends.fresh i hi rfl).1, if_pos rfl]
    | false =>
      rw [hlinked.unvisited i hi, if_neg Bool.false_ne_true]
      rfl

theorem construct_succeeds_of_grounded (failuresAllowed : UInt64)
    (hgrounded : ∀ r ∈ stepsToBuild, Search.Grounded (Edge manifest invocations) r) :
    ∃ build, construct manifest invocations failuresAllowed stepsToBuild = .ok build := by
  obtain ⟨build, hrun⟩ := foldlM_visitStep_succeeds hgrounded linked_empty fun _ => rfl
  rw [construct, hrun]
  exact ⟨_, rfl⟩

theorem Acyclic.grounded (hacyclic : Acyclic manifest invocations) (i : Fin n) :
    Search.Grounded (Edge manifest invocations) i :=
  Countdown.forall_of_acyclic hacyclic (fun _ => Search.grounded_of_edges) i

theorem construct_succeeds (hacyclic : Acyclic manifest invocations) (failuresAllowed : UInt64)
    (stepsToBuild : List (Fin n)) : ∃ build, construct manifest invocations failuresAllowed stepsToBuild = .ok build :=
  construct_succeeds_of_grounded failuresAllowed fun r _ => hacyclic.grounded r

end Build
end Shuriken
