import Shuriken.Manifest.Compile

/-!
# What the passes over the steps yield

The map from outputs to steps, and the dependencies and roots that are computed
with it.
-/
namespace Shuriken
open Except Search List PathToStepMap

theorem PathObject.isSame_iff {a b : PathObject} : a.isSame b = true ↔ a.canonicalizedPath = b.canonicalizedPath :=
  beq_iff_eq

section
variable {n : Nat}

def Maps (map : PathToStepMap n) (pairs : List (PathObject × Fin n)) : Prop :=
  ∀ path idx, map.find path = some idx ↔ ∃ pair ∈ pairs, pair.1.isSame path = true ∧ pair.2 = idx

def Consistent (pairs : List (PathObject × Fin n)) : Prop := ∀ a ∈ pairs, ∀ b ∈ pairs, a.1.isSame b.1 = true → a.2 = b.2

variable {map map' : PathToStepMap n} {seen pairs : List (PathObject × Fin n)}

theorem PathToStepMap.find_congr (map : PathToStepMap n) {path path' : PathObject}
    (h : path.isSame path' = true) : map.find path = map.find path' := by
  have heq := PathObject.isSame_iff.mp h
  simp only [find, PathObject.isSame, heq]

theorem PathToStepMap.find_append (map map' : PathToStepMap n) (path : PathObject) :
    find (map ++ map') path = (map.find path).or (find map' path) := by
  rw [find, find?_append, Option.map_or]
  rfl

theorem PathToStepMap.find_singleton (output path : PathObject) (idx : Fin n) :
    find [(output, idx)] path = if output.isSame path then some idx else none := by
  rw [find, find?_singleton]
  split <;> rfl

theorem Maps.consistent (h : Maps map pairs) : Consistent pairs := by
  intro a ha b hb hsame
  have ha' : map.find b.1 = some a.2 := (h _ _).mpr ⟨a, ha, hsame, rfl⟩
  have hb' : map.find b.1 = some b.2 := (h _ _).mpr ⟨b, hb, PathObject.isSame_iff.mpr rfl, rfl⟩
  exact Option.some.inj (ha'.symm.trans hb')

theorem addOutput_eq_ok {idx : Fin n} {output : PathObject} : addOutput idx map output = .ok map' ↔
      (map.find output = some idx ∧ map' = map) ∨ (map.find output = none ∧ map' = map ++ [(output, idx)]) := by
  rw [addOutput, emplace]
  cases hfind : map.find output with
  | none => simp [eq_comm]
  | some present =>
    by_cases hidx : present = idx
    · simp [hidx, eq_comm]
    · simp [hidx]

theorem Maps.addOutput {idx : Fin n} {output : PathObject} (h : Maps map seen)
    (hadd : addOutput idx map output = .ok map') : Maps map' (seen ++ [(output, idx)]) := by
  intro path idx'
  simp only [mem_append, mem_singleton, or_and_right, exists_or, exists_eq_left]
  rw [← h path idx']
  rcases addOutput_eq_ok.mp hadd with ⟨hfind, rfl⟩ | ⟨hfind, rfl⟩
  · refine ⟨.inl, ?_⟩
    rintro (hpath | ⟨hsame, rfl⟩)
    · exact hpath
    · exact (map'.find_congr hsame).symm.trans hfind
  · rw [find_append, find_singleton]
    by_cases hsame : output.isSame path = true
    · rw [← map.find_congr hsame, hfind]
      simp [hsame]
    · simp [hsame]

def addOutputs (pairs : List (PathObject × Fin n)) (map : PathToStepMap n) : Except CompileError (PathToStepMap n) :=
  pairs.foldlM (fun map pair => addOutput pair.2 map pair.1) map

theorem Maps.addOutputs (h : Maps map seen) (hadd : addOutputs pairs map = .ok map') : Maps map' (seen ++ pairs) := by
  induction pairs generalizing map seen with
  | nil =>
    cases hadd
    rwa [append_nil]
  | cons pair pairs ih =>
    rw [Shuriken.addOutputs, foldlM_cons] at hadd
    obtain ⟨map₁, hpair, hadd⟩ := bind_eq_ok.mp hadd
    rw [append_cons]
    exact ih (h.addOutput hpair) hadd

theorem Maps.addOutputs_succeeds (h : Maps map seen) (hpairs : Consistent (seen ++ pairs)) :
    ∃ map', Shuriken.addOutputs pairs map = .ok map' := by
  induction pairs generalizing map seen with
  | nil => exact ⟨map, rfl⟩
  | cons pair pairs ih =>
    have hpair : ∃ map₁, Shuriken.addOutput pair.2 map pair.1 = .ok map₁ := by
      cases hfind : map.find pair.1 with
      | none => exact ⟨_, addOutput_eq_ok.mpr (.inr ⟨hfind, rfl⟩)⟩
      | some idx =>
        obtain ⟨other, hother, hsame, rfl⟩ := (h _ _).mp hfind
        have hidx := hpairs other (mem_append_left _ hother) pair (by simp) hsame
        exact ⟨_, addOutput_eq_ok.mpr (.inl ⟨hfind.trans (congrArg some hidx), rfl⟩)⟩
    obtain ⟨map₁, hmap₁⟩ := hpair
    obtain ⟨map', hmap'⟩ := ih (h.addOutput hmap₁) (append_cons seen pair pairs ▸ hpairs)
    rw [Shuriken.addOutputs, foldlM_cons, hmap₁]
    exact ⟨map', hmap'⟩

end

def outputPairs (steps : List RawStep) : List (PathObject × Fin steps.length) :=
  (finRange steps.length).flatMap fun i => (steps.get i).outputs.map (·, i)

theorem mem_outputPairs {steps : List RawStep} {pair : PathObject × Fin steps.length} :
    pair ∈ outputPairs steps ↔ pair.1 ∈ (steps.get pair.2).outputs := by
  obtain ⟨output, i⟩ := pair
  simp [outputPairs]

theorem computeOutputPathMap_eq (steps : List RawStep) :
    computeOutputPathMap steps = addOutputs (outputPairs steps) [] := by
  have hflat : ∀ (indices : List (Fin steps.length)) (map : PathToStepMap steps.length),
      indices.foldlM (fun map i => (steps.get i).outputs.foldlM (addOutput i) map) map =
        addOutputs (indices.flatMap fun i => (steps.get i).outputs.map (·, i)) map := by
    intro indices
    induction indices with
    | nil => exact fun _ => rfl
    | cons i indices ih =>
      intro map
      simp only [addOutputs, foldlM_cons, flatMap_cons, foldlM_append, foldlM_map] at ih ⊢
      exact bind_congr ih
  exact hflat _ []

theorem maps_nil {n : Nat} : Maps ([] : PathToStepMap n) [] := fun _ _ => by simp [find]

theorem computeOutputPathMap_maps {steps : List RawStep} {map : PathToStepMap steps.length}
    (h : computeOutputPathMap steps = .ok map) : Maps map (outputPairs steps) :=
  maps_nil.addOutputs (computeOutputPathMap_eq steps ▸ h)

theorem computeOutputPathMap_succeeds_iff {steps : List RawStep} :
    (∃ map, computeOutputPathMap steps = .ok map) ↔ Consistent (outputPairs steps) := by
  constructor
  · rintro ⟨map, hmap⟩
    exact (computeOutputPathMap_maps hmap).consistent
  · intro h
    rw [computeOutputPathMap_eq]
    exact maps_nil.addOutputs_succeeds h

section
variable {n : Nat} {blake2b : Bytes → Hash} {map : PathToStepMap n}

def dependencyIndices (map : PathToStepMap n) (paths : List PathObject) : List (Fin n) := paths.filterMap map.find

theorem processInputs_dependencies (vars : StepInputs n) (paths : List PathObject) (direct : Bool) :
    (processInputs map vars paths direct).dependencies = vars.dependencies ++ dependencyIndices map paths := by
  induction paths generalizing vars with
  | nil => exact (append_nil _).symm
  | cons path paths ih =>
    rw [processInputs, foldl_cons, ← processInputs, ih, StepInputs.process, dependencyIndices,
      dependencyIndices, filterMap_cons]
    cases map.find path with
    | none => cases direct <;> rfl
    | some idx => exact append_assoc ..

theorem processInputs_roots (vars : StepInputs n) (paths : List PathObject) (direct : Bool) (j : Fin n) :
    (processInputs map vars paths direct).roots j = true ↔ vars.roots j = true ∧ j ∉ dependencyIndices map paths := by
  induction paths generalizing vars with
  | nil => exact (and_iff_left not_mem_nil).symm
  | cons path paths ih =>
    rw [processInputs, foldl_cons, ← processInputs, ih, StepInputs.process, dependencyIndices,
      dependencyIndices, filterMap_cons]
    cases map.find path with
    | none => cases direct <;> rfl
    | some idx =>
      by_cases hj : j = idx
      · simp [hj]
      · simp [hj]

/-- What of a step matters to the checks. -/
structure Converts (map : PathToStepMap n) (raw : RawStep) (step : CompiledStep n) : Prop where
  dependencies : step.dependencies = sortAndDedup (dependencyIndices map raw.allInputs)
  command : step.command = raw.command
  generator : step.generator = raw.generator

def RawStep.HasBadDepfile (raw : RawStep) : Prop := raw.generator = true ∧ raw.depfile ≠ []

theorem convertRawStep_eq_ok {roots roots' : Fin n → Bool} {raw : RawStep} {step : CompiledStep n}
    (h : convertRawStep blake2b map roots raw = .ok (step, roots')) : ¬ raw.HasBadDepfile ∧ Converts map raw step ∧
      ∀ j, roots' j = true ↔ roots j = true ∧ j ∉ dependencyIndices map raw.allInputs := by
  rw [convertRawStep] at h
  split at h
  · nomatch h
  · next hdepfile =>
    cases h
    refine ⟨hdepfile, ⟨?_, rfl, rfl⟩, fun j => ?_⟩
    · simp only [processInputs_dependencies, RawStep.allInputs, dependencyIndices, filterMap_append, nil_append]
    · simp only [processInputs_roots, RawStep.allInputs, dependencyIndices, filterMap_append, mem_append, not_or,
        and_assoc, and_self]

theorem convertRawStep_succeeds {roots : Fin n → Bool} {raw : RawStep} (h : ¬ raw.HasBadDepfile) :
    ∃ result, convertRawStep blake2b map roots raw = .ok result := by
  have hdepfile : ¬ (raw.generator = true ∧ raw.depfile ≠ []) := h
  rw [convertRawStep, if_neg hdepfile]
  exact ⟨_, rfl⟩

theorem convertStepVector_eq_ok {steps : List RawStep} {roots roots' : Fin n → Bool}
    {ans : { ans : List (CompiledStep n) // ans.length = steps.length }}
    (h : convertStepVector blake2b map steps roots = .ok (ans, roots')) :
    (∀ raw ∈ steps, ¬ raw.HasBadDepfile) ∧ Forall₂ (Converts map) steps ans.1 ∧
      ∀ j, roots' j = true ↔ roots j = true ∧ ∀ raw ∈ steps, j ∉ dependencyIndices map raw.allInputs := by
  induction steps generalizing roots with
  | nil =>
    cases h
    exact ⟨nofun, .nil, fun j => (and_iff_left nofun).symm⟩
  | cons raw steps ih =>
    rw [convertStepVector] at h
    obtain ⟨⟨step, roots₁⟩, hstep, h⟩ := bind_eq_ok.mp h
    obtain ⟨⟨rest, roots₂⟩, hrest, h⟩ := bind_eq_ok.mp h
    cases h
    obtain ⟨hdepfile, hconverts, hroots₁⟩ := convertRawStep_eq_ok hstep
    obtain ⟨hdepfiles, hall, hroots₂⟩ := ih hrest
    refine ⟨forall_mem_cons.mpr ⟨hdepfile, hdepfiles⟩, .cons hconverts hall, fun j => ?_⟩
    rw [hroots₂, hroots₁, forall_mem_cons, and_assoc]

theorem convertStepVector_succeeds {steps : List RawStep} {roots : Fin n → Bool}
    (h : ∀ raw ∈ steps, ¬ raw.HasBadDepfile) : ∃ result, convertStepVector blake2b map steps roots = .ok result := by
  induction steps generalizing roots with
  | nil => exact ⟨_, rfl⟩
  | cons raw steps ih =>
    obtain ⟨hraw, hsteps⟩ := forall_mem_cons.mp h
    obtain ⟨⟨step, roots₁⟩, hstep⟩ := convertRawStep_succeeds hraw
    obtain ⟨⟨rest, roots₂⟩, hrest⟩ := @ih roots₁ hsteps
    rw [convertStepVector]
    exact ⟨_, bind_eq_ok.mpr ⟨_, hstep, bind_eq_ok.mpr ⟨_, hrest, rfl⟩⟩⟩

theorem computeStepsToBuildFromPaths_succeeds_iff {paths : List PathObject} :
    (∃ indices, computeStepsToBuildFromPaths paths map = .ok indices) ↔
      ∀ path ∈ paths, ∃ idx, map.find path = some idx := by
  rw [computeStepsToBuildFromPaths, mapM_succeeds_iff]
  refine forall₂_congr fun path _ => ?_
  cases map.find path with
  | none => exact ⟨nofun, nofun⟩
  | some idx => exact ⟨fun _ => ⟨idx, rfl⟩, fun _ => ⟨idx, rfl⟩⟩

end
end Shuriken
