import Shuriken.Build.Construct
import Shuriken.Manifest.Searches

/-!
# Which manifests compile

A manifest compiles exactly if it is well formed, and the dependencies and
roots of the result are those of the paths in the manifest.
-/
namespace Shuriken
open Search List Relation

namespace RawManifest
variable (manifest : RawManifest)

def Builds (j : Fin manifest.steps.length) (path : PathObject) : Prop :=
  ∃ output ∈ (manifest.steps.get j).outputs, path.isSame output = true

/-- Some input, implicit input or dependency of the first step is the same as an output of the
second one. -/
def Edge (i j : Fin manifest.steps.length) : Prop :=
  ∃ path, (path ∈ (manifest.steps.get i).inputs ∨ path ∈ (manifest.steps.get i).implicitInputs ∨
    path ∈ (manifest.steps.get i).dependencies) ∧ manifest.Builds j path

structure WellFormed : Prop where
  outputs : ∀ i j, ∀ path ∈ (manifest.steps.get i).outputs, manifest.Builds j path → i = j
  defaults : ∀ path ∈ manifest.defaults, ∃ j, manifest.Builds j path
  depfiles : ∀ i, (manifest.steps.get i).generator = true → (manifest.steps.get i).depfile = []
  acyclic : ∀ i, ¬ TransGen manifest.Edge i i
  /-- Phony steps may depend on anything, and anything on them. -/
  generators : ∀ i j, TransGen manifest.Edge i j → (manifest.steps.get i).command ≠ [] →
    (manifest.steps.get j).command ≠ [] →
    (manifest.steps.get j).generator = (manifest.steps.get i).generator

variable {manifest}

theorem edge_iff {i j : Fin manifest.steps.length} :
    manifest.Edge i j ↔ ∃ path ∈ (manifest.steps.get i).allInputs, manifest.Builds j path := by
  simp only [Edge, RawStep.allInputs, mem_append, or_assoc]

theorem consistent_iff : Consistent (outputPairs manifest.steps) ↔
    ∀ i j, ∀ path ∈ (manifest.steps.get i).outputs, manifest.Builds j path → i = j := by
  constructor
  · rintro h i j path hpath ⟨output, houtput, hsame⟩
    exact h (path, i) (mem_outputPairs.mpr hpath) (output, j) (mem_outputPairs.mpr houtput) hsame
  · rintro h ⟨path, i⟩ hpath ⟨output, j⟩ houtput hsame
    exact h i j path (mem_outputPairs.mp hpath) ⟨output, mem_outputPairs.mp houtput, hsame⟩

variable {map : PathToStepMap manifest.steps.length}

section
variable (h : computeOutputPathMap manifest.steps = .ok map)
include h

theorem find_eq_some_iff {path : PathObject}
    {j : Fin manifest.steps.length} : map.find path = some j ↔ manifest.Builds j path := by
  rw [computeOutputPathMap_maps h path j]
  constructor
  · rintro ⟨⟨output, _⟩, hmem, hsame, rfl⟩
    exact ⟨output, mem_outputPairs.mp hmem, PathObject.isSame_iff.mpr (PathObject.isSame_iff.mp hsame).symm⟩
  · rintro ⟨output, hmem, hsame⟩
    exact ⟨(output, j), mem_outputPairs.mpr hmem, PathObject.isSame_iff.mpr (PathObject.isSame_iff.mp hsame).symm, rfl⟩

theorem pathEdge_eq : PathEdge map manifest.steps.get = manifest.Edge := by
  ext i j
  rw [edge_iff]
  exact exists_congr fun path => and_congr_right fun _ => find_eq_some_iff h

theorem mem_dependencyIndices_iff {i j : Fin manifest.steps.length} :
    j ∈ dependencyIndices map (manifest.steps.get i).allInputs ↔ manifest.Edge i j := by
  rw [dependencyIndices, mem_filterMap, edge_iff]
  exact exists_congr fun path => and_congr_right fun _ => find_eq_some_iff h

end

theorem compile_passes {blake2b : Bytes → Hash} {manifestPath : PathObject}
    {buffer : ManifestBuffer manifest.steps.length} (h : compile blake2b manifestPath manifest = .ok buffer) :
    ∃ map ans roots defaults, computeOutputPathMap manifest.steps = .ok map ∧
      convertStepVector blake2b map manifest.steps (fun _ => true) = .ok (ans, roots) ∧
      computeStepsToBuildFromPaths manifest.defaults map = .ok defaults ∧
      getDependencyCycle map manifest.steps.get = "" ∧
      getBadGeneratorDependency (fun i => (buffer.steps i).toStep) = "" ∧
      (∀ i, buffer.steps i = ans.1.get (i.cast ans.2.symm)) ∧
      buffer.roots = (finRange manifest.steps.length).filter (roots ·) ∧ buffer.defaults = defaults ∧
      buffer.outputs = computePathList map ∧ buffer.inputs = computePathList (computeInputPathMap manifest.steps) := by
  rw [compile] at h
  obtain ⟨map, hmap, h⟩ := Except.bind_eq_ok.mp h
  obtain ⟨⟨ans, roots⟩, hsteps, h⟩ := Except.bind_eq_ok.mp h
  obtain ⟨defaults, hdefaults, h⟩ := Except.bind_eq_ok.mp h
  simp only at h
  split at h
  · nomatch h
  · next hbad =>
    split at h
    · nomatch h
    · next hcycle =>
      cases h
      exact ⟨map, ans, roots, defaults, hmap, hsteps, hdefaults, not_ne_iff.mp hcycle,
        not_ne_iff.mp hbad, fun _ => rfl, rfl, rfl, rfl, rfl⟩

variable (manifest) in
/-- The converted steps have the edges of the manifest, and are of the same kind. -/
structure Agrees (steps : Fin manifest.steps.length → CompiledStep manifest.steps.length) : Prop where
  increasing : ∀ i, (steps i).dependencies.Pairwise (· < ·)
  dependencies : ∀ i j, j ∈ (steps i).dependencies ↔ manifest.Edge i j
  phony : ∀ i, (steps i).phony = false ↔ (manifest.steps.get i).command ≠ []
  generator : ∀ i, (steps i).generator = (manifest.steps.get i).generator

theorem agrees_of_converts
    {ans : { ans : List (CompiledStep manifest.steps.length) // ans.length = manifest.steps.length }}
    (hmap : computeOutputPathMap manifest.steps = .ok map) (h : Forall₂ (Converts map) manifest.steps ans.1) :
    manifest.Agrees fun i => ans.1.get (i.cast ans.2.symm) := by
  have hconverts : ∀ i : Fin manifest.steps.length,
      Converts map (manifest.steps.get i) (ans.1.get (i.cast ans.2.symm)) :=
    fun i => h.get i.2 (i.cast ans.2.symm).2
  refine ⟨fun i => ?_, fun i j => ?_, fun i => ?_, fun i => (hconverts i).generator⟩
  · rw [(hconverts i).dependencies]
    exact sortAndDedup_pairwise_lt _
  · rw [(hconverts i).dependencies, mem_sortAndDedup, mem_dependencyIndices_iff hmap]
  · rw [Step.phony, (hconverts i).command, ← List.isEmpty_eq_false_iff]

variable {steps : Fin manifest.steps.length → CompiledStep manifest.steps.length}

theorem Agrees.stepEdge (h : manifest.Agrees steps) : StepEdge (fun i => (steps i).toStep) = manifest.Edge := by
  ext i j
  exact h.dependencies i j

theorem Agrees.bad_eq_empty_iff (h : manifest.Agrees steps) (hacyclic : Acyclic manifest.Edge) :
    getBadGeneratorDependency (fun i => (steps i).toStep) = "" ↔
      ∀ i j, TransGen manifest.Edge i j → (manifest.steps.get i).command ≠ [] → (manifest.steps.get j).command ≠ [] →
        (manifest.steps.get j).generator = (manifest.steps.get i).generator := by
  rw [getBadGeneratorDependency_eq_empty_iff (h.stepEdge ▸ hacyclic), h.stepEdge]
  simp only [h.phony, h.generator]

variable {blake2b : Bytes → Hash} {manifestPath : PathObject} {buffer : ManifestBuffer manifest.steps.length}

theorem wellFormed_of_compile (h : compile blake2b manifestPath manifest = .ok buffer) : manifest.WellFormed := by
  obtain ⟨map, ans, roots, defaults, hmap, hsteps, hdefaults, hcycle, hbad, hbuffer, -⟩ := compile_passes h
  obtain ⟨hdepfiles, hconverts, -⟩ := convertStepVector_eq_ok hsteps
  have hacyclic : Acyclic manifest.Edge := pathEdge_eq hmap ▸ getDependencyCycle_eq_empty_iff.mp hcycle
  rw [funext hbuffer] at hbad
  refine ⟨consistent_iff.mp (computeOutputPathMap_succeeds_iff.mp ⟨map, hmap⟩), fun path hpath => ?_,
    fun i hgenerator => ?_, hacyclic, ((agrees_of_converts hmap hconverts).bad_eq_empty_iff hacyclic).mp hbad⟩
  · obtain ⟨j, hj⟩ := computeStepsToBuildFromPaths_succeeds_iff.mp ⟨defaults, hdefaults⟩ path hpath
    exact ⟨j, (find_eq_some_iff hmap).mp hj⟩
  · exact of_not_not fun hne => hdepfiles _ (get_mem manifest.steps i) ⟨hgenerator, hne⟩

theorem WellFormed.compile (h : manifest.WellFormed) (blake2b : Bytes → Hash) (manifestPath : PathObject) :
    ∃ buffer, compile blake2b manifestPath manifest = .ok buffer := by
  obtain ⟨map, hmap⟩ := computeOutputPathMap_succeeds_iff.mpr (consistent_iff.mpr h.outputs)
  have hdepfiles : ∀ raw ∈ manifest.steps, ¬ raw.HasBadDepfile := by
    rintro raw hraw ⟨hgenerator, hdepfile⟩
    obtain ⟨i, rfl⟩ := get_of_mem hraw
    exact hdepfile (h.depfiles i hgenerator)
  obtain ⟨⟨ans, roots⟩, hsteps⟩ := @convertStepVector_succeeds _ blake2b map manifest.steps (fun _ => true) hdepfiles
  obtain ⟨defaults, hdefaults⟩ := computeStepsToBuildFromPaths_succeeds_iff.mpr fun path hpath => by
    obtain ⟨j, hj⟩ := h.defaults path hpath
    exact ⟨j, (find_eq_some_iff hmap).mpr hj⟩
  have hagrees := agrees_of_converts hmap (convertStepVector_eq_ok hsteps).2.1
  have hcycle := getDependencyCycle_eq_empty_iff.mpr (pathEdge_eq hmap ▸ h.acyclic)
  have hbad := (hagrees.bad_eq_empty_iff h.acyclic).mpr h.generators
  simp only [Shuriken.compile, hmap, hsteps, hdefaults, hcycle, hbad, bind, Except.bind, ne_eq, not_true_eq_false,
    if_false]
  exact ⟨_, rfl⟩

section
variable (h : compile blake2b manifestPath manifest = .ok buffer)
include h

theorem agrees_of_compile : manifest.Agrees buffer.steps := by
  obtain ⟨map, ans, roots, defaults, hmap, hsteps, -, -, -, hbuffer, -⟩ := compile_passes h
  rw [funext hbuffer]
  exact agrees_of_converts hmap (convertStepVector_eq_ok hsteps).2.1

theorem mem_roots_of_compile (j : Fin manifest.steps.length) : j ∈ buffer.roots ↔ ∀ i, ¬ manifest.Edge i j := by
  obtain ⟨map, ans, roots, defaults, hmap, hsteps, -, -, -, -, hroots, -⟩ := compile_passes h
  rw [hroots, mem_filter, (convertStepVector_eq_ok hsteps).2.2 j]
  simp only [mem_finRange, true_and, ← mem_dependencyIndices_iff hmap]
  exact ⟨fun hall i => hall _ (get_mem manifest.steps i), fun hall raw hraw => by
    obtain ⟨i, rfl⟩ := get_of_mem hraw
    exact hall i⟩

theorem nodup_roots_of_compile : buffer.roots.Nodup := by
  obtain ⟨map, ans, roots, defaults, -, -, -, -, -, -, hroots, -⟩ := compile_passes h
  exact hroots ▸ (nodup_finRange _).filter _

theorem defaults_of_compile (hdefaults : manifest.defaults = []) : buffer.defaults = [] := by
  obtain ⟨map, ans, roots, defaults, -, -, hsteps, -, -, -, -, hbuffer, -⟩ := compile_passes h
  rw [hdefaults] at hsteps
  exact hbuffer.trans (Except.ok.inj hsteps).symm

theorem acyclic_of_compile {invocations : Invocations}
    (hadditional : ∀ i, Build.additionalDependencies buffer.toCompiledManifest invocations i = []) :
    Build.Acyclic buffer.toCompiledManifest invocations := by
  have hedge : Build.Edge buffer.toCompiledManifest invocations = manifest.Edge := by
    ext i j
    rw [← (agrees_of_compile h).dependencies i j]
    simp only [Build.Edge, Build.edges, Build.edgesOf, hadditional, map_nil, append_nil, filterMap_map,
      Function.id_comp, filterMap_some]
    rfl
  intro i hi
  rw [Build.DependsOn, hedge] at hi
  exact (wellFormed_of_compile h).acyclic i hi

end

end RawManifest

/-- A manifest compiles exactly if it is well formed. Then the dependencies of each step are the
steps that have its inputs as outputs, in increasing order, and the roots are the steps that no
step depends on. -/
theorem compile_succeeds_iff (blake2b : Bytes → Hash) (manifestPath : PathObject) (manifest : RawManifest) :
    ((∃ buffer, compile blake2b manifestPath manifest = .ok buffer) ↔ manifest.WellFormed) ∧
      ∀ buffer, compile blake2b manifestPath manifest = .ok buffer →
        (∀ i, (buffer.steps i).dependencies.Pairwise (· < ·) ∧
          ∀ j, j ∈ (buffer.steps i).dependencies ↔ manifest.Edge i j) ∧
        buffer.roots.Nodup ∧ ∀ j, j ∈ buffer.roots ↔ ∀ i, ¬ manifest.Edge i j := by
  refine ⟨⟨?_, fun h => h.compile blake2b manifestPath⟩, fun buffer h => ?_⟩
  · rintro ⟨buffer, h⟩
    exact RawManifest.wellFormed_of_compile h
  · have hagrees := RawManifest.agrees_of_compile h
    exact ⟨fun i => ⟨hagrees.increasing i, hagrees.dependencies i⟩, RawManifest.nodup_roots_of_compile h,
      RawManifest.mem_roots_of_compile h⟩

def usingManifest : RawManifest where
  steps := [{ inputs := [⟨0, [97]⟩], outputs := [⟨1, [98]⟩], command := [120] },
    { outputs := [⟨0, [46, 47, 97]⟩], command := [121] }]
  defaults := [⟨1, [98]⟩]

def usingStep : Fin usingManifest.steps.length := ⟨0, by decide⟩
def usedStep : Fin usingManifest.steps.length := ⟨1, by decide⟩

theorem compile_succeeds_iff_using :
    usingManifest.WellFormed ∧ ∃ buffer, compile (fun _ => .zero) ⟨2, [109]⟩ usingManifest = .ok buffer ∧
      usingManifest.Edge usingStep usedStep ∧ usingStep ∈ buffer.roots ∧ usedStep ∉ buffer.roots := by
  have hok : ∃ buffer, compile (fun _ => .zero) ⟨2, [109]⟩ usingManifest = .ok buffer ∧
      usedStep ∈ (buffer.steps usingStep).dependencies ∧ usingStep ∈ buffer.roots := by
    decide +kernel
  obtain ⟨buffer, hcompile, hdependency, hroot⟩ := hok
  obtain ⟨hiff, hresult⟩ := compile_succeeds_iff (fun _ => .zero) ⟨2, [109]⟩ usingManifest
  obtain ⟨hsteps, -, hroots⟩ := hresult buffer hcompile
  have hedge : usingManifest.Edge usingStep usedStep := ((hsteps usingStep).2 usedStep).mp hdependency
  exact ⟨hiff.mp ⟨buffer, hcompile⟩, buffer, hcompile, hedge, hroot, fun h => (hroots usedStep).mp h usingStep hedge⟩

/-- If there are no defaults, all steps are to be built: each of them is needed for a root. -/
theorem roots_build_everything {blake2b : Bytes → Hash} {manifestPath : PathObject} {manifest : RawManifest}
    {buffer : ManifestBuffer manifest.steps.length} (h : compile blake2b manifestPath manifest = .ok buffer)
    (hdefaults : manifest.defaults = []) :
    ∃ stepsToBuild, computeStepsToBuild buffer.toCompiledManifest [] = .ok stepsToBuild ∧ ∀ invocations failuresAllowed,
        (∀ build, Build.construct buffer.toCompiledManifest invocations failuresAllowed stepsToBuild = .ok build →
          ∀ i, (build.stepNodes i).shouldBuild = true) ∧
        ((∀ i, Build.additionalDependencies buffer.toCompiledManifest invocations i = []) →
          ∃ build, Build.construct buffer.toCompiledManifest invocations failuresAllowed stepsToBuild = .ok build) := by
  have hacyclic := (RawManifest.wellFormed_of_compile h).acyclic
  have hsource : ∀ i, ∃ r ∈ buffer.roots, ReflTransGen manifest.Edge r i := by
    intro i
    obtain ⟨r, hr, hpath⟩ := exists_source hacyclic i
    exact ⟨r, (RawManifest.mem_roots_of_compile h r).mpr hr, hpath⟩
  refine ⟨buffer.roots, ?_, fun invocations failuresAllowed => ⟨fun build hbuild i => ?_, fun hadditional =>
    Build.construct_succeeds (RawManifest.acyclic_of_compile h hadditional) failuresAllowed buffer.roots⟩⟩
  · have hroots : ¬ (buffer.roots = [] ∧ manifest.steps.length ≠ 0) := by
      rintro ⟨hempty, hne⟩
      obtain ⟨r, hr, -⟩ := hsource ⟨0, Nat.pos_of_ne_zero hne⟩
      rw [hempty] at hr
      nomatch hr
    have hbuffer : buffer.toCompiledManifest.defaults = [] := RawManifest.defaults_of_compile h hdefaults
    rw [computeStepsToBuild, if_neg (not_not.mpr rfl), if_neg (not_not.mpr hbuffer)]
    exact if_neg hroots
  · obtain ⟨hconstructed, -⟩ := Build.construct_spec hbuild
    obtain ⟨r, hr, hpath⟩ := hsource i
    induction hpath with
    | refl => exact hconstructed.roots r hr
    | tail _ hedge ih =>
      exact hconstructed.closed _ ih _ (Build.edge_of_dependencies
        (((RawManifest.agrees_of_compile h).dependencies _ _).mpr hedge))

theorem roots_build_everything_using :
    ∃ buffer stepsToBuild build,
      compile (fun _ => .zero) ⟨2, [109]⟩ { usingManifest with defaults := [] } = .ok buffer ∧
      computeStepsToBuild buffer.toCompiledManifest [] = .ok stepsToBuild ∧
      Build.construct buffer.toCompiledManifest {} 1 stepsToBuild = .ok build ∧
      ∀ i, (build.stepNodes i).shouldBuild = true := by
  have hok : (compile (fun _ => .zero) ⟨2, [109]⟩ { usingManifest with defaults := [] }).toOption.isSome = true := by
    decide +kernel
  obtain ⟨buffer, hbuffer⟩ := Option.isSome_iff_exists.mp hok
  have hcompile := Except.toOption_eq_some.mp hbuffer
  obtain ⟨stepsToBuild, hsteps, hbuild⟩ := roots_build_everything hcompile rfl
  obtain ⟨hall, hconstruct⟩ := hbuild {} 1
  obtain ⟨build, hok⟩ := hconstruct fun _ => rfl
  exact ⟨buffer, stepsToBuild, build, hcompile, hsteps, hok, hall build hok⟩

end Shuriken
