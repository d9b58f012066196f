import Shuriken.Build.Attribution
import Shuriken.Build.Corrections
import Shuriken.Build.Cycles

/-!
# Builds after the manifest was edited

The log refers to steps by their hashes, but to the dependencies that a step did not use by their positions in
the manifest.
-/
namespace Shuriken
open Option Except

section
variable {σ : Type} {n m : Nat} {params : BuildCommandParameters σ n} {w w' : World σ n}

variable (params w) in
/-- The files that a command has read, as they are in `fs`, include an output of step `j`. -/
def World.Uses (fs : σ) (result : CommandResult) (j : Fin n) : Prop :=
  ∃ path ∈ result.inputFiles, (params.fileSystem.fileId fs path).missing = false ∧
    w.build.outputFiles.lookup (params.fileSystem.fileId fs path) = some j

variable (params w) in
def World.Unused (fs : σ) (s : Fin n) (result : CommandResult) (j : Fin n) : Prop :=
  j ∈ (params.manifest.steps s).dependencies ∧ ¬ w.Uses params fs result j

theorem fingerprintInputs_fileIds {now : Int64} {disk : Disk σ} {paths : List Path}
    {inputs : List ((Path × Fingerprint) × FileId)} (h : fingerprintInputs params now disk paths = .ok inputs) :
    inputs.map Prod.snd = paths.map (params.fileSystem.fileId disk.fs) := by
  rw [fingerprintInputs] at h
  induction paths generalizing inputs with
  | nil =>
    cases h
    rfl
  | cons path paths ih =>
    rw [List.mapM_cons] at h
    obtain ⟨input, hinput, h⟩ := bind_eq_ok.mp h
    obtain ⟨rest, hrest, h⟩ := bind_eq_ok.mp h
    cases h
    split at hinput
    · nomatch hinput
    · next fp fileId hfingerprint =>
      cases hinput
      rw [List.map_cons, List.map_cons, ih hrest]
      exact congrArg (· :: _) (fingerprint_fileId hfingerprint)

variable {result : CommandResult}

theorem ignoredDependencies_of_logged {s : Fin n} {command : RanCommand}
    (hnext : w.next params (.commandDone s result) = some w')
    (hlogged : w'.disk.log.commands = w.disk.log.commands ++ [command]) :
    command.ignoredDependencies = (ignoredAndAdditionalDependencies w.build.outputFiles params.manifest
      (params.manifest.steps s) (result.inputFiles.map (params.fileSystem.fileId w'.disk.fs))).1 := by
  obtain ⟨disk, outputs, inputs, hfiles, -, hfs, hcommand, -⟩ := fingerprinted_of_logged hnext (by rw [hlogged]; simp)
  obtain rfl := List.singleton_inj.mp (List.append_cancel_left (hlogged.symm.trans hcommand))
  rw [hfs, ← fingerprintInputs_fileIds hfiles.inputs]
  rfl

theorem unused_iff {fs : σ} {s j : Fin n} : w.Unused params fs s result j ↔ j ∈ (params.manifest.steps s).dependencies ∧
      ¬ UsedBy w.build.outputFiles (result.inputFiles.map (params.fileSystem.fileId fs)) j := by
  simp only [World.Unused, World.Uses, UsedBy, List.mem_map, exists_exists_and_eq_and]

/-- Ignored dependencies keep their meaning exactly if the positions of the dependencies that were
not used are taken by such dependencies, or by nothing, in the edited manifest. -/
theorem ignored_dependencies_survive_iff {blake2b : Bytes → Hash} {manifestPath : PathObject} {manifest : RawManifest}
    {buffer : ManifestBuffer manifest.steps.length} (hcompile : compile blake2b manifestPath manifest = .ok buffer)
    (hn : manifest.steps.length ≤ 2 ^ 31) {params : BuildCommandParameters σ manifest.steps.length}
    (hmanifest : params.manifest = buffer.toCompiledManifest) {w w' : World σ manifest.steps.length}
    {s : Fin manifest.steps.length} {result : CommandResult} {command : RanCommand}
    (hnext : w.next params (.commandDone s result) = some w')
    (hlogged : w'.disk.log.commands = w.disk.log.commands ++ [command]) (edited : CompiledManifest m) (hm : m ≤ 2 ^ 31)
    {invocations : Invocations} {entry : InvocationEntry}
    (hentry : invocations.entries.lookup (params.manifest.steps s).hash = some entry)
    (hignored : entry.ignoredDependencies = command.ignoredDependencies) :
    (∀ i : Fin m, stepIsIgnored invocations (params.manifest.steps s).hash i = true →
        ∃ j, w.Unused params w'.disk.fs s result j ∧ (edited.steps i).hash = (params.manifest.steps j).hash) ↔
      ∀ j, w.Unused params w'.disk.fs s result j → ∀ i : Fin m, i.val = j.val →
        ∃ j', w.Unused params w'.disk.fs s result j' ∧ (edited.steps i).hash = (params.manifest.steps j').hash := by
  have hdeps : (params.manifest.steps s).dependencies.Pairwise (· < ·) :=
    hmanifest ▸ (RawManifest.agrees_of_compile hcompile).increasing s
  have hcommand := hignored.trans (ignoredDependencies_of_logged hnext hlogged)
  have hfound : ∀ i : Fin m, stepIsIgnored invocations (params.manifest.steps s).hash i = true ↔
      ∃ j, w.Unused params w'.disk.fs s result j ∧ i.val = j.val := by
    intro i
    rw [stepIsIgnored, hentry]
    simp only [hcommand, unused_iff, and_assoc]
    rw [binarySearch_iff ((ignored_increasing hn hdeps).imp UInt32.le_of_lt), mem_ignored hdeps]
    refine exists_congr fun j => and_congr_right fun _ => and_congr_right fun _ => ?_
    exact (ofNat_val_inj hn hm).trans eq_comm
  simp only [hfound]
  exact ⟨fun h j hj i hij => h i ⟨j, hj, hij⟩, fun h i hi => hi.elim fun j hj => h j hj.1 i hj.2⟩

end

def makes (output : UInt8) (inputs : List UInt8) : RawStep where
  inputs := inputs.map fun name => ⟨name.toNat, [name]⟩
  outputs := [⟨output.toNat, [output]⟩]
  command := [120]

def file (name : UInt8) : Path × FlatFile := ([name], { ino := name.toUInt64, mtime := 10, contents := [name] })

def buildFrom (manifest : RawManifest) (files : FlatFiles) (log : Option Bytes) :
    Option (ManifestBuffer manifest.steps.length ×
      BuildCommandParameters FlatFiles manifest.steps.length × World FlatFiles manifest.steps.length) := do
  let buffer ← (compile Hash.ofBytes ⟨0, [109]⟩ manifest).toOption
  let begun ← openBuild .valueFirst flatFileSystem buffer.toCompiledManifest 1 [] (fun _ => 10) 10 files log
  return (buffer, begun)

def declaredManifest : RawManifest := { steps := [makes 97 [], makes 98 [], makes 99 [97, 98]] }

def reorderedManifest : RawManifest := { steps := [makes 98 [], makes 97 [], makes 99 [97, 98]] }

def declaredA : Fin declaredManifest.steps.length := ⟨0, by decide⟩
def declaredB : Fin declaredManifest.steps.length := ⟨1, by decide⟩
def declaredC : Fin declaredManifest.steps.length := ⟨2, by decide⟩
def reorderedB : Fin reorderedManifest.steps.length := ⟨0, by decide⟩
def reorderedC : Fin reorderedManifest.steps.length := ⟨2, by decide⟩

def declaredEvents : List (Event FlatFiles declaredManifest.steps.length) :=
  [.discard, .discard, .discard, .enqueue true, .enqueue true, .enqueue true,
    .effect declaredA [file 97], .effect declaredB [file 97, file 98], .tick 12,
    .commandDone declaredA { outputFiles := [[97]] }, .enqueue true,
    .commandDone declaredB { outputFiles := [[98]] }, .enqueue true, .enqueue true,
    .effect declaredC [file 97, file 98, file 99], .tick 14]

def readsB : CommandResult := { inputFiles := [[98]], outputFiles := [[99]] }

instance {σ : Type} {n : Nat} (params : BuildCommandParameters σ n) (w : World σ n) (fs : σ)
    (result : CommandResult) (j : Fin n) : Decidable (w.Uses params fs result j) :=
  inferInstanceAs (Decidable (∃ path ∈ result.inputFiles, _))

instance {σ : Type} {n : Nat} (params : BuildCommandParameters σ n) (w : World σ n) (fs : σ) (s : Fin n)
    (result : CommandResult) (j : Fin n) : Decidable (w.Unused params fs s result j) :=
  inferInstanceAs (Decidable (_ ∧ _))

/-- A build, before and after the command that makes `c`, and the log that it leaves. -/
structure DeclaredBuild where
  buffer : ManifestBuffer declaredManifest.steps.length
  params : BuildCommandParameters FlatFiles declaredManifest.steps.length
  before : World FlatFiles declaredManifest.steps.length
  after : World FlatFiles declaredManifest.steps.length
  invocations : Invocations

def declaredBuild : Option DeclaredBuild := do
  let (buffer, params, w₀) ← buildFrom declaredManifest [] none
  let w ← w₀.run (fun _ _ => true) params declaredEvents
  let w₁ ← w.next params (.commandDone declaredC readsB)
  let w₂ ← w₁.run (fun _ _ => true) params [.enqueue true, .finish]
  guard (w₂.returned = some .success)
  let (result, _) ← (parsePersistentInvocationLog .valueFirst (flatFileSystem.lstat w₂.disk.fs)
    (some w₂.logFile)).toOption
  return ⟨buffer, params, w, w₁, result.invocations⟩

/-- After the steps have been reordered `b`, which `c` is made of, counts as ignored. -/
theorem ignored_dependency_was_used : ∃ built, declaredBuild = some built ∧
    ∃ reordered, compile Hash.ofBytes ⟨0, [109]⟩ reorderedManifest = .ok reordered ∧
      (reordered.steps reorderedC).hash = (built.buffer.steps declaredC).hash ∧
      stepIsIgnored built.invocations (reordered.steps reorderedC).hash reorderedB = true ∧
      (reordered.steps reorderedB).hash = (built.buffer.steps declaredB).hash ∧
      built.before.Uses built.params built.after.disk.fs readsB declaredB ∧
      ¬ ∃ j, built.before.Unused built.params built.after.disk.fs declaredC readsB j ∧
        (reordered.steps reorderedB).hash = (built.params.manifest.steps j).hash := by
  decide +kernel

def extendedManifest : RawManifest := { steps := declaredManifest.steps ++ [makes 100 [99]] }

theorem ignored_dependencies_survive_extension : ∃ built extended, declaredBuild = some built ∧
      compile Hash.ofBytes ⟨0, [109]⟩ extendedManifest = .ok extended ∧
      ∀ i, stepIsIgnored built.invocations (built.params.manifest.steps declaredC).hash i = true →
        ∃ j, built.before.Unused built.params built.after.disk.fs declaredC readsB j ∧
          (extended.toCompiledManifest.steps i).hash = (built.params.manifest.steps j).hash := by
  have h : (declaredBuild.any fun ⟨_, params, w, w₁, invocations⟩ =>
      w₁.disk.log.commands.getLast?.any fun command =>
      (invocations.entries.lookup (params.manifest.steps declaredC).hash).any fun entry =>
      (compile Hash.ofBytes ⟨0, [109]⟩ extendedManifest).toOption.any fun extended =>
      decide (w₁.disk.log.commands = w.disk.log.commands ++ [command] ∧
        entry.ignoredDependencies = command.ignoredDependencies ∧
        ∀ j, w.Unused params w₁.disk.fs declaredC readsB j → ∀ i : Fin extendedManifest.steps.length, i.val = j.val →
          ∃ j', w.Unused params w₁.disk.fs declaredC readsB j' ∧
            (extended.toCompiledManifest.steps i).hash = (params.manifest.steps j').hash)) = true := by
    decide +kernel
  obtain ⟨⟨buffer, params, w, w₁, invocations⟩, hbuild, h⟩ := (any_eq_true _ _).mp h
  obtain ⟨command, -, h⟩ := (any_eq_true _ _).mp h
  obtain ⟨entry, hentry, h⟩ := (any_eq_true _ _).mp h
  obtain ⟨extended, hextended, h⟩ := (any_eq_true _ _).mp h
  obtain ⟨hlogged, hignored, hpositions⟩ := of_decide_eq_true h
  have hparts := hbuild
  rw [declaredBuild] at hparts
  obtain ⟨⟨buffer, params, w₀⟩, hstart, hparts⟩ := bind_eq_some_iff.mp hparts
  obtain ⟨w, -, hparts⟩ := bind_eq_some_iff.mp hparts
  obtain ⟨w₁, hnext, hparts⟩ := bind_eq_some_iff.mp hparts
  obtain ⟨w₂, -, hparts⟩ := bind_eq_some_iff.mp hparts
  obtain ⟨-, -, hparts⟩ := bind_eq_some_iff.mp hparts
  obtain ⟨⟨result, left⟩, -, hparts⟩ := bind_eq_some_iff.mp hparts
  cases hparts
  rw [buildFrom] at hstart
  obtain ⟨buffer, hcompile, hstart⟩ := bind_eq_some_iff.mp hstart
  obtain ⟨begun, hopen, hstart⟩ := bind_eq_some_iff.mp hstart
  cases hstart
  obtain ⟨result, left, -, hstart⟩ := openBuild_eq_some hopen
  have hmanifest := (startBuild_params hstart).2.1
  exact ⟨_, extended, hbuild, toOption_eq_some.mp hextended,
    (ignored_dependencies_survive_iff (toOption_eq_some.mp hcompile) (by decide) hmanifest hnext hlogged
      extended.toCompiledManifest (by decide) hentry hignored).mpr hpositions⟩

section
variable {n : Nat}

variable (manifest : CompiledManifest n) (invocations : Invocations) in
/-- Step `i` has used an output of step `j` without declaring it, when it was logged. -/
def Build.UsedUndeclared (i j : Fin n) : Prop :=
  ∃ hash ∈ additionalDependencies manifest invocations i, stepIndex manifest hash = some j

theorem Build.edge_iff {manifest : CompiledManifest n} {invocations : Invocations} {i j : Fin n} :
    Edge manifest invocations i j ↔ j ∈ (manifest.steps i).dependencies ∨ UsedUndeclared manifest invocations i j := by
  simp [Edge, edges, edgesOf, UsedUndeclared]

/-- Construction fails exactly if a step that is needed has used an output of a step which depends
on it now. -/
theorem construct_returns_iff {blake2b : Bytes → Hash} {manifestPath : PathObject} {manifest : RawManifest}
    {buffer : ManifestBuffer manifest.steps.length} (hcompile : compile blake2b manifestPath manifest = .ok buffer)
    (invocations : Invocations) (failuresAllowed : UInt64) (stepsToBuild : List (Fin manifest.steps.length)) :
    let edge := Build.Edge buffer.toCompiledManifest invocations
    ((∃ build, Build.construct buffer.toCompiledManifest invocations failuresAllowed stepsToBuild = .ok build) ↔
      ∀ r ∈ stepsToBuild, ∀ i j, Relation.ReflTransGen edge r i →
        Build.UsedUndeclared buffer.toCompiledManifest invocations i j →
        ¬ Relation.ReflTransGen edge j i) ∧
    ∀ failure, Build.construct buffer.toCompiledManifest invocations failuresAllowed stepsToBuild =
      .error failure → failure = .buildError "Dependency cycle" := by
  refine ⟨(Build.construct_succeeds_iff failuresAllowed).trans ⟨fun h r hr i j hi hused hj => ?_,
    fun h r hr i hi hcycle => ?_⟩, fun failure => Build.construct_error⟩
  · exact h r hr i hi (.head' (Build.edge_iff.mpr (.inr hused)) hj)
  · rcases Search.transGen_split (fun _ _ => Build.edge_iff.mp) hcycle with hdeclared | ⟨a, b, ha, hused, hb⟩
    · have hacyclic := (RawManifest.wellFormed_of_compile hcompile).acyclic i
      exact hacyclic (hdeclared.lift id fun a b => ((RawManifest.agrees_of_compile hcompile).dependencies a b).mp)
    · exact h r hr a b (hi.trans ha) hused (hb.trans ha)

end

/-- `b` is made of `c`, which is not made by a step. What `x` is made of is not declared. -/
def undeclaredManifest : RawManifest := { steps := [makes 120 [], makes 98 [99]] }

def linkedManifest : RawManifest := { steps := [makes 120 [], makes 98 [99], makes 99 [120]] }

def undeclaredX : Fin undeclaredManifest.steps.length := ⟨0, by decide⟩
def undeclaredB : Fin undeclaredManifest.steps.length := ⟨1, by decide⟩

/-- The command that makes `x` runs for a while, and then reads `b`. -/
def undeclaredLog : Option (Invocations × FlatFiles) := do
  let (_, params, w) ← buildFrom undeclaredManifest [file 99] none
  let w ← w.run (fun _ _ => true) params
    [.discard, .discard, .discard, .enqueue true, .enqueue true, .enqueue true,
      .effect undeclaredB [file 99, file 98], .tick 12,
      .commandDone undeclaredB { inputFiles := [[99]], outputFiles := [[98]] }, .enqueue true,
      .effect undeclaredX [file 99, file 98, file 120], .tick 14,
      .commandDone undeclaredX { inputFiles := [[98]], outputFiles := [[120]] }, .enqueue true, .finish]
  guard (w.returned = some .success)
  let (result, _) ← (parsePersistentInvocationLog .valueFirst (flatFileSystem.lstat w.disk.fs)
    (some w.logFile)).toOption
  return (result.invocations, w.disk.fs)

/-- The manifest has no cycle, but the log of the build before makes it look as if it had one. -/
theorem old_log_makes_manifest_cyclic : ∃ invocations files linked, undeclaredLog = some (invocations, files) ∧
      compile Hash.ofBytes ⟨0, [109]⟩ linkedManifest = .ok linked ∧
      Build.construct linked.toCompiledManifest invocations 1 linked.roots =
        .error (.buildError "Dependency cycle") := by
  simp only [exists_and_left]
  decide +kernel

/-- The log of the build before does no harm as long as the manifest is not edited. -/
theorem construct_returns_for_same_manifest :
    ∃ invocations files undeclared build, undeclaredLog = some (invocations, files) ∧
      compile Hash.ofBytes ⟨0, [109]⟩ undeclaredManifest = .ok undeclared ∧
      Build.construct undeclared.toCompiledManifest invocations 1 [undeclaredX] = .ok build := by
  have h : ∃ invocations files, undeclaredLog = some (invocations, files) ∧
      ∃ undeclared, compile Hash.ofBytes ⟨0, [109]⟩ undeclaredManifest = .ok undeclared ∧
        (∀ i, Build.edges undeclared.toCompiledManifest invocations i =
        if i = undeclaredX then [undeclaredB] else []) := by
    decide +kernel
  obtain ⟨invocations, files, hlog, undeclared, hcompile, h⟩ := h
  have hedge : ∀ i j, Build.Edge undeclared.toCompiledManifest invocations i j → i = undeclaredX ∧ j = undeclaredB := by
    intro i j hij
    rw [Build.Edge, h i] at hij
    split at hij
    · next hi => exact ⟨hi, List.mem_singleton.mp hij⟩
    · cases hij
  obtain ⟨build, hconstruct⟩ := (construct_returns_iff hcompile invocations 1 [undeclaredX]).1.mpr (by
    intro r _ i j _ hused hpath
    obtain ⟨rfl, rfl⟩ := hedge i j (Build.edge_iff.mpr (.inr hused))
    rcases Relation.ReflTransGen.cases_head hpath with heq | ⟨k, hk, -⟩
    · exact absurd heq (by decide)
    · exact absurd (hedge _ _ hk).1 (by decide))
  exact ⟨invocations, files, undeclared, build, hlog, hcompile, hconstruct⟩

end Shuriken
