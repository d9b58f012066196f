import Shuriken.Fs.Nested
import Shuriken.Lib.Lists
import Shuriken.Manifest.Compiled

/-!
# The hashes of steps

What is hashed for a step can be read back: the four lists of paths and three strings.
-/
namespace Shuriken
open Except Terminated List

namespace RawStep

def hashInput (raw : RawStep) : Bytes :=
  hashPaths raw.inputs ++ hashPaths raw.implicitInputs ++ hashPaths raw.dependencies ++
    hashPaths raw.outputs ++ hashString (if raw.generator then [] else raw.command) ++
    hashString raw.rspfile ++ hashString raw.rspfileContent

/-- The paths are not empty, and the strings have no null bytes. -/
structure Strings (raw : RawStep) : Prop where
  paths : ∀ path ∈ raw.inputs ++ raw.implicitInputs ++ raw.dependencies ++ raw.outputs, Proper 0 path.original
  command : 0 ∉ raw.command
  rspfile : 0 ∉ raw.rspfile
  rspfileContent : 0 ∉ raw.rspfileContent

structure SameParts (a b : RawStep) : Prop where
  inputs : a.inputs.map (·.original) = b.inputs.map (·.original)
  implicitInputs : a.implicitInputs.map (·.original) = b.implicitInputs.map (·.original)
  dependencies : a.dependencies.map (·.original) = b.dependencies.map (·.original)
  outputs : a.outputs.map (·.original) = b.outputs.map (·.original)
  command : (if a.generator then [] else a.command) = if b.generator then [] else b.command
  rspfile : a.rspfile = b.rspfile
  rspfileContent : a.rspfileContent = b.rspfileContent

end RawStep

theorem hashPaths_eq (paths : List PathObject) : hashPaths paths = terminateAll 0 (paths.map (·.original)) := by
  rw [hashPaths, terminateAll, flatMap_map]
  rfl

theorem hashPaths_append_inj {as bs : List PathObject} {xs ys : Bytes} (ha : ∀ a ∈ as, Proper 0 a.original)
    (hb : ∀ b ∈ bs, Proper 0 b.original) (h : hashPaths as ++ xs = hashPaths bs ++ ys) :
    as.map (·.original) = bs.map (·.original) ∧ xs = ys := by
  rw [hashPaths_eq, hashPaths_eq] at h
  exact terminateAll_append_inj (forall_mem_map.mpr ha) (forall_mem_map.mpr hb) h

theorem RawStep.Strings.sameParts {a b : RawStep} (ha : a.Strings) (hb : b.Strings)
    (h : a.hashInput = b.hashInput) : a.SameParts b := by
  obtain ⟨hpaths, hcommand, hrspfile, -⟩ := ha
  obtain ⟨hpaths', hcommand', hrspfile', -⟩ := hb
  simp only [forall_mem_append] at hpaths hpaths'
  have hempty : (0 : UInt8) ∉ ([] : Bytes) := not_mem_nil
  have hshown : ∀ raw : RawStep, 0 ∉ raw.command → 0 ∉ (if raw.generator then [] else raw.command) := by
    intro raw hraw
    split
    · exact hempty
    · exact hraw
  simp only [RawStep.hashInput, append_assoc] at h
  obtain ⟨hinputs, h⟩ := hashPaths_append_inj hpaths.1.1.1 hpaths'.1.1.1 h
  obtain ⟨himplicit, h⟩ := hashPaths_append_inj hpaths.1.1.2 hpaths'.1.1.2 h
  obtain ⟨hdependencies, h⟩ := hashPaths_append_inj hpaths.1.2 hpaths'.1.2 h
  obtain ⟨houtputs, h⟩ := hashPaths_append_inj hpaths.2 hpaths'.2 h
  obtain ⟨hcommands, h⟩ := terminate_append_inj (hshown a hcommand) (hshown b hcommand') h
  obtain ⟨hrspfiles, h⟩ := terminate_append_inj hrspfile hrspfile' h
  exact ⟨hinputs, himplicit, hdependencies, houtputs, hcommands, hrspfiles, append_cancel_right h⟩

section
variable {n : Nat} {blake2b : Bytes → Hash} {map : PathToStepMap n}

theorem convertStepVector_hash {steps : List RawStep} {roots roots' : Fin n → Bool}
    {ans : { ans : List (CompiledStep n) // ans.length = steps.length }}
    (h : convertStepVector blake2b map steps roots = .ok (ans, roots')) :
    List.Forall₂ (fun raw step => step.hash = raw.hash blake2b) steps ans.1 := by
  induction steps generalizing roots with
  | nil =>
    cases h
    exact .nil
  | cons raw steps ih =>
    rw [convertStepVector] at h
    obtain ⟨⟨step, roots₁⟩, hstep, h⟩ := bind_eq_ok.mp h
    obtain ⟨⟨rest, roots₂⟩, hrest, h⟩ := bind_eq_ok.mp h
    cases h
    refine .cons ?_ (ih hrest)
    rw [convertRawStep] at hstep
    split at hstep
    · cases hstep
    · cases hstep
      rfl

end

namespace RawManifest
variable {manifest : RawManifest}

theorem hash_of_compile {blake2b : Bytes → Hash} {manifestPath : PathObject}
    {buffer : ManifestBuffer manifest.steps.length} (h : compile blake2b manifestPath manifest = .ok buffer)
    (i : Fin manifest.steps.length) : (buffer.steps i).hash = (manifest.steps.get i).hash blake2b := by
  obtain ⟨map, ans, roots, defaults, -, hsteps, -, -, -, hbuffer, -⟩ := compile_passes h
  rw [hbuffer]
  exact (convertStepVector_hash hsteps).get i.2 (i.cast ans.2.symm).2

/-- The outputs were made from strings by one `Paths` object, which looks at files as `S` does. -/
def OutputsFrom (manifest : RawManifest) (S : Stater) (strings : List Path) : Prop :=
  ∀ raw ∈ manifest.steps, ∀ output ∈ raw.outputs, (output.original, .ok output) ∈ (Paths.getAll S {} strings).2

theorem WellFormed.eq_of_outputs (h : manifest.WellFormed) {S : Stater} {strings : List Path}
    (hpaths : manifest.OutputsFrom S strings) {i j : Fin manifest.steps.length}
    (hsome : (manifest.steps.get i).outputs ≠ [])
    (houtputs : (manifest.steps.get i).outputs.map (·.original) = (manifest.steps.get j).outputs.map (·.original)) :
    i = j := by
  obtain ⟨output, houtput⟩ := exists_mem_of_ne_nil _ hsome
  have hmem : output.original ∈ (manifest.steps.get j).outputs.map (·.original) :=
    houtputs ▸ mem_map_of_mem houtput
  obtain ⟨output', houtput', horiginal⟩ := mem_map.mp hmem
  have hmade := hpaths _ (get_mem manifest.steps i) output houtput
  have hmade' := hpaths _ (get_mem manifest.steps j) output' houtput'
  rw [horiginal] at hmade'
  exact h.outputs i j output houtput ⟨output', houtput', (Paths.isSame_iff_of_getAll hmade hmade').mpr rfl⟩

end RawManifest

/-- Equal hash inputs are those of equal parts. If no digests collide, the steps of a manifest that
compiles have different hashes, provided that each of them has an output. -/
theorem step_hashes_identify (blake2b : Bytes → Hash) :
    (∀ a b : RawStep, a.Strings → b.Strings → a.hashInput = b.hashInput → a.SameParts b) ∧
    ∀ (manifestPath : PathObject) (manifest : RawManifest) (buffer : ManifestBuffer manifest.steps.length)
        (S : Stater) (strings : List Path),
      compile blake2b manifestPath manifest = .ok buffer → manifest.OutputsFrom S strings →
      (∀ raw ∈ manifest.steps, raw.Strings ∧ raw.outputs ≠ []) →
      Set.InjOn blake2b {bytes | ∃ raw ∈ manifest.steps, raw.hashInput = bytes} →
      ∀ i j, i ≠ j → (buffer.steps i).hash ≠ (buffer.steps j).hash := by
  refine ⟨fun a b ha hb => ha.sameParts hb, fun manifestPath manifest buffer S strings hcompile hpaths hsteps
    hcollision i j hne hhash => hne ?_⟩
  have hi := get_mem manifest.steps i
  have hj := get_mem manifest.steps j
  rw [RawManifest.hash_of_compile hcompile, RawManifest.hash_of_compile hcompile] at hhash
  have hparts := (hsteps _ hi).1.sameParts (hsteps _ hj).1 (hcollision ⟨_, hi, rfl⟩ ⟨_, hj, rfl⟩ hhash)
  exact (RawManifest.wellFormed_of_compile hcompile).eq_of_outputs hpaths (hsteps _ hi).2 hparts.outputs

def emptyDirectory : Stater where
  stat path := { result := if path = [dot] then 0 else ENOENT }
  lstat path := { result := if path = [dot] then 0 else ENOENT }

def outputsManifest : RawManifest where
  steps := [{ outputs := [⟨0, [97]⟩], command := [120] }, { outputs := [⟨1, [98]⟩], command := [120] }]

theorem step_hashes_identify_outputs :
    ∃ buffer, compile flatFileSystem.blake2b ⟨2, [109]⟩ outputsManifest = .ok buffer ∧
      (buffer.steps ⟨0, by decide⟩).hash ≠ (buffer.steps ⟨1, by decide⟩).hash := by
  have hok : (compile flatFileSystem.blake2b ⟨2, [109]⟩ outputsManifest).toOption.isSome = true := by decide +kernel
  obtain ⟨buffer, hbuffer⟩ := Option.isSome_iff_exists.mp hok
  have hcompile := toOption_eq_some.mp hbuffer
  have hmade : (Paths.getAll emptyDirectory {} [[97], [98]]).2 =
      [([97], .ok ⟨0, [97]⟩), ([98], .ok ⟨1, [98]⟩)] := by decide +kernel
  have hpaths : outputsManifest.OutputsFrom emptyDirectory [[97], [98]] := by
    rw [RawManifest.OutputsFrom, hmade]
    decide
  have hstrings : ∀ raw ∈ outputsManifest.steps, raw.Strings ∧ raw.outputs ≠ [] := by
    have hraw : ∀ output : PathObject, Proper 0 output.original →
        ({ outputs := [output], command := [120] } : RawStep).Strings := fun output houtput =>
      ⟨forall_mem_singleton.mpr houtput, (by decide : (0 : UInt8) ∉ ([120] : Bytes)), nofun, nofun⟩
    refine forall_mem_cons.mpr ⟨⟨hraw _ ⟨by decide, by decide⟩, by decide⟩, forall_mem_singleton.mpr
      ⟨hraw _ ⟨by decide, by decide⟩, by decide⟩⟩
  have hinj : ∀ raw ∈ outputsManifest.steps, ∀ raw' ∈ outputsManifest.steps,
      flatFileSystem.blake2b raw.hashInput = flatFileSystem.blake2b raw'.hashInput →
        raw.hashInput = raw'.hashInput := by decide
  refine ⟨buffer, hcompile, (step_hashes_identify flatFileSystem.blake2b).2 _ _ buffer emptyDirectory [[97], [98]]
    hcompile hpaths hstrings ?_ _ _ (by decide)⟩
  rintro _ ⟨raw, hraw, rfl⟩ _ ⟨raw', hraw', rfl⟩ hhash
  exact hinj raw hraw raw' hraw' hhash

def twinManifest : RawManifest where
  steps := [{ command := [120] }, { command := [120] }]

/-- They compile, and have the same hash. -/
theorem hashes_equal_of_twins (blake2b : Bytes → Hash) : (∀ raw ∈ twinManifest.steps, raw.Strings) ∧
      Set.InjOn blake2b {bytes | ∃ raw ∈ twinManifest.steps, raw.hashInput = bytes} ∧
      twinManifest.OutputsFrom emptyDirectory [] ∧ ∃ buffer, compile blake2b ⟨2, [109]⟩ twinManifest = .ok buffer ∧
        (buffer.steps ⟨0, by decide⟩).hash = (buffer.steps ⟨1, by decide⟩).hash := by
  have hsteps : ∀ raw ∈ twinManifest.steps, raw = { command := [120] } := by
    refine forall_mem_cons.mpr ⟨rfl, forall_mem_singleton.mpr rfl⟩
  have hraw : ∀ i, twinManifest.steps.get i = { command := [120] } := fun i => hsteps _ (get_mem _ i)
  have hbuilds : ∀ j path, ¬ twinManifest.Builds j path := by
    rintro j path ⟨output, houtput, -⟩
    rw [hraw] at houtput
    nomatch houtput
  have hedge : ∀ i j, ¬ twinManifest.Edge i j := fun i j ⟨path, _, h⟩ => hbuilds j path h
  have hwellFormed : twinManifest.WellFormed := by
    refine ⟨fun i j path _ h => absurd h (hbuilds j path), nofun, fun i _ => (by rw [hraw]), fun i h => ?_,
      fun i j h => ?_⟩
    · obtain ⟨k, hk, -⟩ := Relation.TransGen.head'_iff.mp h
      exact hedge i k hk
    · obtain ⟨k, hk, -⟩ := Relation.TransGen.head'_iff.mp h
      exact absurd hk (hedge i k)
  obtain ⟨buffer, hcompile⟩ := hwellFormed.compile blake2b ⟨2, [109]⟩
  refine ⟨fun raw h => ?_, ?_, fun raw h output houtput => ?_, buffer, hcompile, ?_⟩
  · rw [hsteps raw h]
    exact ⟨nofun, by decide, nofun, nofun⟩
  · rintro _ ⟨raw, h, rfl⟩ _ ⟨raw', h', rfl⟩ -
    rw [hsteps raw h, hsteps raw' h']
  · rw [hsteps raw h] at houtput
    nomatch houtput
  · rw [RawManifest.hash_of_compile hcompile, RawManifest.hash_of_compile hcompile, hraw, hraw]

theorem step_hashes_of_twins : (∀ raw ∈ twinManifest.steps, raw.Strings) ∧
      Set.InjOn flatFileSystem.blake2b {bytes | ∃ raw ∈ twinManifest.steps, raw.hashInput = bytes} ∧
      twinManifest.OutputsFrom emptyDirectory [] ∧
      ∃ buffer, compile flatFileSystem.blake2b ⟨2, [109]⟩ twinManifest = .ok buffer ∧
        (buffer.steps ⟨0, by decide⟩).hash = (buffer.steps ⟨1, by decide⟩).hash :=
  hashes_equal_of_twins flatFileSystem.blake2b

end Shuriken
