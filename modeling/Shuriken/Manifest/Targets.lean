import Shuriken.Lib.LowerBound
import Shuriken.Manifest.Compiled

/-!
# Targets

`interpretPath` finds the step that a command line argument names, by a binary
search in the path lists of the compiled manifest.
-/
namespace Shuriken
open LowerBound List

def caret : UInt8 := 94

def cleanTarget : Path := [99, 108, 101, 97, 110]
def helpTarget : Path := [104, 101, 108, 112]

def unknownTarget (path : Path) : Failure := .buildError ("Unknown target '" ++ displayPath path ++ "'" ++
    if path = cleanTarget then ", did you mean 'shk -t clean'?"
    else if path = helpTarget then ", did you mean 'shk -h'?"
    else "")

def findStep {n : Nat} (pathList : List (Path × Fin n)) (path : Path) : Except Failure (Fin n) :=
  match pathList[LowerBound.lowerBound (fun step => decide (step.1 < path)) pathList]? with
  | none => .error (unknownTarget path)
  | some step => if step.1 = path then .ok step.2 else .error (unknownTarget path)

def interpretPath {n : Nat} (manifest : ManifestBuffer n) (path : Path) : Except Failure (Fin n) :=
  let input : Bool := path.getLast? = some caret
  let path := if input then path.dropLast else path
  match canonicalizePath path with
  | .error error => .error (.buildError ("Invalid target path: " ++ error.what))
  | .ok path => findStep (if input then manifest.inputs else manifest.outputs) path

section
variable {n : Nat}

instance : Std.Total (stepPathReferenceLe (n := n)) where
  total a b := by
    rcases Std.lt_trichotomy a.1 b.1 with h | h | h
    · exact .inl (.inl h)
    · exact (le_total a.2 b.2).imp (fun hle => .inr ⟨h, hle⟩) fun hle => .inr ⟨h.symm, hle⟩
    · exact .inr (.inl h)

instance : IsTrans (Path × Fin n) stepPathReferenceLe where
  trans a b c := by
    rintro (hab | ⟨hab, hab'⟩) (hbc | ⟨hbc, hbc'⟩)
    · exact .inl (Std.lt_trans hab hbc)
    · exact .inl (hbc ▸ hab)
    · exact .inl (hab ▸ hbc)
    · exact .inr ⟨hab.trans hbc, hab'.trans hbc'⟩

variable {map : PathToStepMap n} {path : Path} {i : Fin n}

theorem mem_computePathList :
    (path, i) ∈ computePathList map ↔ ∃ entry ∈ map, canonicalizePath entry.1.original = .ok path ∧ entry.2 = i := by
  rw [computePathList, (perm_insertionSort _ _).mem_iff, mem_filterMap]
  refine exists_congr fun entry => and_congr_right fun _ => ?_
  cases hpath : canonicalizePath entry.1.original with
  | error | ok => simp

/-- In a list that is sorted by path and index, the search that compares paths finds an entry for the
path if there is one. -/
theorem find?_computePathList (map : PathToStepMap n) (path : Path) :
    (computePathList map)[LowerBound.lowerBound (fun step => decide (step.1 < path)) (computePathList map)]? =
      (computePathList map).find? fun step => !decide (step.1 < path) := by
  refine getElem?_lowerBound ((pairwise_insertionSort stepPathReferenceLe _).imp fun {a b} hab hb => ?_)
  have hb := of_decide_eq_true hb
  rcases hab with hlt | ⟨heq, -⟩
  · exact decide_eq_true (Std.lt_trans hlt hb)
  · exact decide_eq_true (heq ▸ hb)

theorem findStep_eq_ok (h : findStep (computePathList map) path = .ok i) : (path, i) ∈ computePathList map := by
  rw [findStep, find?_computePathList] at h
  cases hfind : (computePathList map).find? fun step => !decide (step.1 < path) with
  | none =>
    rw [hfind] at h
    nomatch h
  | some step =>
    rw [hfind] at h
    simp only at h
    split at h
    · next hpath =>
      cases h
      exact hpath ▸ mem_of_find?_eq_some hfind
    · nomatch h

theorem findStep_of_mem (h : (path, i) ∈ computePathList map) : ∃ j, findStep (computePathList map) path = .ok j := by
  have hsorted : (computePathList map).Pairwise stepPathReferenceLe := pairwise_insertionSort _ _
  rw [findStep, find?_computePathList]
  cases hfind : (computePathList map).find? fun step => !decide (step.1 < path) with
  | none =>
    have hlt := find?_eq_none.mp hfind (path, i) h
    simp [Std.lt_irrefl] at hlt
  | some step =>
    obtain ⟨hstep, skipped, rest, hlist, hskipped⟩ := find?_eq_some_iff_append.mp hfind
    have hstep : ¬ step.1 < path := by simpa using hstep
    rw [hlist] at h hsorted
    have hpath : step.1 = path := by
      rcases mem_append.mp h with h | h
      · have hlt := hskipped _ h
        simp [Std.lt_irrefl] at hlt
      · rcases mem_cons.mp h with rfl | h
        · rfl
        · have hle := (pairwise_cons.mp (pairwise_append.mp hsorted).2.1).1 _ h
          exact (hle.resolve_left hstep).1
    exact ⟨step.2, if_pos hpath⟩

theorem findStep_cases (pathList : List (Path × Fin n)) (path : Path) :
    (∃ i, findStep pathList path = .ok i) ∨ findStep pathList path = .error (unknownTarget path) := by
  rw [findStep]
  split
  · exact .inr rfl
  · next step _ =>
    by_cases hpath : step.1 = path
    · exact .inl ⟨step.2, if_pos hpath⟩
    · exact .inr (if_neg hpath)

end

section
variable {n : Nat}

/-- The map has an entry for each path, which is the first one for the path. -/
structure Firsts (map : PathToStepMap n) (pairs : List (PathObject × Fin n)) : Prop where
  first : ∀ entry ∈ map, entry ∈ pairs ∧ ∀ pair ∈ pairs, pair.1.isSame entry.1 = true → entry.2 ≤ pair.2
  covers : ∀ pair ∈ pairs, ∃ entry ∈ map, pair.1.isSame entry.1 = true

variable {map : PathToStepMap n} {path : PathObject}

theorem PathToStepMap.find_eq_none : map.find path = none ↔ ∀ entry ∈ map, entry.1.isSame path = false := by
  rw [find, Option.map_eq_none_iff, find?_eq_none]
  exact forall₂_congr fun _ _ => Bool.eq_false_iff.symm

theorem PathToStepMap.find_eq_some {i : Fin n} (h : map.find path = some i) :
    ∃ entry ∈ map, entry.1.isSame path = true ∧ entry.2 = i := by
  rw [find, Option.map_eq_some_iff] at h
  obtain ⟨entry, hfind, hi⟩ := h
  have hsame := @find?_some _ (fun entry : PathObject × Fin n => entry.1.isSame path) _ _ hfind
  exact ⟨entry, mem_of_find?_eq_some hfind, hsame, hi⟩

theorem firsts_nil : Firsts ([] : PathToStepMap n) [] := ⟨nofun, nofun⟩

/-- The pairs come in the order of the steps. -/
theorem Firsts.emplace {pairs : List (PathObject × Fin n)} (h : Firsts map pairs) {i : Fin n}
    (hlast : ∀ pair ∈ pairs, pair.2 ≤ i) : Firsts (map.emplace path i).1 (pairs ++ [(path, i)]) := by
  have hlater : ∀ entry ∈ map, entry ∈ pairs ++ [(path, i)] ∧ ∀ pair ∈ pairs ++ [(path, i)],
      pair.1.isSame entry.1 = true → entry.2 ≤ pair.2 := by
    intro entry hentry
    obtain ⟨hmem, hfirst⟩ := h.first entry hentry
    refine ⟨mem_append_left _ hmem, fun pair hpair hsame => ?_⟩
    rcases mem_append.mp hpair with hpair | hpair
    · exact hfirst pair hpair hsame
    · obtain rfl := mem_singleton.mp hpair
      exact hlast entry hmem
  rw [PathToStepMap.emplace]
  cases hfind : map.find path with
  | some present =>
    refine ⟨hlater, fun pair hpair => ?_⟩
    rcases mem_append.mp hpair with hpair | hpair
    · exact h.covers pair hpair
    · obtain rfl := mem_singleton.mp hpair
      obtain ⟨entry, hentry, hsame, -⟩ := PathToStepMap.find_eq_some hfind
      exact ⟨entry, hentry, PathObject.isSame_iff.mpr (PathObject.isSame_iff.mp hsame).symm⟩
  | none =>
    have hnew := PathToStepMap.find_eq_none.mp hfind
    refine ⟨fun entry hentry => ?_, fun pair hpair => ?_⟩
    · rcases mem_append.mp hentry with hentry | hentry
      · exact hlater entry hentry
      · obtain rfl := mem_singleton.mp hentry
        refine ⟨mem_append_right _ mem_cons_self, fun pair hpair hsame => ?_⟩
        rcases mem_append.mp hpair with hpair | hpair
        · obtain ⟨entry, hentry, hsame'⟩ := h.covers pair hpair
          have heq := (PathObject.isSame_iff.mp hsame').symm.trans (PathObject.isSame_iff.mp hsame)
          cases (hnew entry hentry).symm.trans (PathObject.isSame_iff.mpr heq)
        · obtain rfl := mem_singleton.mp hpair
          exact le_rfl
    · rcases mem_append.mp hpair with hpair | hpair
      · obtain ⟨entry, hentry, hsame⟩ := h.covers pair hpair
        exact ⟨entry, mem_append_left _ hentry, hsame⟩
      · obtain rfl := mem_singleton.mp hpair
        exact ⟨_, mem_append_right _ mem_cons_self, PathObject.isSame_iff.mpr rfl⟩

def PathToStepMap.emplaceAll (pairs : List (PathObject × Fin n)) (map : PathToStepMap n) : PathToStepMap n :=
  pairs.foldl (fun map pair => (PathToStepMap.emplace map pair.1 pair.2).1) map

theorem Firsts.emplaceAll {seen pairs : List (PathObject × Fin n)} (h : Firsts map seen)
    (hordered : (seen ++ pairs).Pairwise fun a b => a.2 ≤ b.2) :
    Firsts (PathToStepMap.emplaceAll pairs map) (seen ++ pairs) := by
  induction pairs generalizing map seen with
  | nil => rwa [append_nil]
  | cons pair pairs ih =>
    rw [PathToStepMap.emplaceAll, foldl_cons, append_cons]
    refine ih (h.emplace fun other hother => ?_) (append_cons seen pair pairs ▸ hordered)
    exact (pairwise_append.mp hordered).2.2 other hother pair mem_cons_self

end

def stepPairs (paths : RawStep → List PathObject) (steps : List RawStep) : List (PathObject × Fin steps.length) :=
  (finRange steps.length).flatMap fun i => (paths (steps.get i)).map (·, i)

variable {steps : List RawStep}

theorem mem_stepPairs {paths : RawStep → List PathObject} {pair : PathObject × Fin steps.length} :
    pair ∈ stepPairs paths steps ↔ pair.1 ∈ paths (steps.get pair.2) := by
  obtain ⟨output, i⟩ := pair
  simp [stepPairs]

theorem stepPairs_ordered (paths : RawStep → List PathObject) (steps : List RawStep) :
    (stepPairs paths steps).Pairwise fun a b => a.2 ≤ b.2 := by
  rw [stepPairs, pairwise_flatMap]
  refine ⟨fun i _ => ?_, (pairwise_lt_finRange _).imp fun {i j} hij a ha b hb => ?_⟩
  · exact pairwise_map.mpr (pairwise_of_forall fun _ _ => le_rfl)
  · obtain ⟨_, -, rfl⟩ := mem_map.mp ha
    obtain ⟨_, -, rfl⟩ := mem_map.mp hb
    exact hij.le

theorem computeInputPathMap_firsts (steps : List RawStep) :
    Firsts (computeInputPathMap steps) (stepPairs RawStep.allInputs steps) := by
  have hfold : computeInputPathMap steps = PathToStepMap.emplaceAll (stepPairs RawStep.allInputs steps) [] := by
    rw [computeInputPathMap, PathToStepMap.emplaceAll, stepPairs, foldl_flatMap]
    simp only [foldl_map]
  rw [hfold]
  exact firsts_nil.emplaceAll (stepPairs_ordered _ steps)

theorem addOutputs_eq_emplaceAll {n : Nat} {pairs : List (PathObject × Fin n)} {map map' : PathToStepMap n}
    (h : addOutputs pairs map = .ok map') : map' = PathToStepMap.emplaceAll pairs map := by
  induction pairs generalizing map with
  | nil => exact (Except.ok.inj h).symm
  | cons pair pairs ih =>
    rw [addOutputs, foldlM_cons] at h
    obtain ⟨map₁, hpair, h⟩ := Except.bind_eq_ok.mp h
    have hmap₁ : (map.emplace pair.1 pair.2).1 = map₁ := by
      rw [PathToStepMap.emplace]
      rcases addOutput_eq_ok.mp hpair with ⟨hfind, rfl⟩ | ⟨hfind, rfl⟩
      · rw [hfind]
      · rw [hfind]
    rw [ih h, PathToStepMap.emplaceAll, PathToStepMap.emplaceAll, foldl_cons, hmap₁]

theorem computeOutputPathMap_firsts {map : PathToStepMap steps.length} (h : computeOutputPathMap steps = .ok map) :
    Firsts map (stepPairs RawStep.outputs steps) := by
  have hmap : addOutputs (stepPairs RawStep.outputs steps) [] = .ok map := computeOutputPathMap_eq steps ▸ h
  rw [addOutputs_eq_emplaceAll hmap]
  exact firsts_nil.emplaceAll (stepPairs_ordered _ steps)

namespace RawManifest

def paths (manifest : RawManifest) : List PathObject := manifest.steps.flatMap fun raw => raw.allInputs ++ raw.outputs

/-- A path that can be canonicalized is the same as another one exactly if that one gives the same
string. -/
def CanonicalPaths (manifest : RawManifest) : Prop :=
  ∀ a ∈ manifest.paths, ∀ b ∈ manifest.paths, ∀ string, canonicalizePath a.original = .ok string →
    (a.isSame b = true ↔ canonicalizePath b.original = .ok string)

def Mentions (manifest : RawManifest) (paths : RawStep → List PathObject) (string : Path)
    (i : Fin manifest.steps.length) : Prop :=
  ∃ path ∈ paths (manifest.steps.get i), canonicalizePath path.original = .ok string

variable {manifest : RawManifest} {map : PathToStepMap manifest.steps.length}
  {paths : RawStep → List PathObject}

variable {string : Path} {i : Fin manifest.steps.length}

/-- The step that is found is the first one with such a path. -/
theorem findStep_eq_ok_iff (hcanonical : manifest.CanonicalPaths)
    (hpaths : ∀ raw, ∀ path ∈ paths raw, path ∈ raw.allInputs ++ raw.outputs)
    (hmap : Firsts map (stepPairs paths manifest.steps)) :
    findStep (computePathList map) string = .ok i ↔
      manifest.Mentions paths string i ∧ ∀ j < i, ¬ manifest.Mentions paths string j := by
  have hmem : ∀ j, ∀ path ∈ paths (manifest.steps.get j), path ∈ manifest.paths := fun j path hpath =>
    mem_flatMap.mpr ⟨_, get_mem manifest.steps j, hpaths _ path hpath⟩
  have hfound : ∀ j, findStep (computePathList map) string = .ok j →
      manifest.Mentions paths string j ∧ ∀ k < j, ¬ manifest.Mentions paths string k := by
    intro j hj
    obtain ⟨entry, hentry, hstring, rfl⟩ := mem_computePathList.mp (findStep_eq_ok hj)
    obtain ⟨hpair, hfirst⟩ := hmap.first entry hentry
    have hpath := mem_stepPairs.mp hpair
    refine ⟨⟨entry.1, hpath, hstring⟩, fun k hk hmentions => ?_⟩
    obtain ⟨path, hpath', hstring'⟩ := hmentions
    have hsame := (hcanonical path (hmem k path hpath') entry.1 (hmem _ _ hpath) string hstring').mpr hstring
    exact absurd hk (not_lt.mpr (hfirst (path, k) (mem_stepPairs.mpr hpath') hsame))
  refine ⟨hfound i, ?_⟩
  rintro ⟨⟨path, hpath, hstring⟩, hleast⟩
  obtain ⟨entry, hentry, hsame⟩ := hmap.covers (path, i) (mem_stepPairs.mpr hpath)
  have hpath' := mem_stepPairs.mp (hmap.first entry hentry).1
  have hstring' := (hcanonical path (hmem i path hpath) entry.1 (hmem _ _ hpath') string hstring).mp hsame
  obtain ⟨j, hj⟩ := findStep_of_mem (mem_computePathList.mpr ⟨entry, hentry, hstring', rfl⟩)
  obtain ⟨hmentions, hfirst⟩ := hfound j hj
  rcases lt_trichotomy i j with hlt | rfl | hlt
  · exact absurd ⟨path, hpath, hstring⟩ (hfirst i hlt)
  · exact hj
  · exact absurd hmentions (hleast j hlt)

/-- What a target stands for: the step with such an output or, if it ends with a caret, the first step
with such an input. -/
def IsTarget (manifest : RawManifest) (target : Path) (i : Fin manifest.steps.length) : Prop :=
  (target.getLast? ≠ some caret ∧ ∃ output ∈ (manifest.steps.get i).outputs,
    canonicalizePath output.original = canonicalizePath target) ∨
  ∃ u, target = u ++ [caret] ∧
    (∃ input ∈ (manifest.steps.get i).allInputs, canonicalizePath input.original = canonicalizePath u) ∧
    ∀ j < i, ∀ input ∈ (manifest.steps.get j).allInputs, canonicalizePath input.original ≠ canonicalizePath u

theorem isTarget_input {u : Path} (hstring : canonicalizePath u = .ok string) :
    manifest.IsTarget (u ++ [caret]) i ↔ manifest.Mentions RawStep.allInputs string i ∧
      ∀ j < i, ¬ manifest.Mentions RawStep.allInputs string j := by
  have hfirst : (∀ j < i, ¬ manifest.Mentions RawStep.allInputs string j) ↔ ∀ j < i,
      ∀ input ∈ (manifest.steps.get j).allInputs, canonicalizePath input.original ≠ .ok string := by
    simp only [Mentions, not_exists, not_and, ne_eq]
  rw [IsTarget, hfirst, Mentions]
  constructor
  · rintro (⟨hlast, -⟩ | ⟨u', hu, h⟩)
    · exact absurd getLast?_concat hlast
    · obtain rfl := append_cancel_right hu
      rwa [hstring] at h
  · intro h
    exact .inr ⟨u, rfl, by rwa [hstring]⟩

end RawManifest

/-- A target yields the step that it stands for, or an error if there is none. -/
theorem interpretPath_finds_target {blake2b : Bytes → Hash} {manifestPath : PathObject} {manifest : RawManifest}
    {buffer : ManifestBuffer manifest.steps.length} (hcompile : compile blake2b manifestPath manifest = .ok buffer)
    (hcanonical : manifest.CanonicalPaths) (target string : Path)
    (hstring : canonicalizePath (if target.getLast? = some caret then target.dropLast else target) = .ok string) :
    (∀ i, interpretPath buffer target = .ok i ↔ manifest.IsTarget target i) ∧
      ((∀ i, ¬ manifest.IsTarget target i) → interpretPath buffer target = .error (unknownTarget string)) := by
  obtain ⟨map, -, -, -, hmap, -, -, -, -, -, -, -, houtputs, hinputs⟩ := RawManifest.compile_passes hcompile
  have hfind : interpretPath buffer target =
      findStep (if target.getLast? = some caret then buffer.inputs else buffer.outputs) string := by
    simp only [interpretPath, decide_eq_true_eq, hstring]
  have hok : ∀ i, interpretPath buffer target = .ok i ↔ manifest.IsTarget target i := by
    intro i
    rw [hfind]
    by_cases hlast : target.getLast? = some caret
    · obtain ⟨u, rfl⟩ := getLast?_eq_some_iff.mp hlast
      rw [if_pos hlast, dropLast_concat] at hstring
      rw [if_pos hlast, hinputs, RawManifest.isTarget_input hstring]
      exact RawManifest.findStep_eq_ok_iff hcanonical (fun _ _ h => mem_append_left _ h)
        (computeInputPathMap_firsts manifest.steps)
    · rw [if_neg hlast] at hstring
      have htarget : manifest.IsTarget target i ↔ manifest.Mentions RawStep.outputs string i := by
        rw [RawManifest.IsTarget, hstring, RawManifest.Mentions]
        refine ⟨?_, fun h => .inl ⟨hlast, h⟩⟩
        rintro (⟨-, h⟩ | ⟨u, rfl, -⟩)
        · exact h
        · exact absurd getLast?_concat hlast
      rw [if_neg hlast, houtputs, htarget]
      refine (RawManifest.findStep_eq_ok_iff hcanonical (fun _ _ h => mem_append_right _ h)
        (computeOutputPathMap_firsts hmap)).trans (and_iff_left_of_imp ?_)
      -- No other step has the output.
      rintro ⟨output, houtput, hi⟩ j hj ⟨output', houtput', hj'⟩
      have hmem : ∀ k, ∀ path ∈ (manifest.steps.get k).outputs, path ∈ manifest.paths := fun k path hpath =>
        mem_flatMap.mpr ⟨_, get_mem manifest.steps k, mem_append_right _ hpath⟩
      have hsame := (hcanonical output (hmem i _ houtput) output' (hmem j _ houtput') string hi).mpr hj'
      have heq := (RawManifest.wellFormed_of_compile hcompile).outputs i j output houtput ⟨output', houtput', hsame⟩
      exact hj.ne heq.symm
  refine ⟨hok, fun hnone => ?_⟩
  rw [hfind]
  refine (findStep_cases _ string).resolve_left ?_
  rintro ⟨i, hi⟩
  exact hnone i ((hok i).mp (hfind.trans hi))

/-- The targets `c/../a` and `a^`. -/
theorem interpretPath_finds_target_using : ∃ buffer, compile (fun _ => .zero) ⟨2, [109]⟩ usingManifest = .ok buffer ∧
      interpretPath buffer [99, 47, 46, 46, 47, 97] = .ok usedStep ∧ interpretPath buffer [97, 94] = .ok usingStep := by
  have hok : (compile (fun _ => .zero) ⟨2, [109]⟩ usingManifest).toOption.isSome = true := by decide +kernel
  obtain ⟨buffer, hbuffer⟩ := Option.isSome_iff_exists.mp hok
  have hcompile := Except.toOption_eq_some.mp hbuffer
  have hpaths : ∀ a ∈ usingManifest.paths, ∀ b ∈ usingManifest.paths,
      a.isSame b = decide (canonicalizePath a.original = canonicalizePath b.original) := by decide +kernel
  have hcanonical : usingManifest.CanonicalPaths := by
    intro a ha b hb string hstring
    rw [hpaths a ha b hb, decide_eq_true_iff, hstring, eq_comm]
  have houtput := (interpretPath_finds_target hcompile hcanonical [99, 47, 46, 46, 47, 97] [97] (by decide +kernel)).1
  have hinput := (interpretPath_finds_target hcompile hcanonical [97, 94] [97] (by decide +kernel)).1
  refine ⟨buffer, hcompile, ?_, ?_⟩
  · refine (houtput usedStep).mpr (.inl ⟨by decide, ?_⟩)
    exact ⟨⟨0, [46, 47, 97]⟩, mem_cons_self, by decide +kernel⟩
  · refine (hinput usingStep).mpr (.inr ⟨[97], rfl, ?_, ?_⟩)
    · exact ⟨⟨0, [97]⟩, mem_cons_self, rfl⟩
    · exact fun j hj => absurd hj (Nat.not_lt_zero _)

end Shuriken
