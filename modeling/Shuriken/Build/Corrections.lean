import Mathlib.Data.List.GetD
import Shuriken.Build.Clean
import Shuriken.Lib.LowerBound
import Shuriken.Manifest.Compiled

/-!
# Corrections of the dependencies

What `ignoredAndAdditionalDependencies` computes for a step that has run: which of its dependencies it did not
use, and which other steps it did use.
-/
namespace Shuriken
open List

section
variable {xs : List UInt32} {x : UInt32}

theorem lowerBound_eq_search {rounds first len : Nat} (h : first + len ≤ xs.length) :
    lowerBound xs x rounds first len = LowerBound.search (decide <| · < x) xs rounds first len := by
  induction rounds generalizing first len with
  | zero => rfl
  | succ rounds ih =>
    rw [lowerBound, LowerBound.search]
    split
    · rfl
    · next hpos =>
      have hbound : first + len / 2 < xs.length := by omega
      simp only [getD_eq_getElem _ _ hbound, List.getElem?_eq_getElem hbound, decide_eq_true_eq]
      rw [ih (by omega), ih (by omega)]

theorem binarySearch_iff (hsorted : xs.Pairwise (· ≤ ·)) : binarySearch xs x = true ↔ x ∈ xs := by
  have hskips : xs.Pairwise fun y z => decide (z < x) = true → decide (y < x) = true :=
    hsorted.imp fun hle hless => decide_eq_true (UInt32.lt_of_le_of_lt hle (of_decide_eq_true hless))
  rw [binarySearch, lowerBound_eq_search (Nat.zero_add _).le, ← LowerBound.lowerBound,
    LowerBound.getElem?_lowerBound hskips]
  cases hfind : xs.find? (fun y => !decide (y < x)) with
  | none =>
    refine iff_of_false Bool.false_ne_true fun hmem => ?_
    simpa using List.find?_eq_none.mp hfind x hmem
  | some y =>
    obtain ⟨hy, low, high, rfl, hlow⟩ := List.find?_eq_some_iff_append.mp hfind
    have hle : x ≤ y := by simpa using hy
    have hiff : (!decide (x < y)) = true ↔ x = y := by
      rw [Bool.not_eq_true', decide_eq_false_iff_not, UInt32.not_lt]
      exact ⟨UInt32.le_antisymm hle, fun h => h ▸ UInt32.le_refl _⟩
    rw [hiff, mem_append, mem_cons]
    refine ⟨fun h => .inr (.inl h), ?_⟩
    rintro (hmem | rfl | hmem)
    · exact absurd (hlow x hmem) (by simp)
    · rfl
    · exact UInt32.le_antisymm hle ((pairwise_cons.mp (pairwise_append.mp hsorted).2.1).1 x hmem)

end

section
variable {n : Nat}

/-- The rounds of the merge up to the one that consumes a dependency, given what the rest does. -/
theorem mergeDependency_eq {dep : Fin n} {deps : List (Fin n)} (hdeps : (dep :: deps).Pairwise (· < ·))
    {rest : List (Fin n) → List (Fin n) × List (Fin n)}
    (hrest : ∀ used, used.Pairwise (· < ·) → rest used = (deps.filter (· ∉ used), used.filter (· ∉ deps)))
    {used : List (Fin n)} (hused : used.Pairwise (· < ·)) :
    mergeDependency dep rest used = ((dep :: deps).filter (· ∉ used), used.filter (· ∉ dep :: deps)) := by
  obtain ⟨hless, hrestDeps⟩ := pairwise_cons.mp hdeps
  induction used with
  | nil => simp [mergeDependency, hrest [] .nil]
  | cons u used ih =>
    obtain ⟨hu, hused'⟩ := pairwise_cons.mp hused
    rw [mergeDependency]
    split
    · -- the dependency is used
      next heq =>
        subst heq
        rw [hrest used hused']
        have hnot : ∀ x ∈ deps, x ≠ dep := fun x hx => (hless x hx).ne'
        have hnot' : ∀ x ∈ used, x ≠ dep := fun x hx => (hu x hx).ne'
        simp only [filter_cons, mem_cons, true_or, not_true_eq_false, decide_false, Bool.false_eq_true, if_false]
        refine congrArg₂ Prod.mk (filter_congr fun x hx => ?_) (filter_congr fun x hx => ?_)
        · simp [hnot x hx]
        · simp [hnot' x hx]
    · next hne =>
      split
      · -- the dependency is not used
        next hlt =>
          have hnot : ∀ x ∈ u :: used, dep < x := forall_mem_cons.mpr ⟨hlt, fun x hx => hlt.trans (hu x hx)⟩
          have hmem : dep ∉ u :: used := fun h => (hnot dep h).false
          have hkept : (dep :: deps).filter (· ∉ u :: used) = dep :: deps.filter (· ∉ u :: used) :=
            filter_cons_of_pos (decide_eq_true hmem)
          have hsame : (u :: used).filter (· ∉ dep :: deps) = (u :: used).filter (· ∉ deps) :=
            filter_congr fun x hx => by simp [(hnot x hx).ne']
          rw [hrest (u :: used) hused, hkept, hsame]
      · -- what is used is not a dependency
        next hnlt =>
          have hlt : u < dep := lt_of_le_of_ne (not_lt.mp hnlt) (Ne.symm hne)
          have hnot : ∀ x ∈ dep :: deps, u < x := forall_mem_cons.mpr ⟨hlt, fun x hx => hlt.trans (hless x hx)⟩
          have hmem : u ∉ dep :: deps := fun h => (hnot u h).false
          have hkept : (u :: used).filter (· ∉ dep :: deps) = u :: used.filter (· ∉ dep :: deps) :=
            filter_cons_of_pos (decide_eq_true hmem)
          have hsame : (dep :: deps).filter (· ∉ u :: used) = (dep :: deps).filter (· ∉ used) :=
            filter_congr fun x hx => by simp [(hnot x hx).ne']
          rw [ih hused', hkept, hsame]

theorem mergeDependencies_eq {deps used : List (Fin n)} (hdeps : deps.Pairwise (· < ·))
    (hused : used.Pairwise (· < ·)) :
    mergeDependencies deps used = (deps.filter (· ∉ used), used.filter (· ∉ deps)) := by
  induction deps generalizing used with
  | nil => simp [mergeDependencies]
  | cons dep deps ih =>
    exact mergeDependency_eq hdeps (fun _ h => ih (pairwise_cons.mp hdeps).2 h) hused

def UsedBy (outputFiles : Finmap fun _ : FileId => Fin n) (inputFileIds : List FileId) (j : Fin n) : Prop :=
  ∃ id ∈ inputFileIds, id.missing = false ∧ outputFiles.lookup id = some j

variable {outputFiles : Finmap fun _ : FileId => Fin n} {inputFileIds : List FileId}

theorem usedDependencies_eq : usedDependencies outputFiles inputFileIds =
    sortAndDedup (inputFileIds.filterMap fun id => if id.missing then none else outputFiles.lookup id) :=
  eraseReps_eq_destutter _

theorem usedDependencies_increasing : (usedDependencies outputFiles inputFileIds).Pairwise (· < ·) :=
  usedDependencies_eq ▸ sortAndDedup_pairwise_lt _

variable {j : Fin n}

theorem mem_usedDependencies : j ∈ usedDependencies outputFiles inputFileIds ↔ UsedBy outputFiles inputFileIds j := by
  rw [usedDependencies_eq, mem_sortAndDedup, mem_filterMap]
  refine exists_congr fun id => and_congr_right fun _ => ?_
  cases hmissing : id.missing <;> simp

theorem Hash.le_iff {a b : Hash} : Hash.le a b = true ↔ a = b ∨ a.data < b.data := decide_eq_true_iff

instance : Std.Total fun a b : Hash => Hash.le a b = true where
  total a b := by
    rcases Std.lt_trichotomy a.data b.data with h | h | h
    · exact .inl (Hash.le_iff.mpr (.inr h))
    · exact .inl (Hash.le_iff.mpr (.inl (by cases a; cases b; simp_all)))
    · exact .inr (Hash.le_iff.mpr (.inr h))

instance : IsTrans Hash fun a b => Hash.le a b = true where
  trans a b c hab hbc := by
    rcases Hash.le_iff.mp hab with rfl | hab
    · exact hbc
    · rcases Hash.le_iff.mp hbc with rfl | hbc
      · exact Hash.le_iff.mpr (.inr hab)
      · exact Hash.le_iff.mpr (.inr (List.lt_trans hab hbc))

theorem insertionSort_hash_increasing {hashes : List Hash} (hnodup : hashes.Nodup) :
    (hashes.insertionSort (Hash.le · ·)).Pairwise fun a b => a.data < b.data := by
  have hsorted := pairwise_insertionSort (fun a b => Hash.le a b = true) hashes
  have hdistinct : (hashes.insertionSort (Hash.le · ·)).Pairwise (· ≠ ·) :=
    (perm_insertionSort _ hashes).nodup_iff.mpr hnodup
  exact (hsorted.and hdistinct).imp fun ⟨hle, hne⟩ => (Hash.le_iff.mp hle).resolve_left hne

/-- The ignored dependencies are those that were not used, and the additional ones are those that
were used and are no dependencies. -/
structure ExactCorrections (manifest : CompiledManifest n) (step : Step n) (used : Fin n → Prop)
    (ignored : List UInt32) (additional : List Hash) : Prop where
  ignored_increasing : ignored.Pairwise (· < ·)
  mem_ignored : ∀ x, x ∈ ignored ↔ ∃ j ∈ step.dependencies, ¬ used j ∧ UInt32.ofNat j = x
  additional_increasing : additional.Pairwise fun a b => a.data < b.data
  mem_additional : ∀ hash, hash ∈ additional ↔ ∃ j, used j ∧ j ∉ step.dependencies ∧ (manifest.steps j).hash = hash

theorem ofNat_val_inj {m : Nat} (hn : n ≤ 2 ^ 31) (hm : m ≤ 2 ^ 31) {i : Fin n} {j : Fin m} :
    UInt32.ofNat i = UInt32.ofNat j ↔ i.val = j.val := by
  refine ⟨fun h => ?_, fun h => by rw [h]⟩
  have htoNat := congrArg UInt32.toNat h
  rwa [UInt32.toNat_ofNat_of_lt' (i.2.trans_le (hn.trans (by decide))),
    UInt32.toNat_ofNat_of_lt' (j.2.trans_le (hm.trans (by decide)))] at htoNat

variable {manifest : CompiledManifest n} {step : Step n}

theorem ignoredAndAdditionalDependencies_eq (hdeps : step.dependencies.Pairwise (· < ·)) :
    ignoredAndAdditionalDependencies outputFiles manifest step inputFileIds =
      let used := usedDependencies outputFiles inputFileIds
      ((step.dependencies.filter (· ∉ used)).map (UInt32.ofNat ∘ Fin.val),
        ((used.filter (· ∉ step.dependencies)).map fun i => (manifest.steps i).hash).insertionSort
          (Hash.le · ·)) := by
  rw [ignoredAndAdditionalDependencies, mergeDependencies_eq hdeps usedDependencies_increasing]
  simp only [bind_eq_flatMap, pure_def, ← map_eq_flatMap, map_map]

theorem ignored_increasing (hn : n ≤ 2 ^ 31) (hdeps : step.dependencies.Pairwise (· < ·)) :
    (ignoredAndAdditionalDependencies outputFiles manifest step inputFileIds).1.Pairwise (· < ·) := by
  rw [ignoredAndAdditionalDependencies_eq hdeps]
  exact pairwise_map.mpr ((hdeps.filter _).imp fun {i j} h =>
    (UInt32.ofNat_lt_iff_lt (i.2.trans_le (hn.trans (by decide))) (j.2.trans_le (hn.trans (by decide)))).mpr h)

theorem mem_ignored (hdeps : step.dependencies.Pairwise (· < ·)) {x : UInt32} :
    x ∈ (ignoredAndAdditionalDependencies outputFiles manifest step inputFileIds).1 ↔
      ∃ j ∈ step.dependencies, ¬ UsedBy outputFiles inputFileIds j ∧ UInt32.ofNat j = x := by
  rw [ignoredAndAdditionalDependencies_eq hdeps]
  simp only [mem_map, mem_filter, decide_eq_true_eq, mem_usedDependencies, and_assoc, Function.comp]

theorem exactCorrections (hn : n ≤ 2 ^ 31) (hdeps : step.dependencies.Pairwise (· < ·))
    (hdistinct : Function.Injective fun i => (manifest.steps i).hash) :
    let result := ignoredAndAdditionalDependencies outputFiles manifest step inputFileIds
    ExactCorrections manifest step (UsedBy outputFiles inputFileIds) result.1 result.2 := by
  refine ⟨ignored_increasing hn hdeps, fun x => mem_ignored hdeps, ?_, fun hash => ?_⟩
  · rw [ignoredAndAdditionalDependencies_eq hdeps]
    have hnodup : (usedDependencies outputFiles inputFileIds).Nodup := usedDependencies_increasing.imp fun h => h.ne
    exact insertionSort_hash_increasing (Nodup.map hdistinct (Nodup.filter _ hnodup))
  · rw [ignoredAndAdditionalDependencies_eq hdeps]
    simp only [mem_insertionSort, mem_map, mem_filter, decide_eq_true_eq, mem_usedDependencies, and_assoc]

variable {used : Fin n → Prop} {ignored : List UInt32} {additional : List Hash}

section
variable (h : ExactCorrections manifest step used ignored additional)
include h

theorem ExactCorrections.ofNat_mem_ignored
    (hn : n ≤ 2 ^ 31) : UInt32.ofNat j ∈ ignored ↔ j ∈ step.dependencies ∧ ¬ used j := by
  rw [h.mem_ignored]
  constructor
  · rintro ⟨i, hi, hunused, heq⟩
    exact Fin.ext ((ofNat_val_inj hn hn).mp heq) ▸ ⟨hi, hunused⟩
  · exact fun ⟨hj, hunused⟩ => ⟨j, hj, hunused, rfl⟩

theorem ExactCorrections.used_iff (hn : n ≤ 2 ^ 31) (hdistinct : Function.Injective fun i => (manifest.steps i).hash) :
    used j ↔ j ∈ step.dependencies ∧ UInt32.ofNat j ∉ ignored ∨ (manifest.steps j).hash ∈ additional := by
  rw [h.ofNat_mem_ignored hn, h.mem_additional]
  constructor
  · intro hused
    by_cases hj : j ∈ step.dependencies
    · exact .inl ⟨hj, fun hnot => hnot.2 hused⟩
    · exact .inr ⟨j, hused, hj, rfl⟩
  · rintro (⟨hj, hnot⟩ | ⟨i, hused, -, heq⟩)
    · exact of_not_not fun hunused => hnot ⟨hj, hunused⟩
    · exact hdistinct heq ▸ hused

end

end

/-- For every step of a manifest that compiles to steps with distinct hashes. -/
theorem dependency_corrections_exact {blake2b : Bytes → Hash} {manifestPath : PathObject} {manifest : RawManifest}
    {buffer : ManifestBuffer manifest.steps.length} (h : compile blake2b manifestPath manifest = .ok buffer)
    (hn : manifest.steps.length ≤ 2 ^ 31) (hdistinct : Function.Injective fun i => (buffer.steps i).hash)
    (s : Fin manifest.steps.length) (writtenFiles : Finmap fun _ : FileId => Fin manifest.steps.length)
    (inputFileIds : List FileId) : let step := (buffer.steps s).toStep
    let used := UsedBy writtenFiles inputFileIds
    let result := ignoredAndAdditionalDependencies writtenFiles buffer.toCompiledManifest step inputFileIds
    ExactCorrections buffer.toCompiledManifest step used result.1 result.2 ∧
      (∀ (invocations : Invocations) (entry : InvocationEntry),
        invocations.entries.lookup step.hash = some entry → entry.ignoredDependencies = result.1 →
        ∀ j : Fin manifest.steps.length,
          stepIsIgnored invocations step.hash j = true ↔ j ∈ step.dependencies ∧ ¬ used j) ∧
      ∀ j, used j ↔ j ∈ step.dependencies ∧ UInt32.ofNat j ∉ result.1 ∨ (buffer.steps j).hash ∈ result.2 := by
  intro step used result
  have hexact : ExactCorrections buffer.toCompiledManifest step used result.1 result.2 :=
    exactCorrections hn ((RawManifest.agrees_of_compile h).increasing s) hdistinct
  refine ⟨hexact, fun invocations entry hentry hignored j => ?_, fun j => hexact.used_iff hn hdistinct⟩
  rw [stepIsIgnored, hentry]
  simp only [hignored]
  rw [binarySearch_iff (hexact.ignored_increasing.imp UInt32.le_of_lt), hexact.ofNat_mem_ignored hn]

def threeSteps : RawManifest where
  steps := usingManifest.steps ++ [{ outputs := [⟨2, [99]⟩], command := [122] }]

def firstOfThree : Fin threeSteps.steps.length := ⟨0, by decide⟩
def secondOfThree : Fin threeSteps.steps.length := ⟨1, by decide⟩
def thirdOfThree : Fin threeSteps.steps.length := ⟨2, by decide⟩

/-- Each of the last two steps has written a file. -/
def writtenByTwo : Finmap fun _ : FileId => Fin threeSteps.steps.length :=
  .insert ⟨7, 1⟩ secondOfThree (.singleton ⟨8, 1⟩ thirdOfThree)

/-- The first step depends on the second one, but reads what the third one has written. -/
theorem dependency_corrections_exact_of_three :
    ∃ buffer, compile Hash.ofBytes ⟨3, [109]⟩ threeSteps = .ok buffer ∧
      ∃ ignored additional, ignoredAndAdditionalDependencies writtenByTwo buffer.toCompiledManifest
          (buffer.steps firstOfThree).toStep [⟨8, 1⟩, ⟨9, 1⟩] = (ignored, additional) ∧
        ExactCorrections buffer.toCompiledManifest (buffer.steps firstOfThree).toStep
          (UsedBy writtenByTwo [⟨8, 1⟩, ⟨9, 1⟩]) ignored additional ∧
        UInt32.ofNat secondOfThree ∈ ignored ∧ (buffer.steps thirdOfThree).hash ∈ additional := by
  have hok : ∃ buffer, compile Hash.ofBytes ⟨3, [109]⟩ threeSteps = .ok buffer ∧
      (buffer.steps firstOfThree).dependencies = [secondOfThree] ∧
        ∀ i j, (buffer.steps i).hash = (buffer.steps j).hash → i = j := by
    decide +kernel
  obtain ⟨buffer, hcompile, hdependencies, hdistinct⟩ := hok
  have hused : ∀ j, UsedBy writtenByTwo [⟨8, 1⟩, ⟨9, 1⟩] j ↔ j = thirdOfThree := by
    unfold UsedBy
    decide +kernel
  obtain ⟨hexact, -, -⟩ := dependency_corrections_exact hcompile (by decide) (fun i j => hdistinct i j)
    firstOfThree writtenByTwo [⟨8, 1⟩, ⟨9, 1⟩]
  refine ⟨buffer, hcompile, _, _, rfl, hexact, (hexact.mem_ignored _).mpr ⟨secondOfThree, ?_, ?_, rfl⟩,
    (hexact.mem_additional _).mpr ⟨thirdOfThree, (hused _).mpr rfl, ?_, rfl⟩⟩
  · exact hdependencies ▸ mem_singleton_self _
  · exact mt (hused _).mp (by decide)
  · exact hdependencies ▸ mt mem_singleton.mp (by decide)

end Shuriken
