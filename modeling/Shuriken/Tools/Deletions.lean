import Shuriken.Fs.Journal
import Shuriken.Fs.Nested
import Shuriken.Fs.Parents
import Shuriken.Tools.Clean

/-!
# What is deleted with a build product

`deleteBuildProduct` removes the file and goes up from it as long as there are directories that a build has
made and that have become empty.
-/
namespace Shuriken
open List

/-- Operations that fail change nothing, and directories are removed when they are empty only. -/
structure FileSystem.RemovesEmpty {σ : Type} (F : FileSystem σ) : Prop where
  unlink_failed : ∀ {s path s' error}, F.unlink s path = (s', some error) → s' = s
  rmdir_failed : ∀ {s path s' error}, F.rmdir s path = (s', some error) → s' = s
  rmdir_removed : ∀ {s path s'}, F.rmdir s path = (s', none) → F.IsEmpty s path
  rmdir_notEmpty : ∀ {s path s' error}, F.rmdir s path = (s', some error) → error.code = ENOTEMPTY → ¬ F.IsEmpty s path

section
variable {σ : Type} (F : FileSystem σ) (invocations : Invocations) (now : Int64)

def FileSystem.Created (s : σ) (dir : Path) : Prop :=
  (invocations.createdDirectories.lookup (FileId.ofStat (F.lstat s dir))).isSome = true

instance (s : σ) (dir : Path) : Decidable (F.Created invocations s dir) := inferInstanceAs (Decidable (_ = true))

def FileSystem.Stays (s : σ) (dir : Path) : Prop := ¬ F.Found s dir ∨ ¬ F.Created invocations s dir ∨ ¬ F.IsEmpty s dir

/-- The loop of `deleteBuildProduct` over the directories above the product. -/
def deleteAlong : Disk σ → List Path → Disk σ × Option Failure
  | disk, [] => (disk, none)
  | disk, dir :: dirs =>
    let stat := F.lstat disk.fs dir
    if stat.result ≠ 0 then (disk, none)
    else if (invocations.createdDirectories.lookup (FileId.ofStat stat)).isNone then (disk, none)
    else
      match F.rmdir disk.fs dir with
      | (fs, none) => deleteAlong ({ disk with fs }.call now (.removedDirectory dir)) dirs
      | (fs, some error) =>
        if error.code = ENOTEMPTY then ({ disk with fs }, none)
        else ({ disk with fs }, some (.ioError error))

/-- What the loop removes, and how it ends. -/
inductive Climbs : σ → List Path → List (σ × Path) → σ → Option Failure → Prop
  | top (s : σ) : Climbs s [] [] s none
  | stop {s : σ} {dir : Path} (dirs : List Path) : F.Stays invocations s dir → Climbs s (dir :: dirs) [] s none
  | thrown {s : σ} {dir : Path} {error : IoError} (dirs : List Path) : F.rmdir s dir = (s, some error) →
      error.code ≠ ENOTEMPTY → Climbs s (dir :: dirs) [] s (some (.ioError error))
  | remove {s s₁ s' : σ} {dir : Path} {dirs : List Path} {removed : List (σ × Path)} {failure : Option Failure} :
      F.Found s dir → F.Created invocations s dir → F.IsEmpty s dir → F.rmdir s dir = (s₁, none) →
      Climbs s₁ dirs removed s' failure → Climbs s (dir :: dirs) ((s, dir) :: removed) s' failure

/-- The changes that are made when a product is deleted, and how it ends. -/
inductive Deletes (path : Path) : σ → List (σ × Change) → σ → Option Failure → Prop
  | refused {s : σ} {error : IoError} : F.unlink s path = (s, some error) → error.code ≠ ENOENT →
      Deletes path s [] s (some (.ioError
        ⟨"Failed to unlink build product " ++ displayPath path ++ ": " ++ error.what, error.code⟩))
  | missing {s s' : σ} {error : IoError} {removed : List (σ × Path)} {failure : Option Failure} :
      F.unlink s path = (s, some error) → error.code = ENOENT →
      Climbs F invocations s (parents path) removed s' failure →
      Deletes path s (removed.map (Prod.map id .rmdir)) s' failure
  | unlinked {s s₁ s' : σ} {removed : List (σ × Path)} {failure : Option Failure} :
      F.unlink s path = (s₁, none) → Climbs F invocations s₁ (parents path) removed s' failure →
      Deletes path s ((s, .unlink path) :: removed.map (Prod.map id .rmdir)) s' failure

/-- Every change is the removal of a product, or of a directory above one that a build has made and
that is empty, when those between them are removed already. -/
def OnlyDeletes (product : Path → Prop) (changes : List (σ × Change)) : Prop :=
  ∀ before s change after, changes = before ++ (s, change) :: after → ∃ path, product path ∧
    (change = .unlink path ∨ ∃ nearer dir farther, parents path = nearer ++ dir :: farther ∧ change = .rmdir dir ∧
      F.Found s dir ∧ F.Created invocations s dir ∧ F.IsEmpty s dir ∧
      ∀ d ∈ nearer, ∃ s', (s', .rmdir d) ∈ before)

def withJournal (run : Disk σ × Option Failure) (changes : List (σ × Change)) : Disk (Journal σ) × Option Failure :=
  (⟨⟨run.1.fs, changes⟩, run.1.log⟩, run.2)

variable {F invocations now}

theorem deleteAncestors_eq_deleteAlong (rounds : Nat) (disk : Disk σ) (path : Path) :
    deleteAncestors F invocations now rounds disk path =
      deleteAlong F invocations now disk (parentsWithin rounds path) := by
  induction rounds generalizing disk path with
  | zero => rfl
  | succ rounds ih =>
    rw [deleteAncestors, parentsWithin]
    split
    · rfl
    · simp only [deleteAlong]
      rcases F.rmdir disk.fs (dirname path) with ⟨fs, _ | error⟩
      · simp only [ih]
      · simp only

variable {path : Path}

theorem deleteAncestors_of_le {rounds : Nat} (h : path.length + 1 ≤ rounds) (disk : Disk σ) :
    deleteAncestors F invocations now rounds disk path = deleteAlong F invocations now disk (parents path) := by
  rw [deleteAncestors_eq_deleteAlong, parentsWithin_eq_parents h]

theorem FileSystem.not_created_iff {s : σ} {dir : Path} : ¬ F.Created invocations s dir ↔
    (invocations.createdDirectories.lookup (FileId.ofStat (F.lstat s dir))).isNone = true := by
  simp [FileSystem.Created]

/-- The directories that are removed are logged, and the journal has them too. -/
theorem deleteAlong_climbs (hF : F.RemovesEmpty) (s : σ) (log : InvocationLog) (dirs : List Path) :
    ∃ removed s' failure, Climbs F invocations s dirs removed s' failure ∧ deleteAlong F invocations now ⟨s, log⟩ dirs =
        (⟨s', log.callAll now ((removed.map Prod.snd).map .removedDirectory)⟩, failure) ∧
      ∀ changes, deleteAlong F.journaled invocations now ⟨⟨s, changes⟩, log⟩ dirs =
        withJournal (deleteAlong F invocations now ⟨s, log⟩ dirs)
          (changes ++ removed.map (Prod.map id .rmdir)) := by
  induction dirs generalizing s log with
  | nil => exact ⟨[], s, none, .top s, by simp [deleteAlong], by simp [deleteAlong, withJournal]⟩
  | cons dir dirs ih =>
    simp only [deleteAlong, journaled_lstat]
    by_cases hfound : F.Found s dir
    · rw [FileSystem.Found] at hfound
      by_cases hcreated : F.Created invocations s dir
      · have hnot := mt FileSystem.not_created_iff.mpr (not_not.mpr hcreated)
        obtain ⟨⟨s₁, error⟩, hrmdir⟩ : ∃ result, F.rmdir s dir = result := ⟨_, rfl⟩
        have hjournaled : ∀ changes : List (σ × Change), F.journaled.rmdir ⟨s, changes⟩ dir =
            Journal.perform F ⟨s, changes⟩ (.rmdir dir) := fun _ => rfl
        simp only [hfound, hnot, hrmdir, hjournaled, Journal.perform, FileSystem.perform]
        cases error with
        | none =>
          obtain ⟨removed, s', failure, hclimbs, hrun, hjournal⟩ := ih s₁ (log.call now (.removedDirectory dir))
          refine ⟨(s, dir) :: removed, s', failure,
            .remove hfound hcreated (hF.rmdir_removed hrmdir) hrmdir hclimbs, ?_, fun changes => ?_⟩
          · simpa [Disk.call] using hrun
          · have hrecorded := hjournal (changes ++ [(s, .rmdir dir)])
            rw [append_assoc] at hrecorded
            exact hrecorded
        | some error =>
          obtain rfl := hF.rmdir_failed hrmdir
          by_cases hcode : error.code = ENOTEMPTY
          · refine ⟨[], s₁, none, .stop dirs (.inr (.inr (hF.rmdir_notEmpty hrmdir hcode))), ?_⟩
            simp [hcode, withJournal]
          · refine ⟨[], s₁, _, .thrown dirs hrmdir hcode, ?_⟩
            simp [hcode, withJournal]
      · have hnone := FileSystem.not_created_iff.mp hcreated
        refine ⟨[], s, none, .stop dirs (.inr (.inl hcreated)), ?_⟩
        simp [hfound, hnone, withJournal]
    · rw [FileSystem.Found] at hfound
      refine ⟨[], s, none, .stop dirs (.inl hfound), ?_⟩
      simp [hfound, withJournal]

section
variable {s s' : σ} {dirs : List Path} {removed : List (σ × Path)} {failure : Option Failure}

section
variable (h : Climbs F invocations s dirs removed s' failure)
include h

theorem Climbs.performs : F.Performs s (removed.map (Prod.map id .rmdir)) s' := by
  induction h with
  | top s => exact .nil s
  | @stop s => exact .nil s
  | @thrown s => exact .nil s
  | remove _ _ _ hrmdir _ ih => exact .cons (show F.perform _ (.rmdir _) = _ from hrmdir) ih

theorem Climbs.rest : ∃ rest, dirs = removed.map Prod.snd ++ rest ∧
      (failure = none → ∀ dir ∈ rest.head?, F.Stays invocations s' dir) := by
  induction h with
  | top => exact ⟨[], rfl, nofun⟩
  | @stop s dir dirs hstays => exact ⟨dir :: dirs, rfl, fun _ d hd => Option.some.inj hd ▸ hstays⟩
  | @thrown s dir error dirs => exact ⟨dir :: dirs, rfl, nofun⟩
  | @remove s s₁ s' dir dirs removed failure _ _ _ _ _ ih =>
    obtain ⟨rest, rfl, hrest⟩ := ih
    exact ⟨rest, rfl, hrest⟩

theorem Climbs.removable : ∀ change ∈ removed, F.Found change.1 change.2 ∧ F.Created invocations change.1 change.2 ∧
      F.IsEmpty change.1 change.2 := by
  induction h with
  | top | stop | thrown => nofun
  | remove hfound hcreated hempty _ _ ih => exact forall_mem_cons.mpr ⟨⟨hfound, hcreated, hempty⟩, ih⟩

end

end

theorem deleteBuildProduct_deletes (hF : F.RemovesEmpty) (s : σ) (log : InvocationLog) (path : Path) :
    ∃ changes s' failure, Deletes F invocations path s changes s' failure ∧
      deleteBuildProduct F invocations now ⟨s, log⟩ path =
        (⟨s', log.callAll now ((changes.filterMap (·.2.rmdir?)).map .removedDirectory)⟩, failure) ∧
      ∀ before, deleteBuildProduct F.journaled invocations now ⟨⟨s, before⟩, log⟩ path =
        withJournal (deleteBuildProduct F invocations now ⟨s, log⟩ path) (before ++ changes) := by
  have hremoved : ∀ removed : List (σ × Path),
      (removed.map (Prod.map id Change.rmdir)).filterMap (·.2.rmdir?) = removed.map Prod.snd := by
    intro removed
    simp [filterMap_map, Change.rmdir?]
  obtain ⟨⟨s₁, error⟩, hunlink⟩ : ∃ result, F.unlink s path = result := ⟨_, rfl⟩
  have hjournaled : ∀ before : List (σ × Change), F.journaled.unlink ⟨s, before⟩ path =
      Journal.perform F ⟨s, before⟩ (.unlink path) := fun _ => rfl
  simp only [deleteBuildProduct, hunlink, hjournaled, Journal.perform, FileSystem.perform,
    deleteAncestors_of_le (Nat.le_refl _)]
  obtain ⟨removed, s', failure, hclimbs, hrun, hjournal⟩ :=
    @deleteAlong_climbs σ F invocations now hF s₁ log (parents path)
  cases error with
  | none =>
    refine ⟨_, s', failure, .unlinked hunlink hclimbs, ?_, fun before => ?_⟩
    · simpa [Change.rmdir?, hremoved] using hrun
    · have hrecorded := hjournal (before ++ [(s, .unlink path)])
      rw [append_assoc] at hrecorded
      exact hrecorded
  | some error =>
    obtain rfl := hF.unlink_failed hunlink
    by_cases hcode : error.code = ENOENT
    · refine ⟨_, s', failure, .missing hunlink hcode hclimbs, ?_, fun before => ?_⟩
      · simpa [hcode, hremoved] using hrun
      · simpa [hcode] using hjournal before
    · refine ⟨[], s₁, _, .refused hunlink hcode, ?_⟩
      simp [hcode, withJournal]

variable {changes : List (σ × Change)} {failure : Option Failure}

theorem Deletes.performs {s s' : σ}
    (h : Deletes F invocations path s changes s' failure) : F.Performs s changes s' := by
  cases h with
  | refused => exact .nil s
  | missing _ _ hclimbs => exact hclimbs.performs
  | unlinked hunlink hclimbs => exact .cons (show F.perform s (.unlink path) = _ from hunlink) hclimbs.performs

theorem Deletes.rest {s s' : σ} (h : Deletes F invocations path s changes s' failure) :
    ∃ rest, parents path = changes.filterMap (·.2.rmdir?) ++ rest ∧
      (failure = none → ∀ dir ∈ rest.head?, F.Stays invocations s' dir) := by
  cases h with
  | refused => exact ⟨parents path, rfl, nofun⟩
  | missing _ _ hclimbs => simpa [filterMap_map, Change.rmdir?] using hclimbs.rest
  | unlinked _ hclimbs => simpa [filterMap_map, Change.rmdir?] using hclimbs.rest

section
variable {product : Path → Prop}

theorem onlyDeletes_nil : OnlyDeletes F invocations product [] := by
  intro before s change after h
  simp at h

theorem onlyDeletes_unlink (hpath : product path) (s : σ) : OnlyDeletes F invocations product [(s, .unlink path)] := by
  intro before s' change after heq
  rcases singleton_eq_append_iff.mp heq with ⟨-, hchange⟩ | ⟨-, hnil⟩
  · obtain ⟨hchange, -⟩ := cons.inj hchange
    cases hchange
    exact ⟨path, hpath, .inl rfl⟩
  · nomatch hnil

theorem OnlyDeletes.append {more : List (σ × Change)} (h : OnlyDeletes F invocations product changes)
    (h' : OnlyDeletes F invocations product more) : OnlyDeletes F invocations product (changes ++ more) := by
  have hmore : ∀ earlier before s change after, more = before ++ (s, change) :: after →
      ∃ path, product path ∧ (change = .unlink path ∨ ∃ nearer dir farther,
        parents path = nearer ++ dir :: farther ∧ change = .rmdir dir ∧ F.Found s dir ∧
        F.Created invocations s dir ∧ F.IsEmpty s dir ∧ ∀ d ∈ nearer, ∃ s', (s', .rmdir d) ∈ earlier ++ before) := by
    intro earlier before s change after heq
    obtain ⟨path, hpath, hchange⟩ := h' before s change after heq
    refine ⟨path, hpath, hchange.imp_right ?_⟩
    rintro ⟨nearer, dir, farther, hparents, hdir, hfound, hcreated, hempty, hnearer⟩
    refine ⟨nearer, dir, farther, hparents, hdir, hfound, hcreated, hempty, fun d hd => ?_⟩
    obtain ⟨s', hs'⟩ := hnearer d hd
    exact ⟨s', mem_append_right _ hs'⟩
  intro before s change after heq
  rcases append_eq_append_iff.mp heq with ⟨middle, rfl, hmiddle⟩ | ⟨middle, rfl, hmiddle⟩
  · exact hmore changes middle s change after hmiddle
  · cases middle with
    | nil =>
      have hfirst := hmore before [] s change after (by simpa using hmiddle.symm)
      simpa using hfirst
    | cons c middle =>
      obtain ⟨rfl, -⟩ := cons.inj hmiddle
      exact h before s change middle rfl

theorem Climbs.onlyDeletes (hpath : product path) {s s' : σ} {removed : List (σ × Path)}
    (h : Climbs F invocations s (parents path) removed s' failure) :
    OnlyDeletes F invocations product (removed.map (Prod.map id .rmdir)) := by
  intro before s₁ change after heq
  obtain ⟨nearer, further, hremoved, rfl, hfurther⟩ := map_eq_append_iff.mp heq
  obtain ⟨⟨s₂, dir⟩, further, rfl, hchange, -⟩ := map_eq_cons_iff.mp hfurther
  cases hchange
  obtain ⟨rest, hrest, -⟩ := h.rest
  obtain ⟨hfound, hcreated, hempty⟩ := h.removable (s₂, dir) (by simp [hremoved])
  refine ⟨path, hpath, .inr ⟨nearer.map Prod.snd, dir, further.map Prod.snd ++ rest, ?_, rfl, hfound, hcreated,
    hempty, ?_⟩⟩
  · simp [hrest, hremoved]
  · intro d hd
    obtain ⟨⟨s', d⟩, hmem, rfl⟩ := mem_map.mp hd
    exact ⟨s', mem_map_of_mem hmem⟩

theorem Deletes.onlyDeletes (hpath : product path) {s s' : σ} (h : Deletes F invocations path s changes s' failure) :
    OnlyDeletes F invocations product changes := by
  cases h with
  | refused => exact onlyDeletes_nil
  | missing _ _ hclimbs => exact hclimbs.onlyDeletes hpath
  | unlinked _ hclimbs => exact (onlyDeletes_unlink hpath s).append (hclimbs.onlyDeletes hpath)

end

/-- A run that starts with the files `s` makes the changes that it makes with a journal, whatever is
in the journal already. -/
structure Journaled (F : FileSystem σ) (s : σ) (run : Disk σ × Option Failure)
    (journaled : List (σ × Change) → Disk (Journal σ) × Option Failure) (changes : List (σ × Change)) : Prop where
  performs : F.Performs s changes run.1.fs
  journal : ∀ before, journaled before = withJournal run (before ++ changes)

theorem deleteBuildProducts_recorded (hF : F.RemovesEmpty) {product : Path → Prop} {paths : List Path}
    (hpaths : ∀ path ∈ paths, product path) (s : σ) (log : InvocationLog) :
    ∃ changes, OnlyDeletes F invocations product changes ∧
      Journaled F s (deleteBuildProducts F invocations now ⟨s, log⟩ paths)
        (fun before => deleteBuildProducts F.journaled invocations now ⟨⟨s, before⟩, log⟩ paths) changes := by
  induction paths generalizing s log with
  | nil => exact ⟨[], onlyDeletes_nil, .nil s, by simp [deleteBuildProducts, withJournal]⟩
  | cons path paths ih =>
    obtain ⟨hpath, hpaths⟩ := forall_mem_cons.mp hpaths
    obtain ⟨changes, s₁, failure, hdeletes, hrun, hjournal⟩ :=
      @deleteBuildProduct_deletes σ F invocations now hF s log path
    simp only [deleteBuildProducts, hjournal, hrun, withJournal]
    cases failure with
    | some failure =>
      exact ⟨changes, hdeletes.onlyDeletes hpath, hdeletes.performs, fun before => rfl⟩
    | none =>
      obtain ⟨more, honly, hrest⟩ := ih hpaths s₁ (log.callAll now
        ((changes.filterMap (·.2.rmdir?)).map .removedDirectory))
      refine ⟨changes ++ more, (hdeletes.onlyDeletes hpath).append honly,
        hdeletes.performs.append hrest.performs, fun before => ?_⟩
      rw [← append_assoc]
      exact hrest.journal (before ++ changes)

theorem deleteStaleOutputs_recorded (hF : F.RemovesEmpty) {n : Nat} (manifest : CompiledManifest n)
    {product : Path → Prop} {hashes : List Hash}
    (hproduct : ∀ hash ∈ hashes, (∀ i, (manifest.steps i).hash ≠ hash) →
      ∀ path ∈ (invocations.outputs hash).map Prod.fst, product path) (s : σ) (log : InvocationLog) :
    ∃ changes, OnlyDeletes F invocations product changes ∧
      Journaled F s (deleteStaleOutputs F manifest invocations now ⟨s, log⟩ hashes)
        (fun before => deleteStaleOutputs F.journaled manifest invocations now ⟨⟨s, before⟩, log⟩ hashes)
        changes := by
  induction hashes generalizing s log with
  | nil => exact ⟨[], onlyDeletes_nil, .nil s, by simp [deleteStaleOutputs, withJournal]⟩
  | cons hash hashes ih =>
    obtain ⟨hhash, hhashes⟩ := forall_mem_cons.mp hproduct
    simp only [deleteStaleOutputs]
    split
    · exact ih hhashes s log
    · next hstale =>
      have hne : ∀ i, (manifest.steps i).hash ≠ hash := by
        simpa using hstale
      obtain ⟨changes, honly, hdelete⟩ := @deleteBuildProducts_recorded σ F invocations now hF product _
        (hhash hne) s log
      obtain ⟨⟨⟨s₁, log₁⟩, failure⟩, hrun⟩ : ∃ run, deleteBuildProducts F invocations now ⟨s, log⟩
        ((invocations.outputs hash).map Prod.fst) = run := ⟨_, rfl⟩
      obtain ⟨hperforms, hjournal⟩ := hdelete
      rw [hrun] at hperforms
      simp only [hjournal, hrun, withJournal]
      cases failure with
      | some failure => exact ⟨changes, honly, hperforms, fun before => rfl⟩
      | none =>
        obtain ⟨more, honly', hrest⟩ := ih hhashes s₁ (log₁.call now (.cleanedCommand hash))
        refine ⟨changes ++ more, honly.append honly', hperforms.append hrest.performs, fun before => ?_⟩
        rw [← append_assoc]
        exact hrest.journal (before ++ changes)

def BuildCommandParameters.journaled {n : Nat} (params : BuildCommandParameters σ n) :
    BuildCommandParameters (Journal σ) n where
  fileSystem := params.fileSystem.journaled
  manifest := params.manifest
  invocations := params.invocations
  cleanSteps := params.cleanSteps
  fingerprintMatchesMemo := params.fingerprintMatchesMemo
  failuresAllowed := params.failuresAllowed

/-- Deleting a product ends, and it touches that file and directories above it only: those that are
recorded as created and are empty, from the nearest one on and one after the other. They are logged, and
the first that is left is not there, not created by a build, or not empty. The loops over products of a
step, or of steps that are not in the manifest any more, touch nothing else either. -/
theorem deletions_touch_only_products (hF : F.RemovesEmpty) (invocations : Invocations) (now : Int64) :
    (∀ (disk : Disk σ) (path : Path) (rounds : Nat), path.length + 1 ≤ rounds →
      deleteAncestors F invocations now rounds disk path =
        deleteAncestors F invocations now (path.length + 1) disk path) ∧
    (∀ (s : σ) (log : InvocationLog) (path : Path), ∃ changes rest, OnlyDeletes F invocations (path = ·) changes ∧
      Journaled F s (deleteBuildProduct F invocations now ⟨s, log⟩ path)
        (fun before => deleteBuildProduct F.journaled invocations now ⟨⟨s, before⟩, log⟩ path) changes ∧
      (deleteBuildProduct F invocations now ⟨s, log⟩ path).1.log =
        log.callAll now ((changes.filterMap (·.2.rmdir?)).map .removedDirectory) ∧
      parents path = changes.filterMap (·.2.rmdir?) ++ rest ∧
      ((deleteBuildProduct F invocations now ⟨s, log⟩ path).2 = none → ∀ dir ∈ rest.head?,
        F.Stays invocations (deleteBuildProduct F invocations now ⟨s, log⟩ path).1.fs dir)) ∧
    (∀ (n : Nat) (params : BuildCommandParameters σ n), params.fileSystem = F →
      params.invocations = invocations → ∀ (s : σ) (log : InvocationLog) (stepHash : Hash), ∃ changes,
        OnlyDeletes F invocations (· ∈ (invocations.outputs stepHash).map Prod.fst) changes ∧
        Journaled F s (deleteOldOutputs params now ⟨s, log⟩ stepHash)
          (fun before => deleteOldOutputs params.journaled now ⟨⟨s, before⟩, log⟩ stepHash) changes) ∧
    (∀ (n : Nat) (manifest : CompiledManifest n) (s : σ) (log : InvocationLog) (hashes : List Hash), ∃ changes,
      OnlyDeletes F invocations (fun path => ∃ hash ∈ hashes, (∀ i, (manifest.steps i).hash ≠ hash) ∧
        path ∈ (invocations.outputs hash).map Prod.fst) changes ∧
      Journaled F s (deleteStaleOutputs F manifest invocations now ⟨s, log⟩ hashes)
        (fun before => deleteStaleOutputs F.journaled manifest invocations now ⟨⟨s, before⟩, log⟩ hashes)
        changes) := by
  refine ⟨fun disk path rounds hrounds => ?_, fun s log path => ?_, ?_, fun n manifest s log hashes => ?_⟩
  · rw [deleteAncestors_of_le hrounds, deleteAncestors_of_le (Nat.le_refl _)]
  · obtain ⟨changes, s', failure, hdeletes, hrun, hjournal⟩ :=
      @deleteBuildProduct_deletes σ F invocations now hF s log path
    obtain ⟨rest, hparents, hstays⟩ := hdeletes.rest
    refine ⟨changes, rest, hdeletes.onlyDeletes rfl, ⟨?_, hjournal⟩, ?_, hparents, ?_⟩
    · rw [hrun]
      exact hdeletes.performs
    · rw [hrun]
    · rw [hrun]
      exact hstays
  · rintro n params rfl rfl s log stepHash
    simp only [deleteOldOutputs, Invocations.outputs, BuildCommandParameters.journaled]
    cases params.invocations.entries.lookup stepHash with
    | none => exact ⟨[], onlyDeletes_nil, .nil s, by simp [withJournal]⟩
    | some entry => exact deleteBuildProducts_recorded hF (fun _ hpath => hpath) s log
  · exact deleteStaleOutputs_recorded hF manifest
      (fun hash hhash hstale path hpath => ⟨hash, hhash, hstale, hpath⟩) s log

end

theorem nestedFileSystem_removesEmpty : nestedFileSystem.RemovesEmpty where
  unlink_failed := by
    intro t path t' error h
    simp only [nestedFileSystem, NestedFiles.unlink] at h
    split at h
    · exact (Prod.mk.inj h).1.symm
    · split at h
      · exact (Prod.mk.inj h).1.symm
      · cases h
  rmdir_failed := by
    intro t path t' error h
    rcases t.rmdir_cases path with hrmdir | ⟨error', hrmdir, -⟩
    · cases hrmdir.1.symm.trans h
    · exact (Prod.mk.inj (hrmdir.symm.trans h)).1.symm
  rmdir_removed := by
    intro t path t' h
    rcases t.rmdir_cases path with hrmdir | ⟨error', hrmdir, -⟩
    · exact hrmdir.2.2
    · cases hrmdir.symm.trans h
  rmdir_notEmpty := by
    intro t path t' error h hcode
    rcases t.rmdir_cases path with hrmdir | ⟨error', hrmdir, -, hnotEmpty⟩
    · cases hrmdir.1.symm.trans h
    · obtain ⟨-, herror⟩ := Prod.mk.inj (hrmdir.symm.trans h)
      exact hnotEmpty (Option.some.inj herror ▸ hcode)

def builtDirectory : NestedFiles where
  files := [([46], { ino := 1, isDir := true }), ([100], { ino := 2, isDir := true }), ([100, 47, 120], { ino := 3 }),
    ([108], { ino := 4 })]
  room := 9
  distinct := by decide

def builtInvocations : Invocations where
  createdDirectories := .singleton ⟨2, 1⟩ [100]

/-- When `d/x` is deleted, `d` is removed, and the current directory stays. -/
theorem deletions_touch_only_products_directory : nestedFileSystem.RemovesEmpty ∧ ∃ changes,
      OnlyDeletes nestedFileSystem builtInvocations ([100, 47, 120] = ·) changes ∧
      changes.map Prod.snd = [.unlink [100, 47, 120], .rmdir [100]] ∧
      nestedFileSystem.Stays builtInvocations (deleteBuildProduct nestedFileSystem builtInvocations 1
        ⟨builtDirectory, { opened := emptyLog }⟩ [100, 47, 120]).1.fs [46] := by
  have hF := nestedFileSystem_removesEmpty
  obtain ⟨changes, rest, honly, hrecorded, -, hparents, hstays⟩ :=
    (deletions_touch_only_products hF builtInvocations 1).2.1 builtDirectory { opened := emptyLog } [100, 47, 120]
  have hjournal := congrArg (·.1.fs.changes) (hrecorded.journal [])
  have hchanges : changes.map Prod.snd = [.unlink [100, 47, 120], .rmdir [100]] :=
    (congrArg (map Prod.snd) hjournal).symm
  refine ⟨hF, changes, honly, hchanges, hstays (by decide) [46] ?_⟩
  have hremoved : changes.filterMap (·.2.rmdir?) = [[100]] := (congrArg (filterMap (·.2.rmdir?)) hjournal).symm
  rw [hremoved, show parents [100, 47, 120] = [[100], [46]] by decide] at hparents
  obtain rfl : [[46]] = rest := (cons.inj hparents).2
  rfl

end Shuriken
