import Shuriken.Build.Disk
import Shuriken.Fs.Journal
import Shuriken.Fs.Nested
import Shuriken.Fs.Parents

/-!
# The directories that are created and logged

`mkdirsAndLog` logs the directories when all of them were created.
-/
namespace Shuriken

def LogCall.createdDirectory? : LogCall → Option Path
  | .createdDirectory path => some path
  | _ => none

section
variable {σ : Type}

def FileSystem.made (F : FileSystem σ) (s : σ) (dir : Path) : Option σ :=
  match F.mkdir s dir with
  | (s, none) => some s
  | (_, some _) => none

/-- All of the directories are created, the outermost one cannot be, or there is nothing to create them in. -/
def FileSystem.CreatesAllOrNone (F : FileSystem σ) (s : σ) (dirs : List Path) (inside : Bool) : Prop :=
  inside = false ∨ (dirs.foldlM F.made s).isSome = true ∨ ∃ dir ∈ dirs.head?, F.made s dir = none

/-- What `mkdirs` makes of the missing directories, in a file system that records it. -/
structure FileSystem.Mkdirs (F : FileSystem σ) (s : σ) (dirs : List Path) (inside : Bool) (s' : σ)
    (made : List (σ × Path)) (createdDirs : List Path) (error : Option IoError) : Prop where
  succeeds : error = none → inside = true ∧ dirs.foldlM F.made s = some s' ∧ createdDirs = dirs ∧
    made.map Prod.snd = dirs
  fails : error ≠ none → inside = false ∧ made = [] ∨
    inside = true ∧ dirs.foldlM F.made s = none ∧ (made = [] ↔ ∃ dir ∈ dirs.head?, F.made s dir = none)

namespace FileSystem.Mkdirs
variable {F : FileSystem σ} {s s' : σ} {dirs createdDirs : List Path} {inside : Bool} {made : List (σ × Path)}

theorem nothing : F.Mkdirs s [] true s [] [] none := ⟨fun _ => ⟨rfl, rfl, rfl, rfl⟩, fun h => absurd rfl h⟩

theorem impossible (error : IoError) : F.Mkdirs s [] false s [] [] (some error) := ⟨nofun, fun _ => .inl ⟨rfl, rfl⟩⟩

theorem stop {error : IoError} (h : F.Mkdirs s dirs inside s' made createdDirs (some error)) (path : Path) :
    F.Mkdirs s (dirs ++ [path]) inside s' made createdDirs (some error) := by
  refine ⟨nofun, fun _ => (h.fails nofun).imp_right fun ⟨hinside, hnone, hmade⟩ => ⟨hinside, ?_, ?_⟩⟩
  · rw [List.foldlM_append, hnone]
    rfl
  · have hne : dirs ≠ [] := by
      rintro rfl
      cases hnone
    rw [hmade, List.head?_append_of_ne_nil _ hne]

theorem mkdir (h : F.Mkdirs s dirs inside s' made createdDirs none) {path : Path} {s₁ : σ}
    (hmkdir : F.mkdir s' path = (s₁, none)) :
    F.Mkdirs s (dirs ++ [path]) inside s₁ (made ++ [(s', path)]) (createdDirs ++ [path]) none := by
  obtain ⟨hinside, hall, rfl, hmade⟩ := h.succeeds rfl
  refine ⟨fun _ => ⟨hinside, ?_, rfl, by rw [List.map_append, hmade]; rfl⟩, fun h => absurd rfl h⟩
  rw [List.foldlM_append, hall]
  simp [FileSystem.made, hmkdir]

theorem mkdir_error (h : F.Mkdirs s dirs inside s' made createdDirs none) {path : Path} {s₁ : σ} {error : IoError}
    (hmkdir : F.mkdir s' path = (s₁, some error)) :
    F.Mkdirs s (dirs ++ [path]) inside s₁ made (createdDirs ++ [path]) (some error) := by
  obtain ⟨hinside, hall, rfl, hmade⟩ := h.succeeds rfl
  refine ⟨nofun, fun _ => .inr ⟨hinside, ?_, ?_⟩⟩
  · rw [List.foldlM_append, hall]
    simp [FileSystem.made, hmkdir]
  · cases createdDirs with
    | nil =>
      cases hall
      simpa [FileSystem.made, hmkdir] using hmade
    | cons dir dirs =>
      have hfirst : F.made s dir ≠ none := by
        intro hnone
        rw [List.foldlM_cons, hnone] at hall
        cases hall
      have hsome : made ≠ [] := by
        rintro rfl
        cases hmade
      simp [hfirst, hsome]

end FileSystem.Mkdirs

variable {F : FileSystem σ} {s : σ} {depth : Nat} {path : Path} {dirs : List Path} {inside : Bool}

theorem FileSystem.Missing.mkdirs (h : F.Missing s depth path dirs inside) :
    ∃ s' made createdDirs error, mkdirsBelow F depth s path [] = (s', createdDirs, error) ∧
      mkdirsBelow F.journaled depth ⟨s, []⟩ path [] =
        (⟨s', made.map (Prod.map id .mkdir)⟩, createdDirs, error) ∧
      F.Mkdirs s dirs inside s' made createdDirs error := by
  induction h with
  | invalid hcanonical =>
    simp only [mkdirsBelow, hcanonical]
    exact ⟨s, [], [], _, rfl, rfl, .impossible _⟩
  | top hcanonical htop =>
    simp only [mkdirsBelow, hcanonical, if_pos htop]
    exact ⟨s, [], [], _, rfl, rfl, .nothing⟩
  | @found depth path canonical hcanonical htop hfound =>
    cases hdir : sIsDir (F.stat s canonical).metadata.mode with
    | true =>
      simp only [mkdirsBelow, hcanonical, htop, journaled_stat, hfound, hdir, if_true, if_false]
      exact ⟨s, [], [], _, rfl, rfl, .nothing⟩
    | false =>
      simp only [mkdirsBelow, hcanonical, htop, journaled_stat, hfound, hdir, if_false, Bool.false_eq_true]
      exact ⟨s, [], [], _, rfl, rfl, .impossible _⟩
  | @nested depth path canonical dirs inside hcanonical htop hmissing _ ih =>
    obtain ⟨s', made, createdDirs, error, hrun, hjournaled, hmkdirs⟩ := ih
    simp only [mkdirsBelow, hcanonical, htop, journaled_stat, hmissing, hrun, hjournaled, if_true, if_false]
    cases error with
    | some error => exact ⟨_, _, _, _, rfl, rfl, hmkdirs.stop canonical⟩
    | none =>
      obtain ⟨⟨s₁, error⟩, hmkdir⟩ : ∃ result, F.mkdir s' canonical = result := ⟨_, rfl⟩
      simp only [FileSystem.journaled, Journal.perform, FileSystem.perform, hmkdir]
      cases error with
      | some error => exact ⟨_, _, _, _, rfl, rfl, hmkdirs.mkdir_error hmkdir⟩
      | none => exact ⟨_, _, _, _, rfl, by simp, hmkdirs.mkdir hmkdir⟩

/-- The directories that are created are those that are logged exactly if all that are missing can be created, or
none. -/
theorem mkdirsAndLog_logs_created_iff (F : FileSystem σ) (now : Int64) (s : σ) (log : InvocationLog) (path : Path) :
    ∃ (changes : List (σ × Change)) (calls : List LogCall) (dirs : List Path) (inside : Bool),
      mkdirsAndLog F.journaled now ⟨⟨s, []⟩, log⟩ path =
        (⟨⟨(mkdirsAndLog F now ⟨s, log⟩ path).1.fs, changes⟩, log.callAll now calls⟩,
          (mkdirsAndLog F now ⟨s, log⟩ path).2) ∧
      (mkdirsAndLog F now ⟨s, log⟩ path).1.log = log.callAll now calls ∧
      F.Missing s (path.length + 2) path dirs inside ∧
      ((∀ dir, dir ∈ changes.filterMap (·.2.mkdir?) ↔ dir ∈ calls.filterMap (·.createdDirectory?)) ↔
        F.CreatesAllOrNone s dirs inside) := by
  obtain ⟨dirs, inside, hmissing⟩ := F.exists_missing s (Nat.le_refl (path.length + 2))
  obtain ⟨s', made, createdDirs, error, hrun, hjournaled, hmkdirs⟩ := hmissing.mkdirs
  have hmade : (made.map (Prod.map id Change.mkdir)).filterMap (·.2.mkdir?) = made.map Prod.snd := by
    simp [List.filterMap_map, Change.mkdir?]
  have hcalls (logged : List Path) :
      (logged.map LogCall.createdDirectory).filterMap (·.createdDirectory?) = logged := by
    simp [List.filterMap_map, LogCall.createdDirectory?]
  simp only [mkdirsAndLog, Shuriken.mkdirs, hrun, hjournaled]
  cases error with
  | none =>
    obtain ⟨hinside, hall, rfl, hlogged⟩ := hmkdirs.succeeds rfl
    refine ⟨made.map (Prod.map id .mkdir), createdDirs.map .createdDirectory, createdDirs, inside,
      by simp [foldl_createdDirectory], by simp [foldl_createdDirectory], hmissing, ?_⟩
    rw [hmade, hcalls, hlogged]
    exact iff_of_true (fun _ => Iff.rfl) (.inr (.inl (by rw [hall]; rfl)))
  | some error =>
    refine ⟨made.map (Prod.map id .mkdir), [], dirs, inside, by simp, by simp, hmissing, ?_⟩
    rw [hmade, FileSystem.CreatesAllOrNone]
    rcases hmkdirs.fails (Option.some_ne_none error) with ⟨rfl, rfl⟩ | ⟨rfl, hnone, hfirst⟩
    · simp
    · rw [hnone, ← hfirst]
      simp only [List.filterMap_nil, List.not_mem_nil, iff_false, ← List.eq_nil_iff_forall_not_mem, List.map_eq_nil_iff]
      simp

end

def fullDisk : NestedFiles where
  files := [([46], { ino := 1, isDir := true })]
  room := 2
  distinct := by decide

/-- The directory `a` was created when `a/b` cannot be, and it is not logged. -/
theorem mkdirsAndLog_forgets_created :
    ∃ disk failure, mkdirsAndLog nestedFileSystem.journaled 1 ⟨⟨fullDisk, []⟩, { opened := emptyLog }⟩ [97, 47, 98] =
        (disk, some failure) ∧
      disk.fs.changes.filterMap (·.2.mkdir?) = [[97]] ∧ nestedFileSystem.IsDirectory disk.fs.fs [97] ∧
      disk.log.calls = [] := by
  refine ⟨_, _, rfl, ?_⟩
  decide

end Shuriken
