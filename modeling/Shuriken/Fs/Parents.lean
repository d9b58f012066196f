import Shuriken.Fs.Directories
import Shuriken.Fs.Nested
import Shuriken.Lib.Except

/-!
# The directories above a path

`dirname` shortens every path until it comes to the root or to the current directory, where it stays.
-/
namespace Shuriken
open Except List

theorem dirname_cases (path : Path) :
    dirname path = [dot] ∨ dirname path = [slash] ∨ (dirname path).length + 2 ≤ path.length := by
  have hslashes := (dropWhile_suffix (l := path.reverse) (· == slash)).length_le
  rw [length_reverse] at hslashes
  unfold dirname
  cases hname : path.reverse.dropWhile (· == slash) with
  | nil => simp only; split <;> simp
  | cons c rest =>
    have hc : (c != slash) = true := by
      have hhead := head_dropWhile_not (· == slash) (l := path.reverse) (by simp [hname])
      simpa [hname, bne] using hhead
    rw [hname, length_cons] at hslashes
    have hrest := (dropWhile_suffix (l := rest) (· != slash)).length_le
    have hskip : (c :: rest).dropWhile (· != slash) = rest.dropWhile (· != slash) := by
      rw [dropWhile_cons, if_pos hc]
    simp only [hskip]
    cases hparent : rest.dropWhile (· != slash) with
    | nil => exact .inl rfl
    | cons _ parent =>
      rw [hparent, length_cons] at hrest
      cases parent with
      | nil => exact .inr (.inl rfl)
      | cons =>
        refine .inr (.inr ?_)
        simp only [length_reverse]
        omega

@[simp] theorem dirname_dot : dirname [dot] = [dot] := rfl
@[simp] theorem dirname_slash : dirname [slash] = [slash] := rfl

def parentsWithin : Nat → Path → List Path
  | 0, _ => []
  | rounds + 1, path =>
    if dirname path = path then [] else dirname path :: parentsWithin rounds (dirname path)

def parents (path : Path) : List Path := parentsWithin (path.length + 1) path

variable {path : Path} {rounds : Nat}

theorem parentsWithin_of_dirname_eq (h : dirname path = path) (rounds : Nat) : parentsWithin rounds path = [] := by
  cases rounds with
  | zero => rfl
  | succ rounds => rw [parentsWithin, if_pos h]

theorem parentsWithin_succ (h : path.length + 1 ≤ rounds) :
    parentsWithin (rounds + 1) path = parentsWithin rounds path := by
  induction rounds generalizing path with
  | zero => omega
  | succ rounds ih =>
    have hparent : parentsWithin (rounds + 1) (dirname path) = parentsWithin rounds (dirname path) := by
      rcases dirname_cases path with hdot | hslash | hshorter
      · simp only [hdot, parentsWithin_of_dirname_eq dirname_dot]
      · simp only [hslash, parentsWithin_of_dirname_eq dirname_slash]
      · exact ih (by omega)
    rw [parentsWithin, hparent, parentsWithin]

theorem parentsWithin_eq_parents (h : path.length + 1 ≤ rounds) : parentsWithin rounds path = parents path := by
  induction rounds, h using Nat.le_induction with
  | base => rfl
  | succ rounds h ih => rw [parentsWithin_succ h, ih]

/-- At most the terminating zero is written in addition to what was read. -/
theorem canonicalizeLoop_length {src dst : Bytes} {components : List Nat} {result : Bytes × List Nat}
    (h : canonicalizeLoop path rounds src dst components = .ok result) :
    result.1.length ≤ dst.length + src.length + if src = [] then 0 else 1 := by
  fun_induction canonicalizeLoop path rounds src dst components with
  | case1 =>
    cases h
    simp
  | case2 =>
    cases h
    dsimp only
    omega
  | case5 _ _ src => cases src <;> grind
  | case7 => cases h
  | case8 rounds c src dst components _ _ _ _ name rest ih =>
    -- the name is written, and the byte after it
    have hname : name.length + rest.length = (c :: src).length := by
      rw [← length_append, takeWhile_append_dropWhile]
    have hrest := ih h
    clear_value name rest
    cases rest <;> grind
  | _ => grind

theorem canonicalizePath_length {canonical : Path} (h : canonicalizePath path = .ok canonical) :
    canonical.length ≤ path.length + 1 := by
  rw [canonicalizePath] at h
  split at h
  all_goals
    obtain ⟨⟨dst, components⟩, hloop, h⟩ := bind_eq_ok.mp h
    have hlength := canonicalizeLoop_length hloop
    have hdst : dst.length ≤ path.length + 1 := by cases path <;> grind
    cases h
    grind

section
variable {σ : Type} {F : FileSystem σ}

variable {path : Path} {depth : Nat}

theorem mkdirsBelow_of_dirname_eq (h : path = [dot] ∨ path = [slash]) (depth : Nat) (s : σ) (createdDirs : List Path) :
    mkdirsBelow F (depth + 1) s path createdDirs = (s, createdDirs, none) := by
  rcases h with rfl | rfl <;> rfl

theorem mkdirsBelow_succ (h : path.length + 2 ≤ depth) (s : σ) (createdDirs : List Path) :
    mkdirsBelow F (depth + 1) s path createdDirs = mkdirsBelow F depth s path createdDirs := by
  induction depth generalizing path with
  | zero => omega
  | succ depth ih =>
    rw [mkdirsBelow, mkdirsBelow]
    cases hcanonical : canonicalizePath path with
    | error => rfl
    | ok canonical =>
      have hlength := canonicalizePath_length hcanonical
      have hparent : mkdirsBelow F (depth + 1) s (dirname canonical) createdDirs =
          mkdirsBelow F depth s (dirname canonical) createdDirs := by
        obtain ⟨depth, rfl⟩ : ∃ d, depth = d + 1 := ⟨depth - 1, by omega⟩
        rcases or_assoc.mpr (dirname_cases canonical) with htop | hshorter
        · rw [mkdirsBelow_of_dirname_eq htop, mkdirsBelow_of_dirname_eq htop]
        · exact ih (by omega)
      simp only [hparent]

/-- The calls of `mkdirs` for a path, when they are at most so many: the directories that are missing, the
outermost one first, and whether there is a directory to create them in. -/
inductive FileSystem.Missing (F : FileSystem σ) (s : σ) : Nat → Path → List Path → Bool → Prop
  | invalid {depth path error} : canonicalizePath path = .error error → Missing F s (depth + 1) path [] false
  | top {depth path canonical} : canonicalizePath path = .ok canonical → canonical = [dot] ∨ canonical = [slash] →
    Missing F s (depth + 1) path [] true
  | found {depth path canonical} : canonicalizePath path = .ok canonical → ¬ (canonical = [dot] ∨ canonical = [slash]) →
    ¬ ((F.stat s canonical).result = ENOENT ∨ (F.stat s canonical).result = ENOTDIR) →
    Missing F s (depth + 1) path [] (sIsDir (F.stat s canonical).metadata.mode)
  | nested {depth path canonical dirs inside} : canonicalizePath path = .ok canonical →
    ¬ (canonical = [dot] ∨ canonical = [slash]) →
    (F.stat s canonical).result = ENOENT ∨ (F.stat s canonical).result = ENOTDIR →
    Missing F s depth (dirname canonical) dirs inside → Missing F s (depth + 1) path (dirs ++ [canonical]) inside

theorem FileSystem.exists_missing (F : FileSystem σ) (s : σ) (h : path.length + 2 ≤ depth) :
    ∃ dirs inside, F.Missing s depth path dirs inside := by
  induction depth generalizing path with
  | zero => omega
  | succ depth ih =>
    cases hcanonical : canonicalizePath path with
    | error => exact ⟨_, _, .invalid hcanonical⟩
    | ok canonical =>
      have hlength := canonicalizePath_length hcanonical
      by_cases htop : canonical = [dot] ∨ canonical = [slash]
      · exact ⟨_, _, .top hcanonical htop⟩
      by_cases hmissing : (F.stat s canonical).result = ENOENT ∨ (F.stat s canonical).result = ENOTDIR
      · obtain ⟨dirs, inside, hparent⟩ : ∃ dirs inside, F.Missing s depth (dirname canonical) dirs inside := by
          rcases dirname_cases canonical with hdot | hslash | hshorter
          · obtain ⟨depth, rfl⟩ : ∃ d, depth = d + 1 := ⟨depth - 1, by omega⟩
            exact ⟨_, _, .top (by rw [hdot]; rfl) (.inl rfl)⟩
          · obtain ⟨depth, rfl⟩ : ∃ d, depth = d + 1 := ⟨depth - 1, by omega⟩
            exact ⟨_, _, .top (by rw [hslash]; rfl) (.inr rfl)⟩
          · exact ih (by omega)
        exact ⟨_, _, .nested hcanonical htop hmissing hparent⟩
      · exact ⟨_, _, .found hcanonical htop hmissing⟩

end

end Shuriken
