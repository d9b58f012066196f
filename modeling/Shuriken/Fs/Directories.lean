import Shuriken.Fs.FileSystem

/-!
# Paths and directories

The path operations that the build uses, and `mkdirs`.
-/
namespace Shuriken

def slash : UInt8 := 47
def dot : UInt8 := 46

/-- The first part of `basenameSplitPiece`. Trailing slashes are not part of the last name. -/
def dirname (path : Path) : Path :=
  match path.reverse.dropWhile (· == slash) with
  | [] => if path = [] then [dot] else [slash]
  | upToName =>
    match upToName.dropWhile (· != slash) with
    | [] => [dot]
    | [_] => [slash]
    | _ :: parent => parent.reverse

structure PathError where
  what : String
  path : Path
  deriving DecidableEq

def kMaxPathComponents : Nat := 62

/-- The loop of `canonicalizePath`: the bytes that are left to read, those that are written, and
the positions at which the open components start, the last one first. Each component is copied
with the byte after it, which is the terminating zero at the end of the path. Every round
consumes a byte, and the first argument bounds the rounds. -/
def canonicalizeLoop (path : Path) : Nat → Bytes → Bytes → List Nat → Except PathError (Bytes × List Nat)
  | _, [], dst, components => .ok (dst, components)
  | 0, _, dst, components => .ok (dst, components)
  | rounds + 1, c :: src, dst, components =>
    if c = dot ∧ src.head?.getD slash = slash then
      canonicalizeLoop path rounds (src.drop 1) dst components
    else if c = dot ∧ src.head? = some dot ∧ (src.drop 1).head?.getD slash = slash then
      match components with
      | start :: components =>
        canonicalizeLoop path rounds (src.drop 2) (dst.take start) components
      | [] =>
        canonicalizeLoop path rounds (src.drop 2) (dst ++ [dot, dot, (src.drop 1).head?.getD 0]) []
    else if c = slash then canonicalizeLoop path rounds src dst components
    else if components.length = kMaxPathComponents then
      .error ⟨"path has too many components", path⟩
    else
      let name := (c :: src).takeWhile (· != slash)
      let rest := (c :: src).dropWhile (· != slash)
      canonicalizeLoop path rounds (rest.drop 1) (dst ++ name ++ [rest.head?.getD 0])
        (dst.length :: components)

def canonicalizePath (path : Path) : Except PathError Path := do
  let (dst, components) ←
    if path.head? = some slash then canonicalizeLoop path path.length (path.drop 1) [slash] []
    else canonicalizeLoop path path.length path [] []
  let result := dst.take (dst.length - if components = [] then 0 else 1)
  return if result = [] then [dot] else result

section
variable {σ : Type} (F : FileSystem σ)

/-- `mkdirs`, with the directories that were created, or that it was about to create, in order.
The path gets shorter with each call, and the first argument bounds the depth. -/
def mkdirsBelow : Nat → σ → Path → List Path → σ × List Path × Option IoError
  | 0, s, path, createdDirs => (s, createdDirs, some ⟨"Not a directory: " ++ displayPath path, ENOTDIR⟩)
  | depth + 1, s, noncanonicalPath, createdDirs =>
    match canonicalizePath noncanonicalPath with
    | .error error => (s, createdDirs, some ⟨error.what, 0⟩)
    | .ok path =>
      if path = [dot] ∨ path = [slash] then (s, createdDirs, none)
      else
        let stat := F.stat s path
        if stat.result = ENOENT ∨ stat.result = ENOTDIR then
          match mkdirsBelow depth s (dirname path) createdDirs with
          | (s, createdDirs, some error) => (s, createdDirs, some error)
          | (s, createdDirs, none) =>
            let (s, error) := F.mkdir s path
            (s, createdDirs ++ [path], error)
        else if sIsDir stat.metadata.mode then (s, createdDirs, none)
        else (s, createdDirs, some ⟨"Not a directory: " ++ displayPath path, ENOTDIR⟩)

def mkdirs (s : σ) (path : Path) : σ × List Path × Option IoError := mkdirsBelow F (path.length + 2) s path []

end
end Shuriken
