import Mathlib.Data.List.Sort
import Shuriken.Lib.LittleEndian

/-!
# Files as the build system sees them

`FileSystem` is the abstract class of `fs/file_system.h` over an arbitrary state type.
-/
namespace Shuriken
open LittleEndian

abbrev Bytes := List UInt8
abbrev Path := Bytes

instance lawfulBEqBytes : LawfulBEq Bytes := inferInstance

/-- Paths inside error messages; every byte is shown as one character. -/
def displayPath (path : Path) : String := String.ofList (path.map fun b => Char.ofNat b.toNat)

def kHashSize : Nat := 20

structure Hash where
  data : Bytes
  size : data.length = kHashSize
  deriving DecidableEq

def Hash.zero : Hash := ⟨List.replicate kHashSize 0, List.length_replicate⟩

def Hash.ofBytes (bytes : Bytes) : Hash := ⟨(bytes ++ List.replicate kHashSize 0).take kHashSize, by simp⟩

def Hash.repeated (b : UInt8) : Hash := ⟨List.replicate kHashSize b, List.length_replicate⟩

def ENOENT : Nat := 2
def ENOTDIR : Nat := 20
def ENOTEMPTY : Nat := 39

/-- A failed operation. Success is `none` where the source returns `IoError::success()`. -/
structure IoError where
  what : String
  code : Nat
  deriving DecidableEq

structure FileMetadata where
  mode : UInt32 := 0
  size : UInt64 := 0
  ino : UInt64 := 0
  dev : UInt64 := 0
  deriving DecidableEq

structure Stat where
  result : Nat := 0
  metadata : FileMetadata := {}
  mtime : Int64 := 0
  deriving DecidableEq

structure FileId where
  ino : UInt64 := 0
  dev : UInt64 := 0
  deriving DecidableEq

def FileId.ofStat (stat : Stat) : FileId := ⟨stat.metadata.ino, stat.metadata.dev⟩

def FileId.missing (id : FileId) : Bool := id.ino == 0 && id.dev == 0

def S_IFMT : UInt32 := 0xF000
def S_IFDIR : UInt32 := 0x4000
def S_IFREG : UInt32 := 0x8000
def S_IFLNK : UInt32 := 0xA000
def S_ISUID : UInt32 := 0x800
def S_ISGID : UInt32 := 0x400
def S_IXUSR : UInt32 := 0x40

def sIsDir (mode : UInt32) : Bool := mode &&& S_IFMT == S_IFDIR
def sIsReg (mode : UInt32) : Bool := mode &&& S_IFMT == S_IFREG
def sIsLnk (mode : UInt32) : Bool := mode &&& S_IFMT == S_IFLNK

inductive DirEntryType where
  | unknown | fifo | chr | dir | blk | reg | lnk | sock | wht
  deriving DecidableEq

/-- The values are significant, they are hashed. -/
def DirEntryType.value : DirEntryType → UInt8
  | .unknown => 0
  | .fifo => 1
  | .chr => 2
  | .dir => 3
  | .blk => 4
  | .reg => 5
  | .lnk => 6
  | .sock => 7
  | .wht => 8

/-- A name comes from a C string, so it holds no null byte. -/
structure DirEntry where
  type : DirEntryType
  name : Bytes
  terminated : 0 ∉ name
  deriving DecidableEq

/-- `operator<` on the pair of name and type, made total. -/
def DirEntry.le (a b : DirEntry) : Bool :=
  decide (a.name < b.name) || (a.name == b.name && a.type.value ≤ b.type.value)

/-- All that can be observed about one path without following a final symlink.
`readError` is the error with which reading fails, if it does. -/
structure FileView where
  stat : Stat
  contents : Bytes := []
  target : Bytes := []
  entries : List DirEntry := []
  readError : Option IoError := none
  deriving DecidableEq

/-- The interface of `fs/file_system.h`. A mutating operation returns the next
state together with its error, since it may fail after it changed something. -/
structure FileSystem (σ : Type) where
  view : σ → Path → FileView
  stat : σ → Path → Stat
  mkdir : σ → Path → σ × Option IoError
  rmdir : σ → Path → σ × Option IoError
  unlink : σ → Path → σ × Option IoError
  writeFile : σ → Path → Bytes → σ × Option IoError
  blake2b : Bytes → Hash
  /-- `genericStat` leaves the metadata at its defaults when the call fails. -/
  lstat_failed : ∀ s p, (view s p).stat.result ≠ 0 → (view s p).stat.metadata = {}

namespace FileSystem
variable {σ : Type} (F : FileSystem σ)

def lstat (s : σ) (path : Path) : Stat := (F.view s path).stat

def readFile (s : σ) (path : Path) : Except IoError Bytes :=
  match (F.view s path).readError with
  | some error => .error error
  | none => .ok (F.view s path).contents

def readSymlink (s : σ) (path : Path) : Except IoError Bytes :=
  match (F.view s path).readError with
  | some error => .error error
  | none => .ok (F.view s path).target

def readDir (s : σ) (path : Path) : Except IoError (List DirEntry) :=
  match (F.view s path).readError with
  | some error => .error error
  | none => .ok (F.view s path).entries

def dirEntryBytes (entry : DirEntry) : Bytes := entry.type.value :: (entry.name ++ [0])

def sortedEntries (entries : List DirEntry) : List DirEntry := entries.mergeSort DirEntry.le

def hashFile (s : σ) (path : Path) (extraData : Bytes) : Except IoError Hash := do
  let contents ← F.readFile s path
  return F.blake2b (extraData ++ contents)

/-- `hashDir` hashes `sizeof(extra_data.size())` bytes of the extra data, not all of it. -/
def hashDir (s : σ) (path : Path) (extraData : Bytes) : Except IoError Hash := do
  let entries ← F.readDir s path
  return F.blake2b (extraData.take 8 ++ (sortedEntries entries).flatMap dirEntryBytes)

/-- Like `hashDir`, this hashes only the first eight bytes of the extra data. -/
def hashSymlink (s : σ) (path : Path) (extraData : Bytes) : Except IoError Hash := do
  let target ← F.readSymlink s path
  return F.blake2b (extraData.take 8 ++ target)

theorem lstat_fileId_missing {s : σ} {path : Path} (h : (F.lstat s path).result ≠ 0) :
    (FileId.ofStat (F.lstat s path)).missing = true := by
  simp only [FileId.ofStat, lstat, F.lstat_failed s path h, FileId.missing]
  rfl

end FileSystem
end Shuriken
