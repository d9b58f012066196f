import Shuriken.Fs.FileSystem

/-!
# Fingerprints

The functions of `fs/fingerprint.cpp`. A fingerprint holds the stat data of a
file, a digest of its contents, and whether it was taken too close to the last
modification of the file for the stat data alone to be trusted later.
-/
namespace Shuriken
open LittleEndian

/-- `Fingerprint::Stat`, the part of the stat data that fingerprints track. -/
structure FingerprintStat where
  size : UInt64 := 0
  ino : UInt64 := 0
  mode : UInt32 := 0
  mtime : Int64 := 0
  deriving DecidableEq

@[ext]
structure Fingerprint where
  stat : FingerprintStat := {}
  racilyClean : Bool := false
  hash : Hash := Hash.zero
  deriving DecidableEq

structure MatchesResult where
  clean : Bool := false
  shouldUpdate : Bool := false
  fileId : FileId := {}
  deriving DecidableEq

def kDefaultBits : UInt32 := 0x1A4
def kExecutableBits : UInt32 := 0x49
def kModeMask : UInt32 := S_IFMT ||| S_ISUID ||| S_ISGID

def trackedMode (mode : UInt32) : UInt32 :=
  kDefaultBits ||| (if mode &&& S_IXUSR ≠ 0 then kExecutableBits else 0) ||| (mode &&& kModeMask)

/-- `out` is the previous value of the output parameter; a failed stat leaves it alone. -/
def FingerprintStat.fromStat (stat : Stat) (out : FingerprintStat) : FingerprintStat :=
  if stat.result = 0 then
    { size := stat.metadata.size
      ino := stat.metadata.ino
      mode := trackedMode stat.metadata.mode
      mtime := stat.mtime }
  else out

def FingerprintStat.couldAccess (stat : FingerprintStat) : Bool := stat.mode ≠ 0

def FingerprintStat.isDir (stat : FingerprintStat) : Bool := sIsDir stat.mode

/-- A fingerprint that was taken no later than the file's mtime is racily clean. -/
def isRacilyClean (stat : FingerprintStat) (timestamp : Int64) : Bool :=
  decide (timestamp ≤ stat.mtime)

def kExtraDataSize : Nat := 16

/-- The header that is hashed before the contents: its own size, the file size, the mode. -/
def extraData (fileSize : UInt64) (mode : UInt32) : Bytes :=
  le32 (UInt32.ofNat kExtraDataSize) ++ le64 fileSize ++ le32 mode

section
variable {σ : Type} (F : FileSystem σ)

def fingerprintError (path : Path) (error : IoError) : IoError :=
  ⟨"Could not fingerprint " ++ displayPath path ++ ": " ++ error.what, error.code⟩

def computeFingerprintHash (s : σ) (fileSize : UInt64) (mode : UInt32) (path : Path) : Except IoError Hash :=
  let extra := extraData fileSize mode
  let result :=
    if sIsDir mode then F.hashDir s path extra
    else if sIsLnk mode then F.hashSymlink s path extra
    else if sIsReg mode then F.hashFile s path extra
    else .ok Hash.zero
  result.mapError (fingerprintError path)

def fingerprintMatchesFpStat (original : Fingerprint) (newStat : FingerprintStat) (newHash : Hash) : Bool :=
  original.stat.size == newStat.size && original.stat.mode == newStat.mode &&
    original.hash == newHash

def fingerprintMatchesStat (original : Fingerprint) (newStat : Stat) (newHash : Hash) : Bool :=
  fingerprintMatchesFpStat original (.fromStat newStat {}) newHash

/-- The logic shared by `fingerprintMatches` and `retakeFingerprint`. The second
component is the output parameter `hash` afterwards; it is only set when the
contents had to be hashed. -/
def fingerprintMatchesCurrent (s : σ) (path : Path) (fp : Fingerprint) (currentStat : Stat)
    (hash : Hash) : Except IoError (MatchesResult × Hash) :=
  let current := FingerprintStat.fromStat currentStat {}
  let fileId := FileId.ofStat currentStat
  if current = fp.stat ∧ (fp.racilyClean = false ∨ fp.stat.mode = 0) then
    .ok ({ clean := true, fileId }, hash)
  else if current.size = fp.stat.size ∧ current.mode = fp.stat.mode then do
    let newHash ← computeFingerprintHash F s fp.stat.size fp.stat.mode path
    return ({ clean := fingerprintMatchesFpStat fp current newHash
              shouldUpdate := true, fileId }, newHash)
  else .ok ({ fileId }, hash)

def fingerprintMatches (s : σ) (path : Path) (fp : Fingerprint) : Except IoError MatchesResult := do
  let (result, _) ← fingerprintMatchesCurrent F s path fp (F.lstat s path) Hash.zero
  return result

def takeFingerprint (s : σ) (timestamp : Int64) (path : Path) : Except IoError (Fingerprint × FileId) := do
  let stat := F.lstat s path
  let fpStat := FingerprintStat.fromStat stat {}
  let hash ← computeFingerprintHash F s fpStat.size fpStat.mode path
  return ({ stat := fpStat, racilyClean := isRacilyClean fpStat timestamp, hash }, FileId.ofStat stat)

def retakeFingerprint (s : σ) (timestamp : Int64) (path : Path) (old : Fingerprint) :
    Except IoError (Fingerprint × FileId) := do
  let stat := F.lstat s path
  let (result, hash) ← fingerprintMatchesCurrent F s path old stat old.hash
  if result.clean || result.shouldUpdate then
    let fpStat := FingerprintStat.fromStat stat old.stat
    return ({ stat := fpStat, racilyClean := isRacilyClean fpStat timestamp, hash }, FileId.ofStat stat)
  else takeFingerprint F s timestamp path

end
end Shuriken
