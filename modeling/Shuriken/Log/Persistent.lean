import Shuriken.Log.Parse

/-!
# Writing the invocation log

`PersistentInvocationLog`: every operation appends whole records to the stream. The ids of paths and
fingerprints are implicit in the order of their records, and the writer counts along.
-/
namespace Shuriken

structure PersistentInvocationLog where
  /-- The file as it was when the log was opened, with its signature. -/
  existing : Bytes
  /-- The records that were appended since. -/
  written : List Record := []
  pathIds : PathIds := ∅
  fingerprintIds : FingerprintIds := ∅
  fingerprintEntryCount : UInt32 := 0
  pathEntryCount : UInt32 := 0

/-- What `writeFingerprintOrDirectoryEntry` does with a directory. -/
inductive WriteType where
  | ignoreDirectory | directoryAsDirectoryEntry
  deriving DecidableEq

def openPersistentInvocationLog (contents : Bytes) (parseData : ParseData) : PersistentInvocationLog where
  existing := if contents.length = 0 then fileHeader else contents
  pathIds := parseData.pathIds
  fingerprintIds := parseData.fingerprintIds
  fingerprintEntryCount := parseData.fingerprintEntryCount
  pathEntryCount := parseData.pathEntryCount

namespace PersistentInvocationLog

def stream (log : PersistentInvocationLog) : Bytes := log.existing ++ log.written.flatMap Record.bytes

def parseData (log : PersistentInvocationLog) : ParseData where
  pathIds := log.pathIds
  fingerprintIds := log.fingerprintIds
  fingerprintEntryCount := log.fingerprintEntryCount
  pathEntryCount := log.pathEntryCount

def write (log : PersistentInvocationLog) (r : Record) : PersistentInvocationLog :=
  { log with written := log.written ++ [r] }

def writePathEntry (log : PersistentInvocationLog) (path : Path) : PersistentInvocationLog :=
  { log.write (.path path) with pathEntryCount := log.pathEntryCount + 1 }

def writeDirectoryEntry (log : PersistentInvocationLog) (pathId : UInt32) : PersistentInvocationLog :=
  log.write (.createdDir pathId)

def writeFingerprintEntry (log : PersistentInvocationLog) (pathId : UInt32) (fp : Fingerprint) :
    PersistentInvocationLog × UInt32 :=
  ({ log.write (.fingerprint pathId fp) with
      fingerprintEntryCount := log.fingerprintEntryCount + 1 }, log.fingerprintEntryCount)

def ensurePathIsWritten (log : PersistentInvocationLog) (path : Path) : PersistentInvocationLog × UInt32 :=
  match log.pathIds.lookup path with
  | some id => (log, id)
  | none =>
    let id := log.pathEntryCount
    let log := log.writePathEntry path
    ({ log with pathIds := .insert path id log.pathIds }, id)

def writeFingerprintOrDirectoryEntry (log : PersistentInvocationLog) (pathId : UInt32) (path : Path)
    (fp : Fingerprint) (type : WriteType) : PersistentInvocationLog × UInt32 :=
  if fp.stat.isDir then
    (if type = .directoryAsDirectoryEntry then log.writeDirectoryEntry pathId else log, kInvalidEntry)
  else
    let value : FingerprintIdsValue := ⟨log.fingerprintEntryCount, fp⟩
    let (log, entryId) := log.writeFingerprintEntry pathId fp
    ({ log with fingerprintIds := .insert path value log.fingerprintIds }, entryId)

/-- Only the most recent fingerprint of a path can be used again. -/
def ensureRecentFingerprintIsWritten (log : PersistentInvocationLog) (path : Path) (fp : Fingerprint)
    (type : WriteType) : PersistentInvocationLog × UInt32 :=
  let (log, pathId) := log.ensurePathIsWritten path
  match log.fingerprintIds.lookup path with
  | none => log.writeFingerprintOrDirectoryEntry pathId path fp type
  | some old =>
    if old.fingerprint ≠ fp then log.writeFingerprintOrDirectoryEntry pathId path fp type
    else (log, old.recordId)

/-- The loop over paths and fingerprints. The source takes two vectors and rejects vectors
of different sizes, here they are one list of pairs. -/
def writePathsAndFingerprints (type : WriteType) :
    PersistentInvocationLog → List (Path × Fingerprint) → PersistentInvocationLog × List UInt32
  | log, [] => (log, [])
  | log, (path, fp) :: files =>
    let (log, entryId) := log.ensureRecentFingerprintIsWritten path fp type
    let (log, result) := writePathsAndFingerprints type log files
    (log, if entryId ≠ kInvalidEntry then entryId :: result else result)

def writeOutputPathsAndFingerprints := writePathsAndFingerprints .directoryAsDirectoryEntry

def writeInputPathsAndFingerprints := writePathsAndFingerprints .ignoreDirectory

def createdDirectory (log : PersistentInvocationLog) (path : Path) : PersistentInvocationLog :=
  let (log, pathId) := log.ensurePathIsWritten path
  log.writeDirectoryEntry pathId

def removedDirectory (log : PersistentInvocationLog) (path : Path) : PersistentInvocationLog :=
  match log.pathIds.lookup path with
  | none => log
  | some pathId => log.write (.deletedDir pathId)

def ranCommand (log : PersistentInvocationLog) (buildStepHash : Hash)
    (outputFiles inputFiles : List (Path × Fingerprint)) (ignoredDependencies : List UInt32)
    (additionalDependencies : List Hash) : PersistentInvocationLog :=
  let (log, outputFpIds) := log.writeOutputPathsAndFingerprints outputFiles
  let (log, inputFpIds) := log.writeInputPathsAndFingerprints inputFiles
  log.write (.invocation buildStepHash ignoredDependencies additionalDependencies outputFpIds
    inputFpIds)

def cleanedCommand (log : PersistentInvocationLog) (buildStepHash : Hash) : PersistentInvocationLog :=
  log.write (.deletedInvocation buildStepHash)

def fingerprint {σ : Type} (F : FileSystem σ) (s : σ) (clock : Int64)
    (log : PersistentInvocationLog) (path : Path) : Except IoError (Fingerprint × FileId) :=
  match log.fingerprintIds.lookup path with
  | none => takeFingerprint F s clock path
  | some old => retakeFingerprint F s clock path old.fingerprint

end PersistentInvocationLog

/-- The arguments of a `ranCommand` call. -/
structure RanCommand where
  buildStepHash : Hash
  outputFiles : List (Path × Fingerprint)
  inputFiles : List (Path × Fingerprint)
  ignoredDependencies : List UInt32
  additionalDependencies : List Hash
  deriving DecidableEq

/-- A call of an `InvocationLog`. -/
inductive LogCall where
  | createdDirectory (path : Path)
  | removedDirectory (path : Path)
  | ranCommand (command : RanCommand)
  | cleanedCommand (buildStepHash : Hash)
  deriving DecidableEq

def PersistentInvocationLog.call (log : PersistentInvocationLog) : LogCall → PersistentInvocationLog
  | .createdDirectory path => log.createdDirectory path
  | .removedDirectory path => log.removedDirectory path
  | .ranCommand c => log.ranCommand c.buildStepHash c.outputFiles c.inputFiles c.ignoredDependencies
      c.additionalDependencies
  | .cleanedCommand buildStepHash => log.cleanedCommand buildStepHash

def PersistentInvocationLog.calls (log : PersistentInvocationLog) (calls : List LogCall) : PersistentInvocationLog :=
  calls.foldl call log

def emptyLog : PersistentInvocationLog := openPersistentInvocationLog [] {}

def LogCall.paths : LogCall → List Path
  | .createdDirectory path => [path]
  | .removedDirectory path => [path]
  | .ranCommand c => (c.outputFiles ++ c.inputFiles).map Prod.fst
  | .cleanedCommand _ => []

end Shuriken
