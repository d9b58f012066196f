import Shuriken.Lib.Finmap
import Shuriken.Log.Format

/-!
# Parsing the invocation log

`parsePersistentInvocationLog` and its helpers.
-/
namespace Shuriken
open LittleEndian RecordStream

structure FingerprintIdsValue where
  recordId : UInt32 := 0
  fingerprint : Fingerprint
  deriving DecidableEq

abbrev PathIds := Finmap fun _ : Path => UInt32
abbrev FingerprintIds := Finmap fun _ : Path => FingerprintIdsValue

/-- What the writer needs to continue a log. -/
structure ParseData where
  pathIds : PathIds := ∅
  fingerprintIds : FingerprintIds := ∅
  fingerprintEntryCount : UInt32 := 0
  pathEntryCount : UInt32 := 0

structure InvocationLogParseResult where
  invocations : Invocations := {}
  warning : String := ""
  needsRecompaction : Bool := false
  parseData : ParseData := {}

structure Parsing where
  invocations : Invocations := {}
  pathIds : PathIds := ∅
  fingerprintIds : FingerprintIds := ∅
  pathsById : List Path := []
  entryCount : Nat := 0

def advance (view : Bytes) (len : Nat) : Except ParseFailure Bytes :=
  if len > view.length then .error (.fatal "internal error while parsing invocation log")
  else .ok (view.drop len)

def parseInvocationLogSignature (view : Bytes) : Except String Bytes :=
  if view.length < kFileSignature.length + sizeofUInt32 then
    .error "invalid invocation log file signature (too short)"
  else if view.take kFileSignature.length ≠ kFileSignature then
    .error "invalid invocation log file signature"
  else if read32 (view.drop kFileSignature.length) ≠ kFileVersion then
    .error "invalid invocation log file version or bad byte order"
  else .ok (view.drop (kFileSignature.length + sizeofUInt32))

def readUInt32 (view : Bytes) : Except ParseFailure UInt32 := do
  ensureEntryLen view sizeofUInt32
  return read32 view

def readHash (view : Bytes) : Except ParseFailure Hash := do
  ensureEntryLen view kHashSize
  return .ofBytes view

def wordsAt : Nat → Bytes → List UInt32
  | 0, _ => []
  | count + 1, view => read32 view :: wordsAt count (view.drop sizeofUInt32)

def hashesAt : Nat → Bytes → List Hash
  | 0, _ => []
  | count + 1, view => .ofBytes view :: hashesAt count (view.drop kHashSize)

/-- All words of the view. The largest `endIndex` turns the validation off. -/
def readIndices (endIndex : UInt32) (view : Bytes) : Except ParseFailure (List UInt32) :=
  let fingerprintIds := wordsAt (view.length / sizeofUInt32) view
  if endIndex < kInvalidEntry ∧ fingerprintIds.any (endIndex ≤ ·) then
    .error (.parseError "invalid invocation log: encountered invalid fingerprint ref")
  else .ok fingerprintIds

def readHashes (view : Bytes) (numAdditionalDependencies : Nat) : Except ParseFailure (List Hash) :=
  if view.length < numAdditionalDependencies * kHashSize then
    .error (.parseError "invalid invocation log: encountered invalid additional deps list")
  else .ok (hashesAt numAdditionalDependencies view)

def readPath (pathsById : List Path) (view : Bytes) : Except ParseFailure Path := do
  let pathId ← readUInt32 view
  match pathsById[pathId.toNat]? with
  | some path => return path
  | none => .error (.parseError "invalid invocation log: encountered invalid path ref")

def zeroBefore (entry : Bytes) (size : Nat) : Bool := size ≠ 0 && entry.getD (size - 1) 0 == 0

def pathSize (entry : Bytes) : Except ParseFailure Nat :=
  if ¬ zeroBefore entry entry.length then
    .error (.parseError "invalid invocation log: Encountered non null terminated path")
  else
    let size := entry.length - 1
    if ¬ zeroBefore entry size then .ok size
    else if ¬ zeroBefore entry (size - 1) then .ok (size - 1)
    else if ¬ zeroBefore entry (size - 2) then .ok (size - 2)
    else if ¬ zeroBefore entry (size - 3) then .ok (size - 3)
    else
      .error (.parseError
        "invalid invocation log: Encountered path with too many null terminators")

namespace Parsing

def parsePath (st : Parsing) (entry : Bytes) : Except ParseFailure Parsing := do
  let path := entry.take (← pathSize entry)
  return { st with
    pathIds := Finmap.insert path (UInt32.ofNat st.pathsById.length) st.pathIds
    pathsById := st.pathsById ++ [path] }

/-- Only a directory that exists is kept, under its file id. -/
def createdDirectory (lstat : Path → Stat) (st : Parsing) (path : Path) : Parsing :=
  if (lstat path).result = 0 then
    { st with invocations.createdDirectories :=
        .emplace (FileId.ofStat (lstat path)) path st.invocations.createdDirectories }
  else st

def parseCreatedDir (lstat : Path → Stat) (st : Parsing) (entry : Bytes) : Except ParseFailure Parsing := do
  return st.createdDirectory lstat (← readPath st.pathsById entry)

def parseFingerprint (st : Parsing) (entry : Bytes) : Except ParseFailure Parsing := do
  let path ← readPath st.pathsById entry
  let fingerprint := Fingerprint.ofBytes (← advance entry sizeofUInt32)
  return { st with
    fingerprintIds := Finmap.insert path
      ⟨UInt32.ofNat st.invocations.fingerprints.length, fingerprint⟩ st.fingerprintIds
    invocations.fingerprints := st.invocations.fingerprints ++ [(path, fingerprint)] }

def deletedDirectory (lstat : Path → Stat) (st : Parsing) (path : Path) : Parsing :=
  if (lstat path).result = 0 then
    { st with invocations.createdDirectories := .erase (FileId.ofStat (lstat path)) st.invocations.createdDirectories }
  else st

def parseDeleted (lstat : Path → Stat) (st : Parsing) (entry : Bytes) : Except ParseFailure Parsing := do
  if entry.length = sizeofUInt32 then
    return st.deletedDirectory lstat (← readPath st.pathsById entry)
  else if entry.length = kHashSize then
    return { st with invocations.entries := .erase (← readHash entry) st.invocations.entries }
  else .error (.parseError "invalid invocation log: invalid deleted entry")

end Parsing

/-- The parts of an invocation entry. The fingerprint refs are still to be read: the first
`outputSize` bytes of `refs` are outputs, the others inputs. -/
structure InvocationParts where
  hash : Hash
  ignoredDependencies : List UInt32
  additionalDependencies : List Hash
  outputSize : Nat
  refs : Bytes
  outputs_fit : outputSize ≤ refs.length

def readInvocationParts (entry : Bytes) : Except ParseFailure InvocationParts := do
  let hash ← readHash entry
  let entry ← advance entry kHashSize
  let numIgnoredDependencies ← readUInt32 entry
  let entry ← advance entry sizeofUInt32
  let ignoredDependenciesSize := sizeofUInt32 * numIgnoredDependencies.toNat
  if entry.length < ignoredDependenciesSize then
    throw (.parseError "invalid invocation log: truncated invocation")
  let ignoredDependencies ← readIndices kInvalidEntry (entry.take ignoredDependenciesSize)
  let entry ← advance entry (ignoredDependencies.length * sizeofUInt32)
  let numAdditionalDependencies ← readUInt32 entry
  let entry ← advance entry sizeofUInt32
  let additionalDependencies ← readHashes entry numAdditionalDependencies.toNat
  let entry ← advance entry (additionalDependencies.length * kHashSize)
  let outputs ← readUInt32 entry
  let entry ← advance entry sizeofUInt32
  let outputSize := sizeofUInt32 * outputs.toNat
  if h : entry.length < outputSize then
    throw (.parseError "invalid invocation log: truncated invocation")
  else
    return ⟨hash, ignoredDependencies, additionalDependencies, outputSize, entry, Nat.le_of_not_lt h⟩

/-- The braced list that is assigned to `entries[hash]`, evaluated from left to right. -/
def InvocationParts.read (parts : InvocationParts) (fingerprintCount : UInt32) :
    Except ParseFailure InvocationEntry := do
  let outputFiles ← readIndices fingerprintCount (parts.refs.take parts.outputSize)
  let inputFiles ← readIndices fingerprintCount (← advance parts.refs parts.outputSize)
  return ⟨outputFiles, inputFiles, parts.ignoredDependencies, parts.additionalDependencies⟩

/-- Which operand of `entries[hash] = { .. }` is evaluated first. Before C++17 the language
leaves the choice to the compiler, and the project is compiled as C++14. -/
inductive EvalOrder where
  | slotFirst | valueFirst
  deriving DecidableEq

namespace Parsing

/-- `entries[hash]` adds an empty entry for a hash that has none. -/
def touchEntry (st : Parsing) (hash : Hash) : Parsing :=
  { st with invocations.entries := .emplace hash {} st.invocations.entries }

def setEntry (st : Parsing) (hash : Hash) (entry : InvocationEntry) : Parsing :=
  { st with invocations.entries := .insert hash entry st.invocations.entries }

/-- An error comes with the state at that point: when the slot is evaluated first, it is
there by the time the indices are checked. -/
def parseInvocation (order : EvalOrder) (st : Parsing) (entry : Bytes) : Except (ParseFailure × Parsing) Parsing := do
  let parts ← (readInvocationParts entry).mapError (·, st)
  let slot := if order = .slotFirst then st.touchEntry parts.hash else st
  let fingerprintCount := UInt32.ofNat st.invocations.fingerprints.length
  let value ← (parts.read fingerprintCount).mapError (·, slot)
  return slot.setEntry parts.hash value

def dispatch (order : EvalOrder) (lstat : Path → Stat) (st : Parsing) (raw : RawEntry) :
    Except (ParseFailure × Parsing) Parsing :=
  match raw.type with
  | .path => (st.parsePath raw.entry).mapError (·, st)
  | .createdDirOrFingerprint =>
    if raw.entry.length = sizeofUInt32 then
      (st.parseCreatedDir lstat raw.entry).mapError (·, st)
    else if raw.entry.length = sizeofUInt32 + sizeofFingerprint then
      (st.parseFingerprint raw.entry).mapError (·, st)
    else .error (.parseError "invalid invocation log: truncated invocation", st)
  | .invocation => st.parseInvocation order raw.entry
  | .deleted => (st.parseDeleted lstat raw.entry).mapError (·, st)

def counted (st : Parsing) : Parsing := { st with entryCount := st.entryCount + 1 }

def parseEntry (order : EvalOrder) (lstat : Path → Stat) : Action RawEntry Parsing ParseFailure := fun st raw => do
    let next ← st.dispatch order lstat raw
    return next.counted

def parseData (st : Parsing) : ParseData where
  pathIds := st.pathIds
  fingerprintIds := st.fingerprintIds
  fingerprintEntryCount := UInt32.ofNat st.invocations.fingerprints.length
  pathEntryCount := UInt32.ofNat st.pathsById.length

def kMinCompactionEntryCount : Nat := 1000
def kCompactionRatio : Nat := 3

def needsRecompaction (st : Parsing) : Bool :=
  let uniqueRecordCount := st.invocations.entries.keys.card +
    st.invocations.createdDirectories.keys.card + st.pathIds.keys.card +
    st.invocations.countUsedFingerprints
  decide (st.entryCount > kMinCompactionEntryCount) &&
    decide (st.entryCount > uniqueRecordCount * kCompactionRatio)

def result (st : Parsing) (warning : String) : InvocationLogParseResult where
  invocations := st.invocations
  warning := warning
  needsRecompaction := st.needsRecompaction
  parseData := st.parseData

end Parsing

def parseEntries (order : EvalOrder) (lstat : Path → Stat) (view : Bytes) : Scan UInt8 Parsing ParseFailure :=
  run logFraming (Parsing.parseEntry order lstat) view {}

/-- The result and what is left of the file, where `none` is a file that is not there. An
error stands for the end of the process by `fatal`. -/
def parsePersistentInvocationLog (order : EvalOrder) (lstat : Path → Stat) (file : Option Bytes) :
    Except String (InvocationLogParseResult × Option Bytes) :=
  match file with
  | none => .ok ({}, none)
  | some contents =>
    match parseInvocationLogSignature contents with
    | .error err => .ok ({ warning := err }, none)
    | .ok view =>
      let loop := parseEntries order lstat view
      let left := contents.take (contents.length - loop.rest.length)
      match loop.error with
      | some (.fatal what) => .error what
      | some (.parseError what) => .ok (loop.state.result what, some left)
      | none => .ok (loop.state.result "", some left)

end Shuriken
