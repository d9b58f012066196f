import Mathlib.Data.Finmap
import Shuriken.Lib.Except
import Shuriken.Lib.RecordStream
import Shuriken.Fs.Fingerprint

/-!
# The format of the invocation log

A log file is a signature followed by entries. Each entry has a header, the size of the entry with the entry
type in the two low bits, and then that many bytes.
-/
namespace Shuriken
open List LittleEndian RecordStream Nat

/-- `InvocationLogEntryType` -/
inductive EntryType where
  | path | createdDirOrFingerprint | invocation | deleted
  deriving DecidableEq

def EntryType.value : EntryType → UInt32
  | .path => 0
  | .createdDirOrFingerprint => 1
  | .invocation => 2
  | .deleted => 3

def EntryType.ofValue (value : UInt32) : EntryType :=
  if value = 0 then .path
  else if value = 1 then .createdDirOrFingerprint
  else if value = 2 then .invocation
  else .deleted

def kFileSignature : Bytes := "invocations:".toList.map fun c => UInt8.ofNat c.toNat
def kFileVersion : UInt32 := 1
def kInvocationLogEntryTypeMask : UInt32 := 3
def kInvalidEntry : UInt32 := 0xFFFFFFFF

def sizeofUInt32 : Nat := 4
/-- `sizeof(Fingerprint)`, with the padding that its layout has. -/
def sizeofFingerprint : Nat := 56

def fileHeader : Bytes := kFileSignature ++ le32 kFileVersion

/-- The memory of a `Fingerprint`. Padding bytes are written as zeros and never read. -/
def Fingerprint.bytes (fp : Fingerprint) : Bytes :=
  le64 fp.stat.size ++ (le64 fp.stat.ino ++ (le32 fp.stat.mode ++ (replicate 4 0 ++
    (le64 fp.stat.mtime.toUInt64 ++ ((if fp.racilyClean then 1 else 0) :: (fp.hash.data ++ replicate 3 0))))))

def Fingerprint.ofBytes (bytes : Bytes) : Fingerprint :=
  { stat :=
      { size := read64 bytes
        ino := read64 (bytes.drop 8)
        mode := read32 (bytes.drop 16)
        mtime := (read64 (bytes.drop 24)).toInt64 }
    racilyClean := bytes.getD 32 0 ≠ 0
    hash := .ofBytes (bytes.drop 33) }

/-- The entries that are written, by the kinds that `EntryType` and the entry size tell apart. -/
inductive Record where
  | path (path : Path)
  | createdDir (pathId : UInt32)
  | fingerprint (pathId : UInt32) (fp : Fingerprint)
  | invocation (buildStepHash : Hash) (ignoredDependencies : List UInt32)
      (additionalDependencies : List Hash) (outputFpIds inputFpIds : List UInt32)
  | deletedDir (pathId : UInt32)
  | deletedInvocation (buildStepHash : Hash)
  deriving DecidableEq

namespace Record

def type : Record → EntryType
  | path _ => .path
  | createdDir _ => .createdDirOrFingerprint
  | fingerprint _ _ => .createdDirOrFingerprint
  | invocation _ _ _ _ _ => .invocation
  | deletedDir _ => .deleted
  | deletedInvocation _ => .deleted

def paddingBytes (pathSize : Nat) : Nat := (4 - pathSize % 4) % 4

/-- The size that the entry's header is written with, before it is cut to 32 bits. -/
def entrySize : Record → Nat
  | path p => p.length + 1 + paddingBytes (p.length + 1)
  | createdDir _ => sizeofUInt32
  | fingerprint _ _ => sizeofUInt32 + sizeofFingerprint
  | invocation _ ignored additional outputs inputs =>
    kHashSize + sizeofUInt32 + sizeofUInt32 * ignored.length + sizeofUInt32 + sizeofUInt32 +
      kHashSize * additional.length + sizeofUInt32 * (outputs.length + inputs.length)
  | deletedDir _ => sizeofUInt32
  | deletedInvocation _ => kHashSize

def payload : Record → Bytes
  | path p => p ++ 0 :: replicate (paddingBytes (p.length + 1)) 0
  | createdDir pathId => le32 pathId
  | fingerprint pathId fp => le32 pathId ++ fp.bytes
  | invocation hash ignored additional outputs inputs =>
    hash.data ++ (le32 (UInt32.ofNat ignored.length) ++ (ignored.flatMap le32 ++
      (le32 (UInt32.ofNat additional.length) ++ (additional.flatMap Hash.data ++
        (le32 (UInt32.ofNat outputs.length) ++ (outputs.flatMap le32 ++ inputs.flatMap le32))))))
  | deletedDir pathId => le32 pathId
  | deletedInvocation hash => hash.data

/-- `writeHeader`. It ends the process if the size has type bits set, see
`entrySize_aligned`. -/
def writeHeader (size : UInt32) (type : EntryType) : Bytes := le32 (size ||| type.value)

def bytes (r : Record) : Bytes := writeHeader (UInt32.ofNat r.entrySize) r.type ++ r.payload

end Record

/-- A `ParseError` is caught by the parser's loop, `fatal` ends the process. -/
inductive ParseFailure where
  | parseError (what : String)
  | fatal (what : String)
  deriving DecidableEq

structure RawEntry where
  type : EntryType
  entry : Bytes
  deriving DecidableEq

namespace EntryHeader

def entrySize (header : UInt32) : UInt32 := header &&& ~~~kInvocationLogEntryTypeMask

def entryType (header : UInt32) : EntryType := .ofValue (header &&& kInvocationLogEntryTypeMask)

end EntryHeader

def ensureEntryLen (view : Bytes) (minSize : Nat) : Except ParseFailure Unit :=
  if view.length < minSize then
    .error (.parseError "invalid invocation log: encountered invalid entry")
  else .ok ()

def nextEntry (view : Bytes) : Except ParseFailure (RawEntry × Nat) :=
  if view.length < sizeofUInt32 then
    .error (.parseError "invalid invocation log: encountered truncated entry")
  else do
    let header := read32 view
    let entrySize := (EntryHeader.entrySize header).toNat
    ensureEntryLen view (entrySize + sizeofUInt32)
    return (⟨EntryHeader.entryType header, (view.drop sizeofUInt32).take entrySize⟩, entrySize + sizeofUInt32)

theorem Hash.ofBytes_append (hash : Hash) (rest : Bytes) : Hash.ofBytes (hash.data ++ rest) = hash := by
  obtain ⟨data, hsize⟩ := hash
  simp only [Hash.ofBytes, append_assoc, Hash.mk.injEq]
  exact take_left' hsize

@[simp] theorem Fingerprint.bytes_length (fp : Fingerprint) : fp.bytes.length = sizeofFingerprint := by
  simp only [Fingerprint.bytes, length_append, le64_length, le32_length, length_cons,
    length_replicate, fp.hash.size, kHashSize, sizeofFingerprint]

private theorem drop_bytes {n : Nat} {front : Bytes} (hfront : front.length = n) (m : Nat)
    (rest : Bytes) : (front ++ rest).drop (n + m) = rest.drop m := by
  rw [drop_append, hfront, drop_eq_nil_of_le (by omega), Nat.add_sub_cancel_left, nil_append]

theorem Fingerprint.ofBytes_bytes (fp : Fingerprint) : Fingerprint.ofBytes fp.bytes = fp := by
  obtain ⟨⟨size, ino, mode, mtime⟩, racy, hash⟩ := fp
  have h8 : (Fingerprint.bytes ⟨⟨size, ino, mode, mtime⟩, racy, hash⟩).drop 8 = _ := drop_bytes (le64_length size) 0 _
  have h16 : (Fingerprint.bytes ⟨⟨size, ino, mode, mtime⟩, racy, hash⟩).drop 16 = _ :=
    (drop_bytes (le64_length size) 8 _).trans (drop_bytes (le64_length ino) 0 _)
  have h24 : (Fingerprint.bytes ⟨⟨size, ino, mode, mtime⟩, racy, hash⟩).drop 24 = _ :=
    (drop_bytes (le64_length size) 16 _).trans ((drop_bytes (le64_length ino) 8 _).trans
      ((drop_bytes (le32_length mode) 4 _).trans (drop_bytes length_replicate 0 _)))
  have h32 : (Fingerprint.bytes ⟨⟨size, ino, mode, mtime⟩, racy, hash⟩).drop 32 = _ :=
    (drop_bytes (le64_length size) 24 _).trans ((drop_bytes (le64_length ino) 16 _).trans
      ((drop_bytes (le32_length mode) 12 _).trans ((drop_bytes length_replicate 8 _).trans
        (drop_bytes (le64_length mtime.toUInt64) 0 _))))
  have h33 : (Fingerprint.bytes ⟨⟨size, ino, mode, mtime⟩, racy, hash⟩).drop 33 = hash.data ++ replicate 3 0 := by
    rw [show 33 = 32 + 1 from rfl, ← drop_drop, h32]
    rfl
  have hracy : (Fingerprint.bytes ⟨⟨size, ino, mode, mtime⟩, racy, hash⟩).getD 32 0 =
      if racy then 1 else 0 := by
    rw [getD_eq_getElem?_getD, ← head?_drop, h32]
    rfl
  simp only [Fingerprint.ofBytes, h8, h16, h24, h33, hracy, drop_zero, Hash.ofBytes_append, read64_le64, read32_le32]
  cases racy <;> simp [Fingerprint.bytes]

namespace Record

theorem paddingBytes_aligned (pathSize : Nat) : (pathSize + paddingBytes pathSize) % 4 = 0 := by
  unfold paddingBytes
  omega

theorem entrySize_aligned (r : Record) : r.entrySize % 4 = 0 := by
  cases r with
  | path p => exact paddingBytes_aligned _
  | invocation hash ignored additional outputs inputs =>
    simp only [entrySize, kHashSize, sizeofUInt32]
    omega
  | _ => simp only [entrySize, sizeofUInt32, sizeofFingerprint, kHashSize, reduceAdd, reduceMod]

private theorem length_flatMap_const {α : Type} {f : α → Bytes} {n : Nat}
    (hf : ∀ a, (f a).length = n) (l : List α) : (l.flatMap f).length = n * l.length := by
  induction l with
  | nil => rfl
  | cons a l ih => rw [flatMap_cons, length_append, hf, ih, length_cons]; ring

theorem flatMap_le32_length (ids : List UInt32) : (ids.flatMap le32).length = sizeofUInt32 * ids.length :=
  length_flatMap_const le32_length ids

theorem flatMap_data_length (hashes : List Hash) : (hashes.flatMap Hash.data).length = kHashSize * hashes.length :=
  length_flatMap_const Hash.size hashes

theorem payload_length (r : Record) : r.payload.length = r.entrySize := by
  cases r with
  | path p =>
    simp only [payload, entrySize, length_append, length_cons, length_replicate]
    omega
  | createdDir pathId => exact le32_length pathId
  | fingerprint pathId fp =>
    simp only [payload, entrySize, length_append, le32_length, Fingerprint.bytes_length, sizeofUInt32]
  | invocation hash ignored additional outputs inputs =>
    simp only [payload, entrySize, length_append, le32_length, flatMap_le32_length,
      flatMap_data_length, hash.size, sizeofUInt32]
    omega
  | deletedDir pathId => exact le32_length pathId
  | deletedInvocation hash => exact hash.size

theorem bytes_length (r : Record) : r.bytes.length = r.entrySize + sizeofUInt32 := by
  rw [bytes, length_append, writeHeader, le32_length, payload_length, add_comm]
  rfl

end Record

section
variable {size : UInt32}

private theorem and_mask_of_aligned (h : size.toNat % 4 = 0) : size &&& kInvocationLogEntryTypeMask = 0 := by
  apply UInt32.toNat_inj.mp
  rw [UInt32.toNat_and]
  exact (and_two_pow_sub_one_eq_mod size.toNat 2).trans h

theorem EntryHeader.entrySize_or (h : size.toNat % 4 = 0) (type : EntryType) :
    EntryHeader.entrySize (size ||| type.value) = size := by
  have hsize : size &&& ~~~kInvocationLogEntryTypeMask = size := by
    have hall : size &&& (~~~kInvocationLogEntryTypeMask ||| kInvocationLogEntryTypeMask) = size := by
      rw [show ~~~kInvocationLogEntryTypeMask ||| kInvocationLogEntryTypeMask = -1 by decide]
      exact UInt32.and_neg_one
    have hsplit : size &&& (~~~kInvocationLogEntryTypeMask ||| kInvocationLogEntryTypeMask) =
        size &&& ~~~kInvocationLogEntryTypeMask ||| size &&& kInvocationLogEntryTypeMask := by
      apply UInt32.toBitVec_inj.mp
      simp only [UInt32.toBitVec_and, UInt32.toBitVec_or, BitVec.and_or_distrib_left]
    rw [hall, and_mask_of_aligned h, UInt32.or_zero] at hsplit
    exact hsplit.symm
  have htype : type.value &&& ~~~kInvocationLogEntryTypeMask = 0 := by
    cases type <;> decide
  have hor : (size ||| type.value) &&& ~~~kInvocationLogEntryTypeMask =
      size &&& ~~~kInvocationLogEntryTypeMask ||| type.value &&& ~~~kInvocationLogEntryTypeMask := by
    apply UInt32.toBitVec_inj.mp
    simp only [UInt32.toBitVec_and, UInt32.toBitVec_or, BitVec.and_or_distrib_right]
  rw [EntryHeader.entrySize, hor, hsize, htype, UInt32.or_zero]

theorem EntryHeader.entryType_or (h : size.toNat % 4 = 0) (type : EntryType) :
    EntryHeader.entryType (size ||| type.value) = type := by
  have hor : (size ||| type.value) &&& kInvocationLogEntryTypeMask =
      size &&& kInvocationLogEntryTypeMask ||| type.value &&& kInvocationLogEntryTypeMask := by
    apply UInt32.toBitVec_inj.mp
    simp only [UInt32.toBitVec_and, UInt32.toBitVec_or, BitVec.and_or_distrib_right]
  rw [EntryHeader.entryType, hor, and_mask_of_aligned h, UInt32.zero_or]
  cases type <;> decide

end

variable {view : Bytes}

theorem ensureEntryLen_ok {minSize : Nat} {u : Unit} : ensureEntryLen view minSize = .ok u ↔ minSize ≤ view.length := by
  unfold ensureEntryLen
  split
  · simp only [reduceCtorEq, false_iff]
    omega
  · simp only [true_iff]
    omega

theorem nextEntry_ok {raw : RawEntry} {n : Nat} : nextEntry view = .ok (raw, n) ↔
      sizeofUInt32 ≤ view.length ∧ n = (EntryHeader.entrySize (read32 view)).toNat + sizeofUInt32 ∧ n ≤ view.length ∧
      raw = ⟨EntryHeader.entryType (read32 view), (view.drop sizeofUInt32).take (n - sizeofUInt32)⟩ := by
  unfold nextEntry
  split
  · simp only [reduceCtorEq, false_iff]
    omega
  · simp only [Except.bind_eq_ok, ensureEntryLen_ok, Except.pure_eq_ok, Prod.mk.injEq, exists_const]
    constructor
    · rintro ⟨hlen, rfl, rfl⟩
      exact ⟨by omega, rfl, hlen, by rw [Nat.add_sub_cancel]⟩
    · rintro ⟨-, rfl, hlen, rfl⟩
      exact ⟨hlen, by rw [Nat.add_sub_cancel], rfl⟩

theorem nextEntry_failed (h : ∀ raw n, nextEntry view ≠ .ok (raw, n)) : ∃ e, nextEntry view = .error e := by
  cases hnext : nextEntry view with
  | error e => exact ⟨e, rfl⟩
  | ok found => exact absurd hnext (h found.1 found.2)

/-- Entries delimit themselves by the size in their header. -/
def logFraming : Framing UInt8 RawEntry ParseFailure where
  frame := nextEntry
  bounds h := by
    obtain ⟨-, rfl, hlen, -⟩ := nextEntry_ok.mp h
    exact ⟨by unfold sizeofUInt32; omega, hlen⟩
  isolated {view raw n} h rest := by
    obtain ⟨h4, hn, hlen, rfl⟩ := nextEntry_ok.mp h
    have hn4 : sizeofUInt32 ≤ n := by omega
    have htake : (view.take n).length = n := by rw [length_take, min_eq_left hlen]
    have hread : read32 (view.take n ++ rest) = read32 view := by
      rw [read32_append (by rw [htake]; exact hn4), read32_take hn4]
    refine nextEntry_ok.mpr ⟨?_, by rw [hread]; exact hn, ?_, ?_⟩
    · rw [length_append, htake]
      omega
    · rw [length_append, htake]
      omega
    · rw [hread, drop_append_of_le_length (by rw [htake]; exact hn4), take_append,
        drop_take, take_take, length_take, length_drop]
      simp only [min_self, RawEntry.mk.injEq, true_and]
      rw [show n - sizeofUInt32 - min (n - sizeofUInt32) (view.length - sizeofUInt32) = 0 by omega,
        take_zero, append_nil]
  torn {view raw n k} h hk := by
    obtain ⟨h4, hn, hlen, rfl⟩ := nextEntry_ok.mp h
    refine nextEntry_failed fun raw' n' h' => ?_
    obtain ⟨hk4, rfl, hlen', -⟩ := nextEntry_ok.mp h'
    rw [length_take] at hk4 hlen'
    rw [read32_take (le_trans hk4 (min_le_left _ _))] at hlen'
    omega

theorem frame_bytes (r : Record) (h : r.entrySize < 2 ^ 32) :
    logFraming.frame r.bytes = .ok (⟨r.type, r.payload⟩, r.bytes.length) := by
  have hsize : (UInt32.ofNat r.entrySize).toNat = r.entrySize := by
    rw [UInt32.toNat_ofNat', mod_eq_of_lt h]
  have haligned : (UInt32.ofNat r.entrySize).toNat % 4 = 0 := by
    rw [hsize]
    exact r.entrySize_aligned
  have hread : read32 r.bytes = UInt32.ofNat r.entrySize ||| r.type.value := read32_le32 _ _
  change nextEntry r.bytes = _
  refine nextEntry_ok.mpr ⟨?_, ?_, le_rfl, ?_⟩
  · rw [Record.bytes_length]
    exact le_add_left _ _
  · rw [hread, EntryHeader.entrySize_or haligned, hsize, Record.bytes_length]
  · rw [hread, EntryHeader.entryType_or haligned, Record.bytes_length, Nat.add_sub_cancel,
      Record.bytes, Record.writeHeader, sizeofUInt32, drop_left' (le32_length _),
      ← Record.payload_length, take_length]

/-- `Invocations::Entry` -/
structure InvocationEntry where
  outputFiles : List UInt32 := []
  inputFiles : List UInt32 := []
  ignoredDependencies : List UInt32 := []
  additionalDependencies : List Hash := []
  deriving DecidableEq

structure Invocations where
  fingerprints : List (Path × Fingerprint) := []
  entries : Finmap fun _ : Hash => InvocationEntry := ∅
  createdDirectories : Finmap fun _ : FileId => Path := ∅

namespace InvocationEntry

def uses (entry : InvocationEntry) (index : Nat) : Bool :=
  entry.outputFiles.any (·.toNat == index) || entry.inputFiles.any (·.toNat == index)

end InvocationEntry

namespace Invocations

/-- The worker threads of the source only divide the work. -/
def countUsedFingerprints (invocations : Invocations) : Nat :=
  (List.range invocations.fingerprints.length).countP fun index =>
    invocations.entries.any fun _ entry => entry.uses index

end Invocations

def fileAt (fingerprints : List (Path × Fingerprint)) (index : UInt32) : Option (Path × Fingerprint) :=
  fingerprints[index.toNat]?

end Shuriken
