import Shuriken.Log.Parse

/-!
# What each written record does to the parser

One lemma for each kind of record: a record whose sizes fit and whose
references are known is accepted, with the given effect.
-/
namespace Shuriken
open List LittleEndian RecordStream

section
variable {view rest : Bytes}

theorem advance_append {front : Bytes} {len : Nat} (h : front.length = len) (rest : Bytes) :
    advance (front ++ rest) len = .ok rest := by
  rw [advance, if_neg (by rw [length_append]; omega), drop_left' h]

theorem advance_le32 (word : UInt32) (rest : Bytes) : advance (le32 word ++ rest) sizeofUInt32 = .ok rest :=
  advance_append (le32_length word) rest

theorem readUInt32_le32 (word : UInt32) (rest : Bytes) : readUInt32 (le32 word ++ rest) = .ok word := by
  have hlen : ensureEntryLen (le32 word ++ rest) sizeofUInt32 = .ok () := by
    rw [ensureEntryLen_ok, length_append, le32_length]
    exact Nat.le_add_right _ _
  rw [readUInt32, hlen, read32_le32]
  rfl

theorem readHash_data (hash : Hash) (rest : Bytes) : readHash (hash.data ++ rest) = .ok hash := by
  have hlen : ensureEntryLen (hash.data ++ rest) kHashSize = .ok () := by
    rw [ensureEntryLen_ok, length_append, hash.size]
    exact Nat.le_add_right _ _
  rw [readHash, hlen, Hash.ofBytes_append]
  rfl

theorem wordsAt_flatMap (ids : List UInt32) (rest : Bytes) : wordsAt ids.length (ids.flatMap le32 ++ rest) = ids := by
  induction ids with
  | nil => rfl
  | cons id ids ih =>
    rw [flatMap_cons, append_assoc, length_cons, wordsAt, read32_le32, sizeofUInt32, drop_left' (le32_length id), ih]

theorem hashesAt_flatMap (hashes : List Hash) (rest : Bytes) :
    hashesAt hashes.length (hashes.flatMap Hash.data ++ rest) = hashes := by
  induction hashes with
  | nil => rfl
  | cons hash hashes ih =>
    rw [flatMap_cons, append_assoc, length_cons, hashesAt, Hash.ofBytes_append, drop_left' hash.size, ih]

/-- Indices that pass the validation, if there is one. -/
def IndicesBelow (endIndex : UInt32) (ids : List UInt32) : Prop := endIndex < kInvalidEntry → ∀ id ∈ ids, id < endIndex

theorem readIndices_flatMap {endIndex : UInt32} {ids : List UInt32} (h : IndicesBelow endIndex ids) :
    readIndices endIndex (ids.flatMap le32) = .ok ids := by
  have hwords : wordsAt ((ids.flatMap le32).length / sizeofUInt32) (ids.flatMap le32) = ids := by
    rw [Record.flatMap_le32_length, Nat.mul_div_cancel_left _ (by decide)]
    simpa using wordsAt_flatMap ids []
  rw [readIndices, hwords, if_neg]
  rintro ⟨hend, hany⟩
  obtain ⟨id, hid, hle⟩ := any_eq_true.mp hany
  exact UInt32.not_le.mpr (h hend id hid) (of_decide_eq_true hle)

theorem readHashes_flatMap (hashes : List Hash) (rest : Bytes) :
    readHashes (hashes.flatMap Hash.data ++ rest) hashes.length = .ok hashes := by
  rw [readHashes, if_neg, hashesAt_flatMap]
  rw [length_append, Record.flatMap_data_length, Nat.mul_comm]
  omega

theorem readPath_le32 {pathsById : List Path} {pathId : UInt32} {path : Path} (h : pathsById[pathId.toNat]? = some path)
    (rest : Bytes) : readPath pathsById (le32 pathId ++ rest) = .ok path := by
  rw [readPath, readUInt32_le32]
  simp only [bind, Except.bind, h]
  rfl

end

/-- A path whose end cannot be taken for the padding after it. -/
def Unpadded (path : Path) : Prop := path.getLast? ≠ some 0

variable {path : Path}

theorem unpadded_of_nul (h : 0 ∉ path) : Unpadded path := fun hlast => h (mem_of_getLast? hlast)

private theorem zeroBefore_padding {path : Path} {k : Nat} (h : path.length < k) :
    zeroBefore (Record.path path).payload k = true := by
  have hzero : ((Record.path path).payload).getD (k - 1) 0 = 0 := by
    rw [Record.payload, getD_eq_getElem?_getD, getElem?_append_right (by omega), ← replicate_succ, getElem?_replicate]
    split <;> rfl
  have hne : k ≠ 0 := by omega
  simp only [zeroBefore, hzero, hne, ne_eq, not_false_eq_true, decide_true, beq_self_eq_true, Bool.and_self]

private theorem zeroBefore_path {path : Path} (h : Unpadded path) :
    zeroBefore (Record.path path).payload path.length = false := by
  by_cases hne : path.length = 0
  · simp only [zeroBefore, hne, ne_eq, not_true_eq_false, decide_false, Bool.false_and]
  · have hlast : ((Record.path path).payload).getD (path.length - 1) 0 ≠ 0 := by
      rw [Record.payload, getD_eq_getElem?_getD, getElem?_append_left (by omega),
        getElem?_eq_getElem (by omega), Option.getD_some]
      intro hzero
      rw [Unpadded, getLast?_eq_getElem?, getElem?_eq_getElem (by omega), hzero] at h
      exact h rfl
    rw [zeroBefore, beq_eq_false_iff_ne.mpr hlast, Bool.and_false]

theorem pathSize_payload (h : Unpadded path) : pathSize (Record.path path).payload = .ok path.length := by
  have hpad : Record.paddingBytes (path.length + 1) ≤ 3 := by
    unfold Record.paddingBytes
    omega
  have hlen := Record.payload_length (.path path)
  rw [Record.entrySize] at hlen
  generalize Record.paddingBytes (path.length + 1) = pad at hpad hlen
  have hend : zeroBefore (Record.path path).payload (path.length + 1 + pad) = true := zeroBefore_padding (by omega)
  unfold pathSize
  rw [hlen, hend]
  have hcases : pad = 0 ∨ pad = 1 ∨ pad = 2 ∨ pad = 3 := by omega
  rcases hcases with rfl | rfl | rfl | rfl <;> simp [zeroBefore_padding, zeroBefore_path h]

namespace Parsing
variable (order : EvalOrder) (lstat : Path → Stat) (st : Parsing)

def addPath (path : Path) : Parsing := { st with
    pathIds := Finmap.insert path (UInt32.ofNat st.pathsById.length) st.pathIds
    pathsById := st.pathsById ++ [path] }

def addFingerprint (path : Path) (fp : Fingerprint) : Parsing := { st with
    fingerprintIds := Finmap.insert path
      ⟨UInt32.ofNat st.invocations.fingerprints.length, fp⟩ st.fingerprintIds
    invocations.fingerprints := st.invocations.fingerprints ++ [(path, fp)] }

def deleteEntry (hash : Hash) : Parsing := { st with invocations.entries := .erase hash st.invocations.entries }

def parseRecord (r : Record) : Except (ParseFailure × Parsing) Parsing := st.parseEntry order lstat ⟨r.type, r.payload⟩

variable {path : Path} {pathId : UInt32} {hash : Hash} {ignored : List UInt32} {additional : List Hash}

theorem parseRecord_path (h : Unpadded path) :
    st.parseRecord order lstat (.path path) = .ok (st.addPath path).counted := by
  simp only [parseRecord, parseEntry, dispatch, Record.type, parsePath, pathSize_payload h]
  rw [Record.payload]
  simp only [bind, Except.bind, pure, Except.pure, Except.mapError, take_left']
  rfl

variable {st}

theorem parseRecord_createdDir (h : st.pathsById[pathId.toNat]? = some path) :
    st.parseRecord order lstat (.createdDir pathId) = .ok (st.createdDirectory lstat path).counted := by
  have hread := readPath_le32 h []
  rw [append_nil] at hread
  have hlen : (le32 pathId).length = sizeofUInt32 := le32_length pathId
  simp only [parseRecord, parseEntry, dispatch, Record.type, Record.payload, hlen, if_true, parseCreatedDir, hread]
  rfl

theorem parseRecord_fingerprint (fp : Fingerprint) (h : st.pathsById[pathId.toNat]? = some path) :
    st.parseRecord order lstat (.fingerprint pathId fp) = .ok (st.addFingerprint path fp).counted := by
  have hlen := Record.payload_length (.fingerprint pathId fp)
  rw [Record.entrySize] at hlen
  have hne : sizeofUInt32 + sizeofFingerprint ≠ sizeofUInt32 := by decide
  simp only [parseRecord, parseEntry, dispatch, Record.type, hlen, hne, if_true, if_false, parseFingerprint]
  simp only [Record.payload, readPath_le32 h, advance_le32, bind, Except.bind, pure, Except.pure,
    Except.mapError, Fingerprint.ofBytes_bytes]
  rfl

theorem parseRecord_deletedDir (h : st.pathsById[pathId.toNat]? = some path) :
    st.parseRecord order lstat (.deletedDir pathId) = .ok (st.deletedDirectory lstat path).counted := by
  have hread := readPath_le32 h []
  rw [append_nil] at hread
  have hlen : (le32 pathId).length = sizeofUInt32 := le32_length pathId
  simp only [parseRecord, parseEntry, dispatch, Record.type, Record.payload, hlen, if_true, parseDeleted, hread]
  rfl

theorem parseRecord_deletedInvocation (hash : Hash) :
    st.parseRecord order lstat (.deletedInvocation hash) = .ok (st.deleteEntry hash).counted := by
  have hread := readHash_data hash []
  rw [append_nil] at hread
  have hne : kHashSize ≠ sizeofUInt32 := by decide
  simp only [parseRecord, parseEntry, dispatch, Record.type, Record.payload, parseDeleted, hash.size, hne,
    if_true, if_false, hread]
  rfl

theorem readInvocationParts_payload {outputs inputs : List UInt32} (hignored : ignored.length < 2 ^ 32)
    (hadditional : additional.length < 2 ^ 32) (houtputs : outputs.length < 2 ^ 32) :
    readInvocationParts (Record.invocation hash ignored additional outputs inputs).payload =
      .ok ⟨hash, ignored, additional, sizeofUInt32 * outputs.length, outputs.flatMap le32 ++ inputs.flatMap le32, by
          rw [length_append, Record.flatMap_le32_length]
          omega⟩ := by
  have htoNat : ∀ {n : Nat}, n < 2 ^ 32 → (UInt32.ofNat n).toNat = n := by
    intro n h
    rw [UInt32.toNat_ofNat', Nat.mod_eq_of_lt h]
  have hnone : IndicesBelow kInvalidEntry ignored := fun h => absurd h (by decide)
  have hsize : ∀ ids : List UInt32, ids.length * sizeofUInt32 = (ids.flatMap le32).length := by
    intro ids
    rw [Record.flatMap_le32_length, Nat.mul_comm]
  have hsizes : additional.length * kHashSize = (additional.flatMap Hash.data).length := by
    rw [Record.flatMap_data_length, Nat.mul_comm]
  unfold readInvocationParts
  rw [Record.payload]
  simp only [readHash_data, advance_append hash.size, readUInt32_le32, advance_le32, bind,
    Except.bind, pure, Except.pure, htoNat hignored]
  rw [if_neg (by rw [length_append, Record.flatMap_le32_length]; omega)]
  simp only [take_left' (Record.flatMap_le32_length ignored), readIndices_flatMap hnone,
    advance_append (hsize ignored).symm, readUInt32_le32, advance_le32, htoNat hadditional,
    readHashes_flatMap, advance_append hsizes.symm, htoNat houtputs]
  rw [dif_neg (by rw [length_append, Record.flatMap_le32_length]; omega)]

theorem parseRecord_invocation {outputs inputs : List UInt32} (hignored : ignored.length < 2 ^ 32)
    (hadditional : additional.length < 2 ^ 32) (houtputs : outputs.length < 2 ^ 32)
    (hbelow : IndicesBelow (UInt32.ofNat st.invocations.fingerprints.length) (outputs ++ inputs)) :
    st.parseRecord order lstat (.invocation hash ignored additional outputs inputs) =
      .ok (st.setEntry hash ⟨outputs, inputs, ignored, additional⟩).counted := by
  have hout : IndicesBelow (UInt32.ofNat st.invocations.fingerprints.length) outputs :=
    fun h id hid => hbelow h id (mem_append_left _ hid)
  have hin : IndicesBelow (UInt32.ofNat st.invocations.fingerprints.length) inputs :=
    fun h id hid => hbelow h id (mem_append_right _ hid)
  simp only [parseRecord, parseEntry, dispatch, Record.type, parseInvocation,
    readInvocationParts_payload hignored hadditional houtputs, InvocationParts.read,
    take_left' (Record.flatMap_le32_length outputs), readIndices_flatMap hout,
    advance_append (Record.flatMap_le32_length outputs), readIndices_flatMap hin, bind, Except.bind,
    pure, Except.pure, Except.mapError]
  split <;> simp only [counted, setEntry, touchEntry, Finmap.insert_emplace]

end Parsing
end Shuriken
