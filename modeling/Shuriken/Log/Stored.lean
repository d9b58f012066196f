import Shuriken.Log.AllOrNothing

/-!
# What was read can be written

Whatever the bytes of a log are, the paths and entries that are read from it
fit into records again: an entry is no larger than its header says.
-/
namespace Shuriken
open Option Except LittleEndian RecordStream List Finmap

def InvocationEntry.recordSize (entry : InvocationEntry) : Nat :=
  (Record.invocation .zero entry.ignoredDependencies entry.additionalDependencies entry.outputFiles
    entry.inputFiles).entrySize

/-- Everything fits into records, and no more paths occur than there are ids. -/
structure Invocations.Storable (invocations : Invocations) (paths : List Path) : Prop where
  count : paths.length ≤ 2 ^ 32
  fits : ∀ path ∈ paths, Unpadded path ∧ (Record.path path).entrySize < 2 ^ 32
  fingerprints : ∀ file ∈ invocations.fingerprints, file.1 ∈ paths
  directories : ∀ id path, invocations.createdDirectories.lookup id = some path → path ∈ paths
  entries : ∀ hash entry, invocations.entries.lookup hash = some entry → entry.recordSize < 2 ^ 32

section
variable {view : Bytes}

theorem entrySize_aligned (header : UInt32) : (EntryHeader.entrySize header).toNat % 4 = 0 := by
  rw [EntryHeader.entrySize, UInt32.toNat_and, show 4 = 2 ^ 2 from rfl, Nat.and_mod_two_pow,
    show (~~~kInvocationLogEntryTypeMask).toNat % 2 ^ 2 = 0 by decide, Nat.and_zero]

theorem length_of_nextEntry {raw : RawEntry} {n : Nat} (h : nextEntry view = .ok (raw, n)) :
    raw.entry.length % 4 = 0 ∧ raw.entry.length < 2 ^ 32 := by
  obtain ⟨-, rfl, hlen, rfl⟩ := nextEntry_ok.mp h
  have hlength : ((view.drop sizeofUInt32).take
      ((EntryHeader.entrySize (read32 view)).toNat + sizeofUInt32 - sizeofUInt32)).length =
      (EntryHeader.entrySize (read32 view)).toNat := by
    rw [length_take, length_drop]
    omega
  rw [hlength]
  exact ⟨entrySize_aligned _, UInt32.toNat_lt _⟩

theorem advance_eq_ok {len : Nat} {rest : Bytes} (h : advance view len = .ok rest) :
    view.length = len + rest.length := by
  unfold advance at h
  split at h
  · nomatch h
  · cases h
    rw [length_drop]
    omega

variable {size : Nat} {parts : InvocationParts} {count : UInt32} {entry : InvocationEntry}

theorem ne_zero_of_zeroBefore (h : zeroBefore view size = true) : size ≠ 0 := by
  rintro rfl
  nomatch h

theorem pathSize_eq_ok (h : pathSize view = .ok size) : size < view.length ∧ zeroBefore view size = false := by
  unfold pathSize at h
  split at h
  · nomatch h
  · next hlength =>
    have hne := ne_zero_of_zeroBefore (not_not.mp hlength)
    simp only at h
    split at h
    · next hlast =>
      cases h
      exact ⟨by omega, Bool.eq_false_iff.mpr hlast⟩
    · split at h
      · next hlast =>
        cases h
        exact ⟨by omega, Bool.eq_false_iff.mpr hlast⟩
      · split at h
        · next hlast =>
          cases h
          exact ⟨by omega, Bool.eq_false_iff.mpr hlast⟩
        · split at h
          · next hlast =>
            cases h
            exact ⟨by omega, Bool.eq_false_iff.mpr hlast⟩
          · nomatch h

theorem unpadded_take (hsize : size < view.length) (h : zeroBefore view size = false) : Unpadded (view.take size) := by
  intro hlast
  rw [getLast?_eq_getElem?, length_take, Nat.min_eq_left hsize.le] at hlast
  cases size with
  | zero => nomatch hlast
  | succ k =>
    rw [Nat.add_sub_cancel, getElem?_take_of_lt (Nat.lt_succ_self k)] at hlast
    simp [zeroBefore, getD_eq_getElem?_getD, hlast] at h

theorem path_entrySize_le {path : Path} (hpath : path.length < size) (haligned : size % 4 = 0) :
    (Record.path path).entrySize ≤ size := by
  rw [Record.entrySize, Record.paddingBytes]
  omega

theorem readInvocationParts_size (h : readInvocationParts view = .ok parts) :
    view.length = kHashSize + sizeofUInt32 + sizeofUInt32 * parts.ignoredDependencies.length + sizeofUInt32 +
      sizeofUInt32 + kHashSize * parts.additionalDependencies.length + parts.refs.length := by
  unfold readInvocationParts at h
  obtain ⟨hash, -, h⟩ := bind_eq_ok.mp h
  obtain ⟨view₁, hview₁, h⟩ := bind_eq_ok.mp h
  obtain ⟨numIgnored, -, h⟩ := bind_eq_ok.mp h
  obtain ⟨view₂, hview₂, h⟩ := bind_eq_ok.mp h
  simp only at h
  split at h
  · cases h
  · obtain ⟨ignored, -, h⟩ := bind_eq_ok.mp h
    obtain ⟨view₃, hview₃, h⟩ := bind_eq_ok.mp h
    obtain ⟨numAdditional, -, h⟩ := bind_eq_ok.mp h
    obtain ⟨view₄, hview₄, h⟩ := bind_eq_ok.mp h
    obtain ⟨additional, -, h⟩ := bind_eq_ok.mp h
    obtain ⟨view₅, hview₅, h⟩ := bind_eq_ok.mp h
    obtain ⟨outputs, -, h⟩ := bind_eq_ok.mp h
    obtain ⟨view₆, hview₆, h⟩ := bind_eq_ok.mp h
    split at h
    · cases h
    · obtain rfl := pure_eq_ok.mp h
      have := advance_eq_ok hview₁
      have := advance_eq_ok hview₂
      have := advance_eq_ok hview₃
      have := advance_eq_ok hview₄
      have := advance_eq_ok hview₅
      have := advance_eq_ok hview₆
      simp only [kHashSize, sizeofUInt32] at *
      omega

theorem InvocationParts.read_size (h : parts.read count = .ok entry) :
    sizeofUInt32 * (entry.outputFiles.length + entry.inputFiles.length) ≤ parts.refs.length ∧
      entry.ignoredDependencies = parts.ignoredDependencies ∧
      entry.additionalDependencies = parts.additionalDependencies := by
  obtain ⟨outputs, houtputs, h⟩ := bind_eq_ok.mp h
  obtain ⟨refs, hrefs, h⟩ := bind_eq_ok.mp h
  obtain ⟨inputs, hinputs, h⟩ := bind_eq_ok.mp h
  obtain rfl := pure_eq_ok.mp h
  have houtputsLength := (readIndices_ok houtputs).1
  have hinputsLength := (readIndices_ok hinputs).1
  have hlength := advance_eq_ok hrefs
  rw [length_take, Nat.min_eq_left parts.outputs_fit] at houtputsLength
  refine ⟨?_, rfl, rfl⟩
  simp only [sizeofUInt32] at *
  omega

theorem recordSize_le (hparts : readInvocationParts view = .ok parts) (hentry : parts.read count = .ok entry) :
    entry.recordSize ≤ view.length := by
  obtain ⟨hrefs, hignored, hadditional⟩ := InvocationParts.read_size hentry
  rw [InvocationEntry.recordSize, Record.entrySize, hignored, hadditional, readInvocationParts_size hparts]
  omega

end

namespace Parsing
variable {order : EvalOrder} {lstat : Path → Stat} {st st' : Parsing}

def reachablePaths (st : Parsing) : List Path := st.pathsById.take (2 ^ 32)

structure Storable (st : Parsing) : Prop where
  fits : ∀ path ∈ st.pathsById, Unpadded path ∧ (Record.path path).entrySize < 2 ^ 32
  fingerprints : ∀ file ∈ st.invocations.fingerprints, file.1 ∈ st.reachablePaths
  directories : ∀ id path, st.invocations.createdDirectories.lookup id = some path → path ∈ st.reachablePaths
  entries : ∀ hash entry, st.invocations.entries.lookup hash = some entry → entry.recordSize < 2 ^ 32

theorem Storable.invocations (h : st.Storable) : st.invocations.Storable st.reachablePaths :=
  ⟨length_take_le _ _, fun path hpath => h.fits path (mem_of_mem_take hpath), h.fingerprints,
    h.directories, h.entries⟩

variable {path : Path}

theorem mem_reachablePaths_of_readPath {view : Bytes} (h : readPath st.pathsById view = .ok path) :
    path ∈ st.reachablePaths := by
  obtain ⟨pathId, -, h⟩ := bind_eq_ok.mp h
  split at h
  · next found hfound =>
    obtain rfl := pure_eq_ok.mp h
    refine mem_of_getElem? (i := pathId.toNat) ?_
    rw [reachablePaths, getElem?_take_of_lt pathId.toNat_lt, hfound]
  · nomatch h

theorem mem_reachablePaths_addPath (h : path ∈ st.reachablePaths) (path' : Path) :
    path ∈ (st.addPath path').reachablePaths := by
  rw [reachablePaths, addPath, take_append]
  exact mem_append_left _ h

section
variable (h : st.Storable)
include h

theorem Storable.addPath (hpath : Unpadded path ∧ (Record.path path).entrySize < 2 ^ 32) :
    (st.addPath path).Storable where
  fits := forall_mem_append.mpr ⟨h.fits, forall_mem_singleton.mpr hpath⟩
  fingerprints file hfile := mem_reachablePaths_addPath (h.fingerprints file hfile) path
  directories id p hp := mem_reachablePaths_addPath (h.directories id p hp) path
  entries := h.entries

theorem Storable.createdDirectory (hpath : path ∈ st.reachablePaths) : (st.createdDirectory lstat path).Storable := by
  unfold Parsing.createdDirectory
  split
  · refine ⟨h.fits, h.fingerprints, fun id p hp => ?_, h.entries⟩
    rcases lookup_of_emplace hp with ⟨-, rfl⟩ | hp
    · exact hpath
    · exact h.directories id p hp
  · exact h

theorem Storable.deletedDirectory (path : Path) : (st.deletedDirectory lstat path).Storable := by
  unfold Parsing.deletedDirectory
  split
  · exact ⟨h.fits, h.fingerprints, fun id p hp => h.directories id p (lookup_of_erase hp).2, h.entries⟩
  · exact h

theorem Storable.setEntry (hash : Hash) {entry : InvocationEntry}
    (hentry : entry.recordSize < 2 ^ 32) : (st.setEntry hash entry).Storable := by
  refine ⟨h.fits, h.fingerprints, h.directories, fun hash' entry' hentry' => ?_⟩
  rcases lookup_of_insert hentry' with ⟨-, rfl⟩ | hentry'
  · exact hentry
  · exact h.entries hash' entry' hentry'

theorem Storable.deleteEntry (hash : Hash) : (st.deleteEntry hash).Storable :=
  ⟨h.fits, h.fingerprints, h.directories,
    fun hash' entry' hentry' => h.entries hash' entry' (lookup_of_erase hentry').2⟩

theorem Storable.touchEntry (hash : Hash) : (st.touchEntry hash).Storable := by
  refine ⟨h.fits, h.fingerprints, h.directories, fun hash' entry' hentry' => ?_⟩
  rcases lookup_of_emplace hentry' with ⟨-, rfl⟩ | hentry'
  · decide
  · exact h.entries hash' entry' hentry'

theorem Storable.dispatch {raw : RawEntry} (hraw : raw.entry.length % 4 = 0 ∧ raw.entry.length < 2 ^ 32)
    (hdispatch : st.dispatch order lstat raw = .ok st') : st'.Storable := by
  unfold Parsing.dispatch at hdispatch
  split at hdispatch
  · obtain ⟨size, hsize, hnext⟩ := bind_eq_ok.mp (mapError_eq_ok.mp hdispatch)
    obtain rfl := pure_eq_ok.mp hnext
    obtain ⟨hlt, hzero⟩ := pathSize_eq_ok hsize
    have hpath : (raw.entry.take size).length < raw.entry.length := by
      rw [length_take]
      omega
    exact h.addPath ⟨unpadded_take hlt hzero, (path_entrySize_le hpath hraw.1).trans_lt hraw.2⟩
  · split at hdispatch
    · obtain ⟨path, hpath, hnext⟩ := bind_eq_ok.mp (mapError_eq_ok.mp hdispatch)
      obtain rfl := pure_eq_ok.mp hnext
      exact h.createdDirectory (mem_reachablePaths_of_readPath hpath)
    · split at hdispatch
      · obtain ⟨path, hpath, hnext⟩ := bind_eq_ok.mp (mapError_eq_ok.mp hdispatch)
        obtain ⟨view, -, hnext⟩ := bind_eq_ok.mp hnext
        obtain rfl := pure_eq_ok.mp hnext
        have hmem := mem_reachablePaths_of_readPath hpath
        exact ⟨h.fits, forall_mem_append.mpr ⟨h.fingerprints, forall_mem_singleton.mpr hmem⟩, h.directories, h.entries⟩
      · nomatch hdispatch
  · obtain ⟨parts, value, hparts, hvalue, rfl⟩ := parseInvocation_ok.mp hdispatch
    exact h.setEntry parts.hash ((recordSize_le hparts hvalue).trans_lt hraw.2)
  · have hnext := mapError_eq_ok.mp hdispatch
    unfold parseDeleted at hnext
    split at hnext
    · obtain ⟨path, -, hnext⟩ := bind_eq_ok.mp hnext
      obtain rfl := pure_eq_ok.mp hnext
      exact h.deletedDirectory path
    · split at hnext
      · obtain ⟨hash, -, hnext⟩ := bind_eq_ok.mp hnext
        obtain rfl := pure_eq_ok.mp hnext
        exact h.deleteEntry hash
      · nomatch hnext

theorem Storable.reads {bytes : Bytes}
    (hreads : Reads logFraming (parseEntry order lstat) st bytes st') : st'.Storable := by
  induction hreads with
  | nil => exact h
  | cons hframe hact _ ih =>
    obtain ⟨next, hnext, hcounted⟩ := bind_eq_ok.mp hact
    obtain rfl := pure_eq_ok.mp hcounted
    obtain ⟨hfits, hfingerprints, hdirectories, hentries⟩ := h.dispatch (length_of_nextEntry hframe) hnext
    exact ih ⟨hfits, hfingerprints, hdirectories, hentries⟩

end

end Parsing

theorem parseEntries_storable (order : EvalOrder) (lstat : Path → Stat) (view : Bytes) :
    (parseEntries order lstat view).state.Storable := by
  have hempty : Parsing.Storable {} := ⟨nofun, nofun, nofun, nofun⟩
  obtain ⟨consumed, -, hreads, -⟩ := parseEntries_valueFirst lstat view
  have hvalue := hempty.reads hreads
  by_cases hrefs : order = .slotFirst ∧ ∃ hash, StopsAtRefs lstat view hash
  · obtain ⟨rfl, hash, hstops⟩ := hrefs
    obtain ⟨what, -, hslot⟩ := parseEntries_of_stopsAtRefs hstops
    rw [hslot]
    exact hvalue.touchEntry hash
  · rw [parseEntries_order order fun horder hash hstops => hrefs ⟨horder, hash, hstops⟩]
    exact hvalue

theorem parse_storable {order : EvalOrder} {lstat : Path → Stat} {file left : Option Bytes}
    {result : InvocationLogParseResult} (h : parsePersistentInvocationLog order lstat file = .ok (result, left)) :
    ∃ paths, result.invocations.Storable paths := by
  have hempty : Invocations.Storable {} [] := ⟨Nat.zero_le _, nofun, nofun, nofun, nofun⟩
  unfold parsePersistentInvocationLog at h
  split at h
  · cases h
    exact ⟨[], hempty⟩
  · split at h
    · cases h
      exact ⟨[], hempty⟩
    · next view _ =>
      have hstate := (parseEntries_storable order lstat view).invocations
      simp only at h
      split at h
      · nomatch h
      · cases h
        exact ⟨_, hstate⟩
      · cases h
        exact ⟨_, hstate⟩

end Shuriken
