import Shuriken.Log.Agreement
import Shuriken.Log.Stored
import Shuriken.Log.Tally

/-!
# Recompaction

`recompactPersistentInvocationLog` writes a new log with what is known. The
entries come in the order of a hash map, and all ids are new.
-/
namespace Shuriken
open Except Function List RecordStream

def InvocationEntry.relogged (fingerprints : List (Path × Fingerprint)) (hash : Hash) (entry : InvocationEntry) :
    RanCommand where
  buildStepHash := hash
  outputFiles := entry.outputFiles.filterMap (fileAt fingerprints)
  inputFiles := entry.inputFiles.filterMap (fileAt fingerprints)
  ignoredDependencies := entry.ignoredDependencies
  additionalDependencies := entry.additionalDependencies

def PersistentInvocationLog.relogCommand (log : PersistentInvocationLog) (buildStepHash : Hash)
    (fingerprints : List (Path × Fingerprint)) (entry : InvocationEntry) : PersistentInvocationLog :=
  log.call (.ranCommand (entry.relogged fingerprints buildStepHash))

/-- The entries of the two hash maps in the order in which they are iterated over. -/
structure IterationOrder (invocations : Invocations) where
  directories : AList fun _ : FileId => Path
  entries : AList fun _ : Hash => InvocationEntry
  directories_eq : directories.toFinmap = invocations.createdDirectories
  entries_eq : entries.toFinmap = invocations.entries

def recompactedLog (invocations : Invocations) (iteration : IterationOrder invocations) : PersistentInvocationLog :=
  let log := iteration.directories.entries.foldl (fun log dir => log.createdDirectory dir.2) emptyLog
  iteration.entries.entries.foldl
    (fun log entry => log.relogCommand entry.1 invocations.fingerprints entry.2) log

/-- The file that takes the place of the log, and what is returned. -/
def recompactPersistentInvocationLog (invocations : Invocations) (iteration : IterationOrder invocations) :
    Bytes × ParseData :=
  ((recompactedLog invocations iteration).stream, (recompactedLog invocations iteration).parseData)

section
variable {invocations : Invocations} {iteration : IterationOrder invocations}

def recompactionCalls (invocations : Invocations) (iteration : IterationOrder invocations) : List LogCall :=
  iteration.directories.entries.map (fun dir => .createdDirectory dir.2) ++
    iteration.entries.entries.map fun entry => .ranCommand (entry.2.relogged invocations.fingerprints entry.1)

theorem recompactedLog_eq :
    recompactedLog invocations iteration = emptyLog.calls (recompactionCalls invocations iteration) := by
  rw [PersistentInvocationLog.calls, recompactionCalls, foldl_append, foldl_map, foldl_map]
  rfl

theorem lookup_directories (id : FileId) :
    iteration.directories.lookup id = invocations.createdDirectories.lookup id := by
  rw [← iteration.directories_eq, Finmap.lookup_toFinmap]

theorem lookup_entries (hash : Hash) : iteration.entries.lookup hash = invocations.entries.lookup hash := by
  rw [← iteration.entries_eq, Finmap.lookup_toFinmap]

theorem mem_recompactionCalls {c : LogCall} (h : c ∈ recompactionCalls invocations iteration) :
    (∃ id path, invocations.createdDirectories.lookup id = some path ∧ c = .createdDirectory path) ∨
      ∃ hash entry, invocations.entries.lookup hash = some entry ∧
        c = .ranCommand (entry.relogged invocations.fingerprints hash) := by
  rcases mem_append.mp h with h | h
  · obtain ⟨⟨id, path⟩, hmem, rfl⟩ := mem_map.mp h
    exact .inl ⟨id, path, (lookup_directories id).symm.trans (AList.mem_lookup_iff.mpr hmem), rfl⟩
  · obtain ⟨⟨hash, entry⟩, hmem, rfl⟩ := mem_map.mp h
    exact .inr ⟨hash, entry, (lookup_entries hash).symm.trans (AList.mem_lookup_iff.mpr hmem), rfl⟩

theorem commandHash_recompactionCalls :
    (recompactionCalls invocations iteration).filterMap LogCall.commandHash = iteration.entries.keys := by
  rw [recompactionCalls, filterMap_append, filterMap_map, filterMap_map]
  have hnone : LogCall.commandHash ∘ (fun dir : Sigma fun _ : FileId => Path => .createdDirectory dir.2) =
      fun _ => none := rfl
  rw [hnone, filterMap_none, nil_append]
  exact congrFun filterMap_eq_map iteration.entries.entries

variable {lstat : Path → Stat}

theorem LogView.applyAll_directories (v : LogView) {dirs : List (Sigma fun _ : FileId => Path)}
    (hdirs : ∀ dir ∈ dirs, (lstat dir.2).result = 0 ∧ FileId.ofStat (lstat dir.2) = dir.1) :
    let v' := v.applyAll lstat (dirs.map fun dir => .createdDirectory dir.2)
    v'.commands = v.commands ∧ ∀ id, v'.directories id = (v.directories id).or (dirs.dlookup id) := by
  induction dirs generalizing v with
  | nil => exact ⟨rfl, fun _ => Option.or_none.symm⟩
  | cons dir dirs ih =>
    obtain ⟨dirId, path⟩ := dir
    obtain ⟨⟨hresult, hid⟩, hrest⟩ := forall_mem_cons.mp hdirs
    obtain rfl : FileId.ofStat (lstat path) = dirId := hid
    obtain ⟨hcommands, hdirectories⟩ := ih (v.apply lstat (.createdDirectory path)) hrest
    refine ⟨hcommands.trans ?_, fun id => (hdirectories id).trans ?_⟩
    · rw [apply, addDirectory_commands, addPath_commands]
    · rw [apply, addDirectory_directories lstat path _ hresult, addPath_directories]
      by_cases heq : id = FileId.ofStat (lstat path)
      · subst heq
        rw [update_self, dlookup_cons_eq]
        cases v.directories (FileId.ofStat (lstat path)) <;> rfl
      · rw [update_of_ne heq, dlookup_cons_ne _ _ heq]

theorem LogView.addFiles_directories (v : LogView) (type : WriteType) {files : List (Path × Fingerprint)}
    (hfiles : ∀ file ∈ files, file.2.stat.isDir = false) :
    (v.addFiles lstat type files).directories = v.directories := by
  induction files generalizing v with
  | nil => rfl
  | cons file files ih =>
    obtain ⟨hfile, hfiles⟩ := forall_mem_cons.mp hfiles
    refine (ih (v.addFile lstat type file) hfiles).trans ?_
    have hnot : ¬ (file.2.stat.isDir = true ∧ type = .directoryAsDirectoryEntry) :=
      fun h => Bool.false_ne_true (hfile.symm.trans h.1)
    rw [addFile, if_neg hnot, addPath_directories]

theorem LogView.applyAll_entries (v : LogView) {fingerprints : List (Path × Fingerprint)}
    {entries : List (Sigma fun _ : Hash => InvocationEntry)} (hnodup : entries.NodupKeys)
    (hplain : ∀ entry ∈ entries, (LogCall.ranCommand (entry.2.relogged fingerprints entry.1)).Plain) :
    let v' := v.applyAll lstat (entries.map fun entry => .ranCommand (entry.2.relogged fingerprints entry.1))
    v'.directories = v.directories ∧ ∀ hash, v'.commands hash =
      ((entries.dlookup hash).map fun entry => (entry.relogged fingerprints hash).logged).or (v.commands hash) := by
  induction entries generalizing v with
  | nil => exact ⟨rfl, fun _ => rfl⟩
  | cons entry entries ih =>
    obtain ⟨hash₀, entry⟩ := entry
    obtain ⟨hentry, hplain⟩ := forall_mem_cons.mp hplain
    obtain ⟨hnot, hnodup⟩ := nodupKeys_cons.mp hnodup
    obtain ⟨houtputs, hinputs⟩ := forall_mem_append.mp hentry
    obtain ⟨hdirectories, hcommands⟩ :=
      ih (v.apply lstat (.ranCommand (entry.relogged fingerprints hash₀))) hnodup hplain
    refine ⟨hdirectories.trans ?_, fun hash => (hcommands hash).trans ?_⟩
    · rw [apply, setCommand_directories, addFiles_directories _ _ hinputs, addFiles_directories _ _ houtputs]
    · rw [apply, setCommand_commands, addFiles_commands, addFiles_commands]
      by_cases heq : hash = hash₀
      · subst heq
        rw [dlookup_cons_eq, dlookup_eq_none.mpr hnot]
        exact (update_self ..).trans rfl
      · rw [dlookup_cons_ne _ _ heq]
        congr 1
        exact update_of_ne heq ..

end

section
variable {order : EvalOrder} {lstat : Path → Stat} {st st' : Parsing}

theorem readIndices_flatMap_ok {endIndex : UInt32} {ids ids' : List UInt32}
    (h : readIndices endIndex (ids.flatMap LittleEndian.le32) = .ok ids') : ids' = ids := by
  have hwords : wordsAt ((ids.flatMap LittleEndian.le32).length / sizeofUInt32)
      (ids.flatMap LittleEndian.le32) = ids := by
    rw [Record.flatMap_le32_length, Nat.mul_div_cancel_left _ (by decide)]
    simpa using wordsAt_flatMap ids []
  unfold readIndices at h
  simp only [hwords] at h
  split at h
  · nomatch h
  · exact (ok.inj h).symm

namespace Parsing

variable {r : Record}

theorem parseRecord_entryCount (h : st.parseRecord order lstat r = .ok st') : st'.entryCount = st.entryCount + 1 := by
  obtain ⟨next, heffect, rfl⟩ := parseEntry_ok h
  cases heffect with
  | addPath | addFingerprint | setEntry | deleteEntry => rfl
  | createdDirectory path =>
    rw [createdDirectory_eq]
    rfl
  | deletedDirectory path =>
    rw [deletedDirectory_eq]
    rfl

theorem parseRecord_entries_of_none (h : st.parseRecord order lstat r = .ok st')
    (htype : r.type = .path ∨ r.type = .createdDirOrFingerprint) :
    st'.invocations.entries = st.invocations.entries := by
  obtain ⟨next, hnext, h⟩ := bind_eq_ok.mp h
  obtain rfl := pure_eq_ok.mp h
  unfold dispatch at hnext
  rcases htype with htype | htype
  · simp only [htype] at hnext
    obtain ⟨size, -, hnext⟩ := bind_eq_ok.mp (mapError_eq_ok.mp hnext)
    obtain rfl := pure_eq_ok.mp hnext
    rfl
  · simp only [htype] at hnext
    split at hnext
    · obtain ⟨path, -, hnext⟩ := bind_eq_ok.mp (mapError_eq_ok.mp hnext)
      obtain rfl := pure_eq_ok.mp hnext
      rw [createdDirectory_eq]
      rfl
    · split at hnext
      · obtain ⟨path, -, hnext⟩ := bind_eq_ok.mp (mapError_eq_ok.mp hnext)
        obtain ⟨view, -, hnext⟩ := bind_eq_ok.mp hnext
        obtain rfl := pure_eq_ok.mp hnext
        rfl
      · nomatch hnext

theorem parseRecord_entries_of_invocation {hash : Hash} {ignored : List UInt32} {additional : List Hash}
    {outputs inputs : List UInt32}
    (hsize : (Record.invocation hash ignored additional outputs inputs).entrySize < 2 ^ 32)
    (h : st.parseRecord order lstat (.invocation hash ignored additional outputs inputs) = .ok st') :
    st'.invocations.entries = Finmap.insert hash ⟨outputs, inputs, ignored, additional⟩ st.invocations.entries := by
  simp only [Record.entrySize, sizeofUInt32, kHashSize] at hsize
  have hparts := @readInvocationParts_payload hash ignored additional outputs inputs (by omega) (by omega)
    (by omega)
  obtain ⟨next, hnext, h⟩ := bind_eq_ok.mp h
  obtain rfl := pure_eq_ok.mp h
  obtain ⟨parts, value, hread, hvalue, rfl⟩ := parseInvocation_ok.mp hnext
  cases hparts.symm.trans hread
  obtain ⟨outputs', houtputs, hvalue⟩ := bind_eq_ok.mp hvalue
  obtain ⟨refs, hrefs, hvalue⟩ := bind_eq_ok.mp hvalue
  obtain ⟨inputs', hinputs, hvalue⟩ := bind_eq_ok.mp hvalue
  obtain rfl := pure_eq_ok.mp hvalue
  rw [take_left' (Record.flatMap_le32_length outputs)] at houtputs
  rw [advance_append (Record.flatMap_le32_length outputs)] at hrefs
  cases hrefs
  rw [readIndices_flatMap_ok houtputs, readIndices_flatMap_ok hinputs]
  rfl

theorem parseRecord_entries (hsize : r.entrySize < 2 ^ 32) (htype : r.type ≠ .deleted)
    (h : st.parseRecord order lstat r = .ok st') :
    st'.invocations.entries = r.entry.toList.foldl (fun m e => Finmap.insert e.1 e.2 m) st.invocations.entries := by
  cases r with
  | invocation hash ignored additional outputs inputs => exact parseRecord_entries_of_invocation hsize h
  | path => exact parseRecord_entries_of_none h (.inl rfl)
  | createdDir | fingerprint => exact parseRecord_entries_of_none h (.inr rfl)
  | deletedDir | deletedInvocation => exact absurd rfl htype

/-- Reading to the end of some records counts all of them and sets all entries in turn. -/
theorem run_records {records : List Record} (hsizes : ∀ r ∈ records, r.entrySize < 2 ^ 32)
    (htypes : ∀ r ∈ records, r.type ≠ .deleted)
    (h : run logFraming (parseEntry order lstat) (records.flatMap Record.bytes) st = ⟨st', [], none⟩) :
    st'.entryCount = st.entryCount + records.length ∧ st'.invocations.entries =
      (records.filterMap Record.entry).foldl (fun m e => Finmap.insert e.1 e.2 m) st.invocations.entries := by
  induction records generalizing st with
  | nil =>
    obtain rfl : st = st' := congrArg Scan.state ((run_nil st).symm.trans h)
    exact ⟨rfl, rfl⟩
  | cons r records ih =>
    obtain ⟨hsize, hsizes⟩ := forall_mem_cons.mp hsizes
    obtain ⟨htype, htypes⟩ := forall_mem_cons.mp htypes
    rw [flatMap_cons] at h
    cases hact : st.parseRecord order lstat r with
    | error e =>
      have hframe := frame_append (frame_bytes r hsize) (records.flatMap Record.bytes)
      have hne : r.bytes ++ records.flatMap Record.bytes ≠ [] := by
        intro hnil
        have hlength := congrArg length hnil
        rw [length_append, Record.bytes_length, sizeofUInt32, length_nil] at hlength
        omega
      have hstop := run_of_stops (Stops.rejected hne hframe hact)
      cases congrArg Scan.error (hstop.symm.trans h)
    | ok mid =>
      rw [run_cons (frame_bytes r hsize) hact] at h
      obtain ⟨hcount, hentries⟩ := ih hsizes htypes h
      refine ⟨?_, hentries.trans ?_⟩
      · rw [hcount, parseRecord_entryCount hact, length_cons]
        omega
      · rw [parseRecord_entries hsize htype hact, ← foldl_append]
        congr 1
        cases hentry : r.entry <;> simp [hentry]

end Parsing
end
end Shuriken
