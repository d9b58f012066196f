import Shuriken.Log.Agreement

/-!
# Recovering from a log that was cut off

A process that dies while it writes leaves a log that ends in the middle of a
record. Parsing cuts the file back to its last whole record, and the log goes on
from there.
-/
namespace Shuriken
open List RecordStream

/-- The view that a state shows if its indices are in range. -/
def Parsing.view (st : Parsing) : LogView where
  known path := (st.pathIds.lookup path).isSome
  commands hash := (st.invocations.entries.lookup hash).map fun entry =>
    { outputs := entry.outputFiles.filterMap (fileAt st.invocations.fingerprints)
      inputs := entry.inputFiles.filterMap (fileAt st.invocations.fingerprints)
      ignoredDependencies := entry.ignoredDependencies
      additionalDependencies := entry.additionalDependencies }
  directories id := st.invocations.createdDirectories.lookup id

theorem map_fileAt_eq {fps : List (Path × Fingerprint)} {ids : List UInt32} (h : ∀ id ∈ ids, id.toNat < fps.length) :
    ids.map (fileAt fps) = (ids.filterMap (fileAt fps)).map some := by
  induction ids with
  | nil => rfl
  | cons id ids ih =>
    have hfile : ∃ file, fileAt fps id = some file := ⟨_, getElem?_eq_getElem (h id mem_cons_self)⟩
    obtain ⟨file, hid⟩ := hfile
    rw [map_cons, filterMap_cons_some hid, map_cons, hid, ih fun id' hid' => h id' (mem_cons_of_mem _ hid')]

theorem Parsing.Coherent.shows_view {st : Parsing} (h : st.Coherent) : st.Shows st.view where
  represents := by
    refine ⟨fun hash => ?_, fun _ => rfl⟩
    have hindex := h.index hash
    simp only [Parsing.view]
    cases hentry : st.invocations.entries.lookup hash with
    | none => exact .none
    | some entry =>
      have hlt := hindex entry hentry
      refine .some ⟨?_, ?_, rfl, rfl⟩
      · exact map_fileAt_eq fun id hid => hlt id (mem_append_left _ hid)
      · exact map_fileAt_eq fun id hid => hlt id (mem_append_right _ hid)
  known _ := rfl

section
variable (order : EvalOrder) (lstat : Path → Stat) {calls : List LogCall}

variable {front : List Record}

theorem stops_part {records : List Record} (hsizes : ∀ r ∈ records, r.entrySize < 2 ^ 32) {part : Bytes}
    (hpart : part = [] ∨ ∃ r ∈ records, ∃ j < r.bytes.length, part = r.bytes.take j) (st : Parsing) :
    ∃ error, Stops logFraming (Parsing.parseEntry order lstat) st part error st ∧
      ∀ what, error ≠ some (.fatal what) := by
  by_cases hnil : part = []
  · subst hnil
    exact ⟨none, .done, fun _ h => nomatch h⟩
  · obtain ⟨r, hr, j, hj, rfl⟩ := hpart.resolve_left hnil
    obtain ⟨e, he⟩ := logFraming.torn (frame_bytes r (hsizes r hr)) hj
    refine ⟨some e, .unframed hnil he, ?_⟩
    rintro what ⟨⟩
    exact noFatal_nextEntry what he

variable {order lstat}

/-- A log that was opened after the given records were read, and at which nothing was written
yet. The view is what the records say. -/
structure PersistentInvocationLog.Opened (order : EvalOrder) (lstat : Path → Stat)
    (log : PersistentInvocationLog) (front : List Record) (v : LogView) : Prop where
  existing : log.existing = fileHeader ++ front.flatMap Record.bytes
  written : log.written = []
  reaches : ∃ st, Reaches order lstat front {} st ∧ log.parseData = st.parseData ∧ st.Shows v

theorem opened_emptyLog (order : EvalOrder) (lstat : Path → Stat) :
    emptyLog.Opened order lstat [] LogView.empty where
  existing := rfl
  written := rfl
  reaches := ⟨{}, .nil mirrors_emptyLog.coherent, rfl, shows_empty⟩

theorem parse_continued {log : PersistentInvocationLog} {v : LogView} (hlog : log.Opened order lstat front v)
    {more : List LogCall} (hnul : ∀ c ∈ more, ∀ path ∈ c.paths, 0 ∉ path)
    (hroom : Parsing.Room {} (front ++ (log.calls more).written)) :
    ∃ result, parsePersistentInvocationLog order lstat (some (log.calls more).stream) =
        .ok (result, some (log.calls more).stream) ∧ result.warning = "" ∧
      result.invocations.Represents (v.applyAll lstat more) := by
  obtain ⟨hexisting, hwritten, st, hst, hdata, hshows⟩ := hlog
  have hcalls : Emits order lstat _ _ _ _ _ := emits_calls more (unpadded_of_calls hnul) log
  obtain ⟨rs, hrs, hexisting', hstep⟩ := hcalls
  rw [hwritten, nil_append] at hrs
  rw [hrs] at hroom
  obtain ⟨st', hadvances, -, -⟩ := hstep st ⟨hdata, hst.coherent⟩ trivial (hst.room_right hroom)
  have hreads := hst.reads.append hadvances.reads
  have hstream : (log.calls more).stream = fileHeader ++ (front.flatMap Record.bytes ++ rs.flatMap Record.bytes) := by
    rw [PersistentInvocationLog.stream, hrs, hexisting', hexisting, append_assoc]
  rw [hstream]
  exact ⟨st'.result "", parse_of_reads hreads, rfl, (hadvances.shows _ hshows).represents⟩

theorem fitting_bytes_zero (records : List Record) : fitting Record.bytes 0 records = [] := by
  have hlen : ((fitting Record.bytes 0 records).flatMap Record.bytes).length ≤ 0 := fitting_length_le 0 records
  cases hfits : fitting Record.bytes 0 records with
  | nil => rfl
  | cons r rs =>
    rw [hfits, flatMap_cons, length_append, Record.bytes_length, sizeofUInt32] at hlen
    omega

theorem parse_too_short {contents : Bytes} (h : contents.length < fileHeader.length) :
    parsePersistentInvocationLog order lstat (some contents) =
      .ok ({ warning := "invalid invocation log file signature (too short)" }, none) := by
  have hshort : contents.length < kFileSignature.length + sizeofUInt32 := h
  simp only [parsePersistentInvocationLog, parseInvocationLogSignature, hshort, if_true]

/-- After a cut at any place, parsing gives what the whole records before the cut say, leaves
just these on disk, and the log can be continued as if it had never held more. -/
theorem parse_cut (order : EvalOrder) (lstat : Path → Stat) (calls : List LogCall)
    (hnul : ∀ c ∈ calls, ∀ path ∈ c.paths, 0 ∉ path) (hroom : Parsing.Room {} (emptyLog.calls calls).written)
    (k : Nat) : let written := (emptyLog.calls calls).written
    let kept := fitting Record.bytes (k - fileHeader.length) written
    let left := if k < fileHeader.length then none
      else some (fileHeader ++ kept.flatMap Record.bytes)
    (kept <+: written ∧ ∀ front, front <+: written →
      (fileHeader ++ front.flatMap Record.bytes).length ≤ k → front <+: kept) ∧
    ∃ result whole v, parsePersistentInvocationLog order lstat (some ((emptyLog.calls calls).stream.take k)) =
        .ok (result, left) ∧
      parsePersistentInvocationLog order lstat left = .ok (whole, left) ∧ whole.warning = "" ∧
      result.invocations = whole.invocations ∧ result.parseData = whole.parseData ∧
      whole.invocations.Represents v ∧
      (∀ path, v.known path = (whole.parseData.pathIds.lookup path).isSome) ∧
      ∀ more, (∀ c ∈ more, ∀ path ∈ c.paths, 0 ∉ path) →
        let log := (openPersistentInvocationLog (left.getD []) result.parseData).calls more
        Parsing.Room {} (kept ++ log.written) →
        ∃ final, parsePersistentInvocationLog order lstat (some log.stream) =
            .ok (final, some log.stream) ∧ final.warning = "" ∧
          final.invocations.Represents (v.applyAll lstat more) := by
  intro written kept left
  have hheader : fileHeader.length = 16 := by decide
  refine ⟨⟨fitting_leading _ _, fun front hfront hlen => fitting_maximal hfront ?_⟩, ?_⟩
  · rw [length_append] at hlen
    omega
  by_cases hk : k < fileHeader.length
  · have hkept : kept = [] := by
      rw [show kept = fitting Record.bytes (k - fileHeader.length) written from rfl,
        Nat.sub_eq_zero_of_le hk.le, fitting_bytes_zero]
    have hleft : left = none := if_pos hk
    rw [hleft]
    refine ⟨_, {}, ({} : Parsing).view, parse_too_short ?_, rfl, rfl, rfl, rfl,
      mirrors_emptyLog.coherent.shows_view.represents, fun _ => rfl, ?_⟩
    · rw [length_take]
      omega
    · intro more hmore log hroom'
      rw [hkept] at hroom'
      exact parse_continued ⟨rfl, rfl, {}, .nil mirrors_emptyLog.coherent, rfl,
        mirrors_emptyLog.coherent.shows_view⟩ hmore hroom'
  · have hleft : left = some (fileHeader ++ kept.flatMap Record.bytes) := if_neg hk
    obtain ⟨_, hadvances, -⟩ := advances_calls order lstat (unpadded_of_calls hnul) hroom
    obtain ⟨st, hst⟩ := hadvances.stages kept (fitting_leading _ _)
    have hcutoff : ∃ part, (written.flatMap Record.bytes).take (k - fileHeader.length) =
        kept.flatMap Record.bytes ++ part ∧ _ := take_flatMap_encode _ written
    obtain ⟨part, htake, hpart⟩ := hcutoff
    obtain ⟨error, hstops, hfatal⟩ := stops_part order lstat hroom.sizes hpart st
    have hcut : (emptyLog.calls calls).stream.take k = fileHeader ++ (kept.flatMap Record.bytes ++ part) := by
      rw [stream_calls (unpadded_of_calls hnul), take_append, take_of_length_le (by omega), htake]
    have hloop : parseEntries order lstat (kept.flatMap Record.bytes ++ part) = ⟨st, part, error⟩ :=
      (hst.reads.run_append part).trans (run_of_stops hstops)
    rw [hleft, hcut]
    refine ⟨_, _, st.view, parse_of_loop hloop rfl hfatal, parse_of_reads hst.reads, rfl, rfl, rfl,
      hst.coherent.shows_view.represents, fun _ => rfl, ?_⟩
    intro more hmore log hroom'
    refine parse_continued ⟨?_, rfl, st, hst, rfl, hst.coherent.shows_view⟩ hmore hroom'
    rw [openPersistentInvocationLog, Option.getD_some, if_neg]
    rw [length_append]
    omega

end

/-- The log of one directory, cut in its second record, and continued. -/
theorem parse_cut_of_directory : let stream := (emptyLog.calls [.createdDirectory [100]]).stream
    let left := fileHeader ++ (Record.path [100]).bytes
    ∃ result, parsePersistentInvocationLog .valueFirst (fun _ => {}) (some (stream.take 28)) = .ok (result, some left) ∧
      let log := (openPersistentInvocationLog left result.parseData).createdDirectory [100]
      log.written = [.createdDir 0] ∧
      ∃ final, parsePersistentInvocationLog .valueFirst (fun _ => {}) (some log.stream) =
        .ok (final, some log.stream) ∧ final.warning = "" := by
  intro stream left
  obtain ⟨-, result, _, _, hparse, -, -, -, -, -, -, hmore⟩ :=
    parse_cut .valueFirst (fun _ => {}) [.createdDirectory [100]] (by decide)
      ⟨by decide, by decide, by decide⟩ 28
  have hwritten : ((openPersistentInvocationLog left result.parseData).createdDirectory [100]).written =
      [.createdDir 0] := by
    have heval : (parsePersistentInvocationLog .valueFirst (fun _ => {})
        (some (stream.take 28))).toOption.map (fun r => ((openPersistentInvocationLog left
          r.1.parseData).createdDirectory [100]).written) = some [.createdDir 0] := by decide
    rw [hparse] at heval
    exact Option.some.inj heval
  refine ⟨result, hparse, hwritten, ?_⟩
  obtain ⟨final, hfinal, hwarning, -⟩ := hmore [.createdDirectory [100]] (by decide)
    (hwritten ▸ ⟨by decide, by decide, by decide⟩)
  exact ⟨final, hfinal, hwarning⟩

variable {path : Path}

theorem entrySize_oversized (h : path.length + 4 = 2 ^ 32) : (Record.path path).entrySize = 2 ^ 32 := by
  rw [Record.entrySize, Record.paddingBytes]
  omega

theorem nextEntry_oversized (h : path.length + 4 = 2 ^ 32) (rest : Bytes) :
    nextEntry ((Record.path path).bytes ++ rest) = .ok (⟨.path, []⟩, sizeofUInt32) := by
  have hbytes : (Record.path path).bytes = LittleEndian.le32 0 ++ (Record.path path).payload := by
    rw [Record.bytes, entrySize_oversized h, Record.writeHeader]
    have hheader : UInt32.ofNat (2 ^ 32) ||| EntryType.path.value = 0 := by decide
    exact congrArg (LittleEndian.le32 · ++ _) hheader
  rw [nextEntry_ok, hbytes, append_assoc, LittleEndian.read32_le32]
  refine ⟨?_, by decide, ?_, by rw [Nat.sub_self, take_zero]; decide⟩ <;>
    · rw [length_append, LittleEndian.le32_length]
      exact Nat.le_add_right _ _

/-- A log whose only path is too long for its record: the log is not cut at all, and yet
parsing leaves nothing of it. -/
theorem parse_oversized_path : let path : Path := replicate (2 ^ 32 - 4) 97
    let log := emptyLog.calls [.createdDirectory path]
    let k := log.stream.length
    0 ∉ path ∧ fitting Record.bytes (k - fileHeader.length) log.written = log.written ∧
    log.written ≠ [] ∧
    ∃ result, parsePersistentInvocationLog .valueFirst (fun _ => {}) (some (log.stream.take k)) =
      .ok (result, some fileHeader) := by
  generalize hn : 2 ^ 32 - 4 = n
  intro path log k
  have hlen : path.length + 4 = 2 ^ 32 := by
    rw [length_replicate]
    omega
  have hwritten : log.written = [.path path, .createdDir 0] := rfl
  have hstream : log.stream = fileHeader ++ log.written.flatMap Record.bytes := rfl
  refine ⟨?_, fitting_of_length_le ?_, by rw [hwritten]; exact cons_ne_nil _ _, ?_⟩
  · intro hmem
    cases eq_of_mem_replicate hmem
  · rw [show k = log.stream.length from rfl, hstream, length_append]
    omega
  · rw [take_length, hstream, hwritten, flatMap_cons]
    generalize hrest : [Record.createdDir 0].flatMap Record.bytes = rest
    have hne : (Record.path path).bytes ++ rest ≠ [] := by
      refine ne_nil_of_length_pos ?_
      rw [length_append, Record.bytes_length, sizeofUInt32]
      omega
    have hparse : Parsing.parseEntry .valueFirst (fun _ => {}) {} ⟨.path, []⟩ =
        .error (.parseError "invalid invocation log: Encountered non null terminated path", {}) := rfl
    have hframe : logFraming.frame ((Record.path path).bytes ++ rest) = _ := nextEntry_oversized hlen rest
    have hloop := run_of_stops (.rejected hne hframe hparse)
    have hleft := parse_of_loop hloop (nil_append _).symm fun _ h => by cases h
    rw [append_nil] at hleft
    exact ⟨_, hleft⟩

end Shuriken
