import Shuriken.Log.Recompact

/-!
# Recompaction keeps the log

The file that recompaction writes is parsed to the same directories and
entries, although all ids differ, and it does not have to be recompacted: every
record in it is counted as one that is used.
-/
namespace Shuriken
open List RecordStream Finmap Parsing

/-- Every index of an entry is that of a file that is not a directory. -/
def Invocations.FilesOnly (invocations : Invocations) : Prop :=
  ∀ hash entry, invocations.entries.lookup hash = some entry → ∀ id ∈ entry.outputFiles ++ entry.inputFiles,
      ∃ file, fileAt invocations.fingerprints id = some file ∧ file.2.stat.isDir = false

def Invocations.DirectoriesUnchanged (lstat : Path → Stat) (invocations : Invocations) : Prop :=
  ∀ id path, invocations.createdDirectories.lookup id = some path →
    (lstat path).result = 0 ∧ FileId.ofStat (lstat path) = id

/-- The entries have the same files and dependencies. The indices can differ. -/
structure InvocationEntry.SameAs (fingerprints fingerprints' : List (Path × Fingerprint))
    (entry entry' : InvocationEntry) : Prop where
  outputs : entry.outputFiles.map (fileAt fingerprints) = entry'.outputFiles.map (fileAt fingerprints')
  inputs : entry.inputFiles.map (fileAt fingerprints) = entry'.inputFiles.map (fileAt fingerprints')
  ignored : entry.ignoredDependencies = entry'.ignoredDependencies
  additional : entry.additionalDependencies = entry'.additionalDependencies

section
variable {fingerprints fingerprints' : List (Path × Fingerprint)}

theorem map_some_filterMap_fileAt {ids : List UInt32} (h : ∀ id ∈ ids, (fileAt fingerprints id).isSome) :
    (ids.filterMap (fileAt fingerprints)).map some = ids.map (fileAt fingerprints) := by
  induction ids with
  | nil => rfl
  | cons id ids ih =>
    obtain ⟨hid, hids⟩ := forall_mem_cons.mp h
    obtain ⟨file, hfile⟩ := Option.isSome_iff_exists.mp hid
    rw [filterMap_cons_some hfile, map_cons, map_cons, hfile, ih hids]

theorem InvocationEntry.RefersTo.sameAs {hash : Hash} {entry entry' : InvocationEntry}
    (h : entry'.RefersTo fingerprints' (entry.relogged fingerprints hash).logged)
    (hentry : ∀ id ∈ entry.outputFiles ++ entry.inputFiles,
      ∃ file, fileAt fingerprints id = some file ∧ file.2.stat.isDir = false) :
    entry.SameAs fingerprints fingerprints' entry' := by
  obtain ⟨houtputs, hinputs⟩ := forall_mem_append.mp hentry
  have hkept : ∀ {ids : List UInt32},
      (∀ id ∈ ids, ∃ file, fileAt fingerprints id = some file ∧ file.2.stat.isDir = false) →
      ((ids.filterMap (fileAt fingerprints)).filter notDirectory).map some = ids.map (fileAt fingerprints) := by
    intro ids hids
    rw [filter_eq_self.mpr, map_some_filterMap_fileAt]
    · intro id hid
      obtain ⟨file, hfile, -⟩ := hids id hid
      exact Option.isSome_iff_exists.mpr ⟨file, hfile⟩
    · intro file hfile
      obtain ⟨id, hid, hat⟩ := mem_filterMap.mp hfile
      obtain ⟨file', hat', hdir⟩ := hids id hid
      cases hat.symm.trans hat'
      rw [notDirectory, hdir, Bool.not_false]
  exact ⟨(hkept houtputs).symm.trans h.outputs.symm, (hkept hinputs).symm.trans h.inputs.symm,
    h.ignored.symm, h.additional.symm⟩

end

section
variable {invocations : Invocations} (iteration : IterationOrder invocations) {paths : List Path}

theorem recompactionCalls_plain (h : invocations.FilesOnly) :
    ∀ c ∈ recompactionCalls invocations iteration, c.Plain := by
  intro c hc
  rcases mem_recompactionCalls hc with ⟨id, path, -, rfl⟩ | ⟨hash, entry, hentry, rfl⟩
  · trivial
  · intro file hfile
    rw [InvocationEntry.relogged, ← filterMap_append] at hfile
    obtain ⟨id, hid, hat⟩ := mem_filterMap.mp hfile
    obtain ⟨file', hat', hdir⟩ := h hash entry hentry id hid
    cases hat.symm.trans hat'
    exact hdir

section
variable (h : invocations.Storable paths)
include h

theorem recompactionCalls_paths : ∀ c ∈ recompactionCalls invocations iteration, ∀ path ∈ c.paths, path ∈ paths := by
  intro c hc
  rcases mem_recompactionCalls hc with ⟨id, path, hdir, rfl⟩ | ⟨hash, entry, -, rfl⟩
  · exact forall_mem_singleton.mpr (h.directories id path hdir)
  · intro path hpath
    obtain ⟨file, hfile, rfl⟩ := mem_map.mp hpath
    rw [InvocationEntry.relogged, ← filterMap_append] at hfile
    obtain ⟨id, -, hat⟩ := mem_filterMap.mp hfile
    exact h.fingerprints file (mem_of_getElem? hat)

theorem entrySize_of_recordOf {c : LogCall} {r : Record}
    (hc : c ∈ recompactionCalls invocations iteration) (hr : RecordOf c r) : r.entrySize < 2 ^ 32 := by
  cases hr with
  | createdDir path pathId => exact (by decide : sizeofUInt32 < 2 ^ 32)
  | invocation command outputs inputs houtputs hinputs =>
    rcases mem_recompactionCalls hc with ⟨id, path, -, hc⟩ | ⟨hash, entry, hentry, hc⟩
    · nomatch hc
    · obtain rfl := LogCall.ranCommand.inj hc
      have hsize := h.entries hash entry hentry
      have houtputs := houtputs.trans (length_filterMap_le _ _)
      have hinputs := hinputs.trans (length_filterMap_le _ _)
      simp only [InvocationEntry.recordSize, Record.entrySize, InvocationEntry.relogged, sizeofUInt32,
        kHashSize] at hsize ⊢
      omega

theorem recompactedLog_room (hfiles : invocations.FilesOnly)
    (hroom : (recompactedLog invocations iteration).fingerprintCount < 2 ^ 32) :
    Parsing.Room {} (recompactedLog invocations iteration).written := by
  have hlisted := listed_calls (recompactionCalls_plain iteration hfiles)
  have hpaths := recompactionCalls_paths iteration h
  rw [recompactedLog_eq] at hroom ⊢
  refine ⟨fun r hr => ?_, ?_, ?_⟩
  · rcases hlisted.records r hr with hfingerprint | ⟨c, hc, path, hpath, rfl⟩ | ⟨c, hc, hrecord⟩
    · cases r with
      | fingerprint => exact (by decide : sizeofUInt32 + sizeofFingerprint < 2 ^ 32)
      | path | createdDir | invocation | deletedDir | deletedInvocation => nomatch hfingerprint
    · exact (h.fits path (hpaths c hc path hpath)).2
    · exact entrySize_of_recordOf iteration h hc hrecord
  · -- Every path has one record, and all of them were read from a log.
    have hcard : (emptyLog.calls (recompactionCalls invocations iteration)).pathIds.keys.card ≤ paths.length := by
      refine (Finset.card_le_card fun path hpath => mem_toFinset.mpr ?_).trans paths.toFinset_card_le
      obtain ⟨c, hc, hmem⟩ := hlisted.known path (lookup_isSome.mpr (mem_keys.mp hpath))
      exact hpaths c hc path hmem
    rw [hlisted.tallied.paths] at hcard
    exact (Nat.zero_add _).trans_le (hcard.trans h.count)
  · exact (Nat.zero_add _).trans_lt hroom

end

variable {lstat : Path → Stat}

theorem recompaction_view (hfiles : invocations.FilesOnly) (hdirs : invocations.DirectoriesUnchanged lstat) :
    let v := LogView.empty.applyAll lstat (recompactionCalls invocations iteration)
    (∀ id, v.directories id = invocations.createdDirectories.lookup id) ∧
      ∀ hash, v.commands hash = (invocations.entries.lookup hash).map fun entry =>
        (entry.relogged invocations.fingerprints hash).logged := by
  have hplain := recompactionCalls_plain iteration hfiles
  rw [recompactionCalls, forall_mem_append] at hplain
  have hunchanged : ∀ dir ∈ iteration.directories.entries,
      (lstat dir.2).result = 0 ∧ FileId.ofStat (lstat dir.2) = dir.1 := fun dir hdir =>
    hdirs dir.1 dir.2 ((lookup_directories dir.1).symm.trans (AList.mem_lookup_iff.mpr hdir))
  have hcreated := LogView.applyAll_directories LogView.empty hunchanged
  have hentries := @LogView.applyAll_entries lstat
    (LogView.empty.applyAll lstat (iteration.directories.entries.map fun dir => .createdDirectory dir.2))
    invocations.fingerprints _ iteration.entries.nodupKeys
    fun entry hentry => hplain.2 _ (mem_map_of_mem hentry)
  simp only [recompactionCalls, LogView.applyAll, foldl_append] at hcreated hentries ⊢
  refine ⟨fun id => ?_, fun hash => ?_⟩
  · rw [hentries.1, hcreated.2]
    exact lookup_directories id
  · rw [hentries.2, hcreated.1]
    exact Option.or_none.trans (congrArg _ (lookup_entries hash))

/-- Every record of the new log is counted as a unique one. -/
theorem recompacted_needsRecompaction (hfiles : invocations.FilesOnly) {st : Parsing}
    (hsizes : ∀ r ∈ (recompactedLog invocations iteration).written, r.entrySize < 2 ^ 32)
    (hroom : (recompactedLog invocations iteration).fingerprintCount < 2 ^ 32)
    {order : EvalOrder} (hrun : run logFraming (parseEntry order lstat)
      ((recompactedLog invocations iteration).written.flatMap Record.bytes) {} = ⟨st, [], none⟩)
    (hmirrors : Mirrors (recompactedLog invocations iteration) st)
    (hdirectories : st.invocations.createdDirectories = invocations.createdDirectories)
    (hentries : ∀ hash, (st.invocations.entries.lookup hash).isSome = (invocations.entries.lookup hash).isSome) :
    st.needsRecompaction = false := by
  have hlisted := listed_calls (recompactionCalls_plain iteration hfiles)
  rw [← recompactedLog_eq] at hlisted
  have htypes : ∀ r ∈ (recompactedLog invocations iteration).written, r.type ≠ .deleted := by
    intro r hr
    rcases hlisted.records r hr with hfingerprint | ⟨c, -, path, -, rfl⟩ | ⟨c, -, hrecord⟩
    · cases r with
      | fingerprint => nofun
      | path | createdDir | invocation | deletedDir | deletedInvocation => nomatch hfingerprint
    · nofun
    · cases hrecord <;> nofun
  obtain ⟨hcount, hread⟩ := run_records hsizes htypes hrun
  have hnodup : (((recompactedLog invocations iteration).written.filterMap Record.entry).map Prod.fst).Nodup := by
    rw [hlisted.hashes, commandHash_recompactionCalls]
    exact iteration.entries.keys_nodup
  have hlength : st.invocations.fingerprints.length = (recompactedLog invocations iteration).fingerprintCount := by
    have hcounts := (congrArg ParseData.fingerprintEntryCount hmirrors.parseData).symm.trans
      hlisted.tallied.fingerprints
    have htoNat := congrArg UInt32.toNat hcounts
    rwa [toNat_ofNat hroom, parseData, toNat_ofNat hmirrors.coherent.fingerprints] at htoNat
  have hused : st.invocations.countUsedFingerprints = st.invocations.fingerprints.length := by
    rw [Invocations.countUsedFingerprints, countP_eq_length.mpr, length_range]
    intro i hi
    rw [mem_range, hlength] at hi
    obtain ⟨⟨hash, entry⟩, hmem, hid⟩ := hlisted.used hroom i hi
    have hlookup : st.invocations.entries.lookup hash = some entry := hread ▸ lookup_foldl_insert hnodup hmem _
    refine any_of_lookup hlookup ?_
    have hself : ((UInt32.ofNat i).toNat == i) = true := beq_iff_eq.mpr (toNat_ofNat (hi.trans hroom))
    rw [InvocationEntry.uses, Bool.or_eq_true]
    exact (mem_append.mp hid).imp (fun h => any_eq_true.mpr ⟨_, h, hself⟩)
      fun h => any_eq_true.mpr ⟨_, h, hself⟩
  have hpaths : st.pathIds.keys.card = (recompactedLog invocations iteration).pathCount := by
    rw [← hlisted.tallied.paths]
    exact congrArg (fun data => data.pathIds.keys.card) hmirrors.parseData.symm
  have hcalls : st.invocations.entries.keys.card + st.invocations.createdDirectories.keys.card =
      (recompactionCalls invocations iteration).length := by
    rw [keys_eq_of_isSome hentries, hdirectories, ← iteration.entries_eq, ← iteration.directories_eq,
      card_keys_toFinmap, card_keys_toFinmap, recompactionCalls, length_append,
      length_map, length_map, Nat.add_comm]
  have hstart : ({} : Parsing).entryCount = 0 := rfl
  have hratio : ¬ st.entryCount > (st.invocations.entries.keys.card +
      st.invocations.createdDirectories.keys.card + st.pathIds.keys.card +
      st.invocations.countUsedFingerprints) * kCompactionRatio := by
    rw [hcount, hstart, hlisted.length, hused, hlength, hpaths, hcalls, kCompactionRatio]
    omega
  rw [needsRecompaction, decide_eq_false hratio, Bool.and_false]

end

/-- Whatever log the invocations were read from: when each entry refers to files only, the
recorded directories are unchanged and the rewritten log has ids for its fingerprints, then
recompaction keeps everything. -/
theorem recompaction_preserves {order order' : EvalOrder} {lstat lstat' : Path → Stat} {file left : Option Bytes}
    {result : InvocationLogParseResult} (hparse : parsePersistentInvocationLog order lstat file = .ok (result, left))
    (iteration : IterationOrder result.invocations) (hfiles : result.invocations.FilesOnly)
    (hdirs : result.invocations.DirectoriesUnchanged lstat')
    (hroom : (recompactedLog result.invocations iteration).fingerprintCount < 2 ^ 32) :
    let written := recompactPersistentInvocationLog result.invocations iteration
    ∃ result', parsePersistentInvocationLog order' lstat' (some written.1) = .ok (result', some written.1) ∧
      result'.warning = "" ∧
      result'.invocations.createdDirectories = result.invocations.createdDirectories ∧
      (∀ hash, Option.Rel
        (InvocationEntry.SameAs result.invocations.fingerprints result'.invocations.fingerprints)
        (result.invocations.entries.lookup hash) (result'.invocations.entries.lookup hash)) ∧
      written.2 = result'.parseData ∧ result'.needsRecompaction = false := by
  obtain ⟨paths, hstorable⟩ := parse_storable hparse
  have hfits := recompactedLog_room iteration hstorable hfiles hroom
  have hunpadded : ∀ c ∈ recompactionCalls result.invocations iteration, ∀ path ∈ c.paths, Unpadded path :=
    fun c hc path hpath => (hstorable.fits path (recompactionCalls_paths iteration hstorable c hc path hpath)).1
  have hreads := reads_calls order' lstat' hunpadded (recompactedLog_eq ▸ hfits)
  have hstream := stream_calls hunpadded
  rw [← recompactedLog_eq] at hreads hstream
  obtain ⟨st, hreads, hmirrors, hshows⟩ := hreads
  obtain ⟨hdirectories, hcommands⟩ := recompaction_view iteration hfiles hdirs
  have hsame : st.invocations.createdDirectories = result.invocations.createdDirectories :=
    ext_lookup fun id => (hshows.represents.directories id).trans (hdirectories id)
  have hentries : ∀ hash, Option.Rel
      (InvocationEntry.SameAs result.invocations.fingerprints st.invocations.fingerprints)
      (result.invocations.entries.lookup hash) (st.invocations.entries.lookup hash) := by
    intro hash
    have hrel := hshows.represents.commands hash
    rw [hcommands hash] at hrel
    generalize st.invocations.entries.lookup hash = found at hrel ⊢
    cases hentry : result.invocations.entries.lookup hash with
    | none =>
      rw [hentry] at hrel
      cases hrel
      exact .none
    | some entry =>
      rw [hentry] at hrel
      cases hrel with
      | some hrefers => exact .some (hrefers.sameAs (hfiles hash entry hentry))
  have hkeys : ∀ hash, (st.invocations.entries.lookup hash).isSome =
      (result.invocations.entries.lookup hash).isSome := by
    intro hash
    have hrel := hentries hash
    generalize st.invocations.entries.lookup hash = found at hrel ⊢
    generalize result.invocations.entries.lookup hash = known at hrel ⊢
    cases hrel <;> rfl
  have hparsed := parse_of_reads hreads
  rw [← hstream] at hparsed
  refine ⟨st.result "", hparsed, rfl, hsame, hentries, hmirrors.parseData, ?_⟩
  exact recompacted_needsRecompaction iteration hfiles hfits.sizes hroom hreads.run_eq hmirrors hsame hkeys

def sampleLog (fp : Fingerprint) : Bytes :=
  fileHeader ++ [Record.path [100], .createdDir 0, .path [97], .fingerprint 1 fp,
    .invocation Hash.zero [] [] [0] [0]].flatMap Record.bytes

def sampleInvocations (fp : Fingerprint) : Invocations where
  fingerprints := [([97], fp)]
  entries := singleton Hash.zero ⟨[0], [0], [], []⟩
  createdDirectories := singleton {} [100]

def sampleIteration (fp : Fingerprint) : IterationOrder (sampleInvocations fp) where
  directories := AList.singleton {} [100]
  entries := AList.singleton Hash.zero ⟨[0], [0], [], []⟩
  directories_eq := rfl
  entries_eq := rfl

theorem parse_sampleLog (order : EvalOrder) (fp : Fingerprint) :
    ∃ result, parsePersistentInvocationLog order (fun _ => {}) (some (sampleLog fp)) =
      .ok (result, some (sampleLog fp)) ∧ result.invocations = sampleInvocations fp := by
  have hreads : ∃ st, Reads logFraming (parseEntry order fun _ => {}) {}
      ([Record.path [100], .createdDir 0, .path [97], .fingerprint 1 fp,
        .invocation Hash.zero [] [] [0] [0]].flatMap Record.bytes) st ∧
      st.invocations = sampleInvocations fp := by
    have hsize : (Record.fingerprint 1 fp).entrySize < 2 ^ 32 := by
      rw [Record.entrySize]
      decide
    refine ⟨_, .cons (frame_bytes _ (by decide)) (parseRecord_path _ _ _ (unpadded_of_nul (by decide))) <|
      .cons (frame_bytes _ (by decide)) (parseRecord_createdDir _ _ rfl) <|
      .cons (frame_bytes _ (by decide)) (parseRecord_path _ _ _ (unpadded_of_nul (by decide))) <|
      .cons (frame_bytes _ hsize) (parseRecord_fingerprint _ _ fp rfl) <|
      .cons (frame_bytes _ (by decide)) (parseRecord_invocation _ _ (by decide) (by decide)
        (by decide) ?_) (.nil _), ?_⟩
    · intro _ id hid
      obtain rfl : id = 0 := by simpa using hid
      exact (by decide : (0 : UInt32) < UInt32.ofNat 1)
    · rfl
  obtain ⟨st, hreads, hst⟩ := hreads
  exact ⟨st.result "", parse_of_reads hreads, hst⟩

theorem sampleInvocations_unchanged (fp : Fingerprint) : (sampleInvocations fp).DirectoriesUnchanged fun _ => {} := by
  intro id path h
  refine ⟨rfl, ?_⟩
  by_contra hne
  have hnone : (sampleInvocations fp).createdDirectories.lookup id = none :=
    Finmap.lookup_eq_none.mpr fun hmem => hne (Finmap.mem_singleton .. |>.mp hmem).symm
  nomatch hnone.symm.trans h

theorem sampleInvocations_filesOnly {fp : Fingerprint} (hfp : fp.stat.isDir = false) :
    (sampleInvocations fp).FilesOnly := by
  intro hash entry h
  have hhash : hash = Hash.zero := by
    by_contra hne
    have hnone : (sampleInvocations fp).entries.lookup hash = none :=
      Finmap.lookup_eq_none.mpr fun hmem => hne (Finmap.mem_singleton .. |>.mp hmem)
    nomatch hnone.symm.trans h
  subst hhash
  obtain rfl : ⟨[0], [0], [], []⟩ = entry := Option.some.inj (lookup_singleton_eq.symm.trans h)
  intro id hid
  obtain rfl : id = 0 := by simpa using hid
  exact ⟨([97], fp), rfl, hfp⟩

theorem recompaction_preserves_sample : let fp : Fingerprint := { stat := { size := 1, ino := 2, mode := S_IFREG } }
    ∃ result, parsePersistentInvocationLog .slotFirst (fun _ => {}) (some (sampleLog fp)) =
        .ok (result, some (sampleLog fp)) ∧
      result.invocations.FilesOnly ∧ result.invocations.DirectoriesUnchanged (fun _ => {}) ∧
      ∃ iteration : IterationOrder result.invocations,
        (recompactedLog result.invocations iteration).fingerprintCount < 2 ^ 32 ∧
        ∃ result', parsePersistentInvocationLog .slotFirst (fun _ => {})
            (some (recompactPersistentInvocationLog result.invocations iteration).1) =
            .ok (result', some (recompactPersistentInvocationLog result.invocations iteration).1) ∧
          result'.needsRecompaction = false := by
  intro fp
  obtain ⟨result, hparse, hinvocations⟩ := parse_sampleLog .slotFirst fp
  have hfiles : result.invocations.FilesOnly := hinvocations ▸ sampleInvocations_filesOnly (by decide)
  have hdirs : result.invocations.DirectoriesUnchanged fun _ => {} := hinvocations ▸ sampleInvocations_unchanged fp
  have hiteration : ∃ iteration : IterationOrder result.invocations,
      (recompactedLog result.invocations iteration).fingerprintCount < 2 ^ 32 := by
    rw [hinvocations]
    exact ⟨sampleIteration fp, by decide +kernel⟩
  obtain ⟨iteration, hroom⟩ := hiteration
  obtain ⟨result', hagain, -, -, -, -, hneeds⟩ :=
    @recompaction_preserves .slotFirst .slotFirst _ _ _ _ _ hparse iteration hfiles hdirs hroom
  exact ⟨result, hparse, hfiles, hdirs, iteration, hroom, result', hagain, hneeds⟩

/-- Recompaction logs the fingerprint of a directory as a created directory, and the entry
does not have it any more. -/
theorem recompaction_drops_directory : let fp : Fingerprint := { stat := { mode := S_IFDIR } }
    ∃ result, parsePersistentInvocationLog .slotFirst (fun _ => {}) (some (sampleLog fp)) =
        .ok (result, some (sampleLog fp)) ∧
      result.invocations.DirectoriesUnchanged (fun _ => {}) ∧
      ∃ iteration : IterationOrder result.invocations,
        ∃ result' left, parsePersistentInvocationLog .slotFirst (fun _ => {})
            (some (recompactPersistentInvocationLog result.invocations iteration).1) = .ok (result', left) ∧
          ¬ Option.Rel
            (InvocationEntry.SameAs result.invocations.fingerprints result'.invocations.fingerprints)
            (result.invocations.entries.lookup Hash.zero) (result'.invocations.entries.lookup Hash.zero) := by
  intro fp
  obtain ⟨result, hparse, hinvocations⟩ := parse_sampleLog .slotFirst fp
  refine ⟨result, hparse, ?_⟩
  rw [hinvocations]
  refine ⟨sampleInvocations_unchanged fp, sampleIteration fp, ?_⟩
  have hagain : ∃ r, parsePersistentInvocationLog .slotFirst (fun _ => {}) (some
      (recompactPersistentInvocationLog (sampleInvocations fp) (sampleIteration fp)).1) = .ok r ∧
        (r.1.invocations.entries.lookup Hash.zero).map (·.outputFiles) = some [] := by
    decide +kernel
  obtain ⟨⟨result', left⟩, hok, hdropped⟩ := hagain
  refine ⟨result', left, hok, fun hrel => ?_⟩
  have hlogged : (sampleInvocations fp).entries.lookup Hash.zero = some ⟨[0], [0], [], []⟩ := lookup_singleton_eq
  rw [hlogged] at hrel
  generalize result'.invocations.entries.lookup Hash.zero = found at hrel hdropped
  cases hrel with
  | some hsame =>
    have hempty := congrArg (map (fileAt result'.invocations.fingerprints)) (Option.some.inj hdropped)
    nomatch hsame.outputs.trans hempty

end Shuriken
