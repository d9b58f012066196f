import Shuriken.Lib.Finmap
import Shuriken.Log.Simulation

/-!
# Counting the records of a log

Which records an operation appends, as long as no file is a directory: the paths that the log did not know, a
record for each fingerprint that is not the most recent one of its path, and a record for the operation
itself.
-/
namespace Shuriken
open List Nat
namespace PersistentInvocationLog

def pathCount (log : PersistentInvocationLog) : Nat := log.written.countP Record.isPath

def fingerprintCount (log : PersistentInvocationLog) : Nat := log.written.countP Record.isFingerprint

/-- The log was empty when it was opened, and its counters are those of its records. -/
structure Tallied (log : PersistentInvocationLog) : Prop where
  paths : log.pathIds.keys.card = log.pathCount
  fingerprints : log.fingerprintEntryCount = UInt32.ofNat log.fingerprintCount

/-- Only paths, out of the given ones, and fingerprints are appended. -/
structure Appends (paths : Path → Prop) (log log' : PersistentInvocationLog) : Prop where
  written : ∃ records, log'.written = log.written ++ records ∧
    ∀ r ∈ records, r.isFingerprint = true ∨ ∃ path, paths path ∧ r = .path path
  tallied : log.Tallied → log'.Tallied
  known : ∀ path, (log'.pathIds.lookup path).isSome → (log.pathIds.lookup path).isSome ∨ paths path

section
variable {paths paths' : Path → Prop} {log log' log'' : PersistentInvocationLog}

theorem Appends.refl (log : PersistentInvocationLog) : Appends paths log log :=
  ⟨⟨[], (append_nil _).symm, nofun⟩, id, fun _ h => .inl h⟩

section
variable (h : Appends paths log log')
include h

theorem Appends.trans (h' : Appends paths log' log'') : Appends paths log log'' := by
  obtain ⟨records, hwritten, hrecords⟩ := h.written
  obtain ⟨records', hwritten', hrecords'⟩ := h'.written
  refine ⟨⟨records ++ records', by rw [hwritten', hwritten, append_assoc], ?_⟩,
    fun htallied => h'.tallied (h.tallied htallied), fun path hpath => ?_⟩
  · exact forall_mem_append.mpr ⟨hrecords, hrecords'⟩
  · rcases h'.known path hpath with hpath | hpath
    · exact h.known path hpath
    · exact .inr hpath

theorem Appends.mono (hpaths : ∀ path, paths path → paths' path) : Appends paths' log log' := by
  obtain ⟨records, hwritten, hrecords⟩ := h.written
  refine ⟨⟨records, hwritten, fun r hr => ?_⟩, h.tallied, fun path hpath =>
    (h.known path hpath).imp_right (hpaths path)⟩
  exact (hrecords r hr).imp_right fun ⟨path, hpath, heq⟩ => ⟨path, hpaths path hpath, heq⟩

theorem Appends.fingerprintCount_le : log.fingerprintCount ≤ log'.fingerprintCount := by
  obtain ⟨records, hwritten, -⟩ := h.written
  rw [fingerprintCount, fingerprintCount, hwritten, countP_append]
  exact le_add_right _ _

end

theorem appends_ensurePathIsWritten (log : PersistentInvocationLog) (path : Path) :
    Appends (· = path) log (log.ensurePathIsWritten path).1 := by
  unfold ensurePathIsWritten
  cases hlookup : log.pathIds.lookup path with
  | some id => exact .refl log
  | none =>
    refine ⟨⟨[.path path], rfl, ?_⟩, fun h => ⟨?_, ?_⟩, fun path' hpath' => ?_⟩
    · exact forall_mem_singleton.mpr (.inr ⟨path, rfl, rfl⟩)
    · change (Finmap.insert path log.pathEntryCount log.pathIds).keys.card =
        (log.written ++ [Record.path path]).countP Record.isPath
      rw [Finmap.card_keys_insert _ hlookup, h.paths, countP_append]
      rfl
    · change log.fingerprintEntryCount = UInt32.ofNat ((log.written ++ [Record.path path]).countP Record.isFingerprint)
      rw [h.fingerprints, countP_append]
      rfl
    · change ((Finmap.insert path log.pathEntryCount log.pathIds).lookup path').isSome at hpath'
      by_cases heq : path' = path
      · exact .inr heq
      · rw [Finmap.lookup_insert_of_ne _ heq] at hpath'
        exact .inl hpath'

@[simp] theorem fingerprintCount_ensurePathIsWritten (log : PersistentInvocationLog) (path : Path) :
    (log.ensurePathIsWritten path).1.fingerprintCount = log.fingerprintCount := by
  unfold ensurePathIsWritten
  cases log.pathIds.lookup path with
  | some id => rfl
  | none => exact (countP_append ..).trans (add_zero _)

variable {fp : Fingerprint}

theorem appends_writeFingerprint (log : PersistentInvocationLog) (pathId : UInt32) (path : Path)
    (hfp : fp.stat.isDir = false) (type : WriteType) :
    Appends (· = path) log (log.writeFingerprintOrDirectoryEntry pathId path fp type).1 ∧
      (log.writeFingerprintOrDirectoryEntry pathId path fp type).1.fingerprintCount = log.fingerprintCount + 1 ∧
      (log.writeFingerprintOrDirectoryEntry pathId path fp type).2 = log.fingerprintEntryCount := by
  rw [writeFingerprintOrDirectoryEntry, hfp, if_neg Bool.false_ne_true]
  have hcount : (log.written ++ [Record.fingerprint pathId fp]).countP Record.isFingerprint =
      log.fingerprintCount + 1 := countP_append
  refine ⟨⟨⟨[.fingerprint pathId fp], rfl, ?_⟩, fun h => ⟨?_, ?_⟩, fun _ h => .inl h⟩, hcount, rfl⟩
  · exact forall_mem_singleton.mpr (.inl rfl)
  · change log.pathIds.keys.card = (log.written ++ [Record.fingerprint pathId fp]).countP Record.isPath
    rw [h.paths, countP_append]
    rfl
  · change log.fingerprintEntryCount + 1 =
      UInt32.ofNat ((log.written ++ [Record.fingerprint pathId fp]).countP Record.isFingerprint)
    rw [hcount, uint32_ofNat_succ, h.fingerprints]

/-- A fingerprint that is written gets the next id. -/
theorem appends_ensureRecentFingerprintIsWritten (log : PersistentInvocationLog) (path : Path)
    (hfp : fp.stat.isDir = false) (type : WriteType) :
    Appends (· = path) log (log.ensureRecentFingerprintIsWritten path fp type).1 ∧
      (log.Tallied → ∀ i, log.fingerprintCount ≤ i →
        i < (log.ensureRecentFingerprintIsWritten path fp type).1.fingerprintCount →
        (log.ensureRecentFingerprintIsWritten path fp type).2 = UInt32.ofNat i) := by
  have hpath := appends_ensurePathIsWritten log path
  have hcount := fingerprintCount_ensurePathIsWritten log path
  unfold ensureRecentFingerprintIsWritten
  generalize log.ensurePathIsWritten path = ensured at hpath hcount ⊢
  obtain ⟨log₁, pathId⟩ := ensured
  obtain ⟨hwrite, hcount', hid⟩ := appends_writeFingerprint log₁ pathId path hfp type
  have hnew : log.Tallied → ∀ i, log.fingerprintCount ≤ i →
      i < (log₁.writeFingerprintOrDirectoryEntry pathId path fp type).1.fingerprintCount →
      (log₁.writeFingerprintOrDirectoryEntry pathId path fp type).2 = UInt32.ofNat i := by
    intro htallied i hle hlt
    have hi : i = log₁.fingerprintCount := by
      simp only at hcount
      omega
    rw [hid, (hpath.tallied htallied).fingerprints, hi]
  cases hlookup : log₁.fingerprintIds.lookup path with
  | none => simpa only [hlookup] using ⟨hpath.trans hwrite, hnew⟩
  | some old =>
    simp only [hlookup]
    split
    · exact ⟨hpath.trans hwrite, hnew⟩
    · refine ⟨hpath, fun _ i hle hlt => ?_⟩
      simp only at hcount hlt
      omega

/-- Every id that was used up is one of the ids of the files, as long as there are enough. -/
theorem appends_writePathsAndFingerprints (type : WriteType) {files : List (Path × Fingerprint)}
    (hfiles : ∀ file ∈ files, file.2.stat.isDir = false) (log : PersistentInvocationLog) :
    Appends (fun path => path ∈ files.map Prod.fst) log (writePathsAndFingerprints type log files).1 ∧
      (writePathsAndFingerprints type log files).2.length ≤ files.length ∧
      (log.Tallied → (writePathsAndFingerprints type log files).1.fingerprintCount < 2 ^ 32 →
        ∀ i, log.fingerprintCount ≤ i → i < (writePathsAndFingerprints type log files).1.fingerprintCount →
          UInt32.ofNat i ∈ (writePathsAndFingerprints type log files).2) := by
  induction files generalizing log with
  | nil => exact ⟨.refl log, le_refl _, fun _ _ i hle hlt => absurd hlt (not_lt.mpr hle)⟩
  | cons file files ih =>
    obtain ⟨path, fp⟩ := file
    obtain ⟨hfp, hfiles⟩ := forall_mem_cons.mp hfiles
    obtain ⟨hfirst, hid⟩ := appends_ensureRecentFingerprintIsWritten log path hfp type
    rw [writePathsAndFingerprints]
    generalize log.ensureRecentFingerprintIsWritten path fp type = ensured at hfirst hid ⊢
    obtain ⟨log₁, entryId⟩ := ensured
    obtain ⟨hrest, hlength, hids⟩ := ih hfiles log₁
    simp only at hfirst hid ⊢
    generalize writePathsAndFingerprints type log₁ files = rest at hrest hlength hids ⊢
    obtain ⟨log₂, result⟩ := rest
    simp only at hrest hlength hids ⊢
    refine ⟨?_, ?_, fun htallied hroom i hle hlt => ?_⟩
    · exact (hfirst.mono fun p hp => mem_cons.mpr (.inl hp)).trans
        (hrest.mono fun p hp => mem_cons_of_mem _ hp)
    · split
      · exact succ_le_succ hlength
      · exact hlength.trans (le_succ _)
    · by_cases hi : i < log₁.fingerprintCount
      · have hentry := hid htallied i hle hi
        have hvalid : entryId ≠ kInvalidEntry := by
          rintro rfl
          have hmax : kInvalidEntry.toNat = 2 ^ 32 - 1 := by decide
          rw [hentry, UInt32.toNat_ofNat'] at hmax
          omega
        rw [if_pos hvalid, hentry]
        exact mem_cons_self
      · have hmem := hids (hfirst.tallied htallied) hroom i (not_lt.mp hi) hlt
        split
        · exact mem_cons_of_mem _ hmem
        · exact hmem

end
end PersistentInvocationLog

def Record.entry : Record → Option (Hash × InvocationEntry)
  | .invocation hash ignored additional outputs inputs => some (hash, ⟨outputs, inputs, ignored, additional⟩)
  | _ => none

def LogCall.commandHash : LogCall → Option Hash
  | .ranCommand c => some c.buildStepHash
  | _ => none

/-- The record that is written for the call itself, after those for its files. -/
inductive RecordOf : LogCall → Record → Prop where
  | createdDir (path : Path) (pathId : UInt32) : RecordOf (.createdDirectory path) (.createdDir pathId)
  | invocation (c : RanCommand) (outputs inputs : List UInt32) (houtputs : outputs.length ≤ c.outputFiles.length)
      (hinputs : inputs.length ≤ c.inputFiles.length) : RecordOf (.ranCommand c)
        (.invocation c.buildStepHash c.ignoredDependencies c.additionalDependencies outputs inputs)

variable {c : LogCall} {r : Record}

theorem RecordOf.isPath (h : RecordOf c r) : r.isPath = false := by
  cases h <;> rfl

theorem RecordOf.isFingerprint (h : RecordOf c r) : r.isFingerprint = false := by
  cases h <;> rfl

theorem RecordOf.hash (h : RecordOf c r) : r.entry.map Prod.fst = c.commandHash := by
  cases h <;> rfl

/-- The records of a log are those of the calls, without any that could be left out. -/
structure Listed (calls : List LogCall) (log : PersistentInvocationLog) : Prop where
  tallied : log.Tallied
  length : log.written.length = log.pathCount + log.fingerprintCount + calls.length
  records : ∀ r ∈ log.written, r.isFingerprint = true ∨ (∃ c ∈ calls, ∃ path ∈ c.paths, r = .path path) ∨
    ∃ c ∈ calls, RecordOf c r
  hashes : (log.written.filterMap Record.entry).map Prod.fst = calls.filterMap LogCall.commandHash
  used : log.fingerprintCount < 2 ^ 32 → ∀ i < log.fingerprintCount, ∃ command ∈ log.written.filterMap Record.entry,
      UInt32.ofNat i ∈ command.2.outputFiles ++ command.2.inputFiles
  known : ∀ path, (log.pathIds.lookup path).isSome → ∃ c ∈ calls, path ∈ c.paths

section
open PersistentInvocationLog
variable {calls : List LogCall} {c : LogCall} {log log₁ : PersistentInvocationLog} {r : Record}

variable {paths : Path → Prop}

theorem PersistentInvocationLog.Appends.filterMap_entry (h : log.Appends paths log₁) :
    log₁.written.filterMap Record.entry = log.written.filterMap Record.entry := by
  obtain ⟨records, hwritten, hrecords⟩ := h.written
  have hnone : records.filterMap Record.entry = [] := by
    refine filterMap_eq_nil_iff.mpr fun r hr => ?_
    rcases hrecords r hr with hfingerprint | ⟨path, -, rfl⟩
    · cases r with
      | fingerprint pathId fp => rfl
      | path | createdDir | invocation | deletedDir | deletedInvocation => nomatch hfingerprint
    · rfl
  rw [hwritten, filterMap_append, hnone, append_nil]

theorem PersistentInvocationLog.Appends.length (h : log.Appends paths log₁)
    (hlength : log.written.length = log.pathCount + log.fingerprintCount + calls.length) :
    log₁.written.length = log₁.pathCount + log₁.fingerprintCount + calls.length := by
  obtain ⟨records, hwritten, hrecords⟩ := h.written
  have hall : records.length = records.countP Record.isPath + records.countP Record.isFingerprint := by
    rw [length_eq_countP_add_countP Record.isPath]
    congr 1
    refine countP_congr fun r hr => ?_
    rcases hrecords r hr with hfingerprint | ⟨path, -, rfl⟩
    · cases r with
      | fingerprint pathId fp => exact ⟨fun _ => rfl, fun _ => rfl⟩
      | path | createdDir | invocation | deletedDir | deletedInvocation => nomatch hfingerprint
    · exact ⟨nofun, nofun⟩
  simp only [pathCount, fingerprintCount] at hlength ⊢
  rw [hwritten, length_append, countP_append, countP_append, hall]
  omega

/-- A call appends the records of its files, and then its own. -/
theorem Listed.operation (h : Listed calls log) (happends : log.Appends (· ∈ c.paths) log₁) (hr : RecordOf c r)
    (hused : log₁.fingerprintCount < 2 ^ 32 → ∀ i, log.fingerprintCount ≤ i → i < log₁.fingerprintCount →
      ∃ command, r.entry = some command ∧ UInt32.ofNat i ∈ command.2.outputFiles ++ command.2.inputFiles) :
    Listed (calls ++ [c]) (log₁.write r) := by
  obtain ⟨records, hwritten, hrecords⟩ := happends.written
  have hpathCount : (log₁.write r).pathCount = log₁.pathCount := by
    simp [pathCount, write, hr.isPath]
  have hfingerprintCount : (log₁.write r).fingerprintCount = log₁.fingerprintCount := by
    simp [fingerprintCount, write, hr.isFingerprint]
  have hentries : (log₁.write r).written.filterMap Record.entry =
      log.written.filterMap Record.entry ++ r.entry.toList := by
    rw [write, filterMap_append, happends.filterMap_entry]
    cases hentry : r.entry <;> simp [hentry]
  have hold : ∀ {d}, d ∈ calls → d ∈ calls ++ [c] := fun hd => mem_append_left _ hd
  have hnew : c ∈ calls ++ [c] := mem_append_right _ (mem_singleton_self c)
  have htallied := happends.tallied h.tallied
  refine ⟨⟨?_, ?_⟩, ?_, ?_, ?_, fun hroom i hi => ?_, fun path hpath => ?_⟩
  · exact htallied.paths.trans hpathCount.symm
  · exact htallied.fingerprints.trans (congrArg UInt32.ofNat hfingerprintCount.symm)
  · rw [hpathCount, hfingerprintCount, write, length_append, length_append, happends.length h.length]
    exact add_assoc ..
  · rw [write, hwritten, append_assoc]
    refine forall_mem_append.mpr ⟨fun r' hr' => ?_, forall_mem_append.mpr
      ⟨fun r' hr' => ?_, forall_mem_singleton.mpr (.inr (.inr ⟨c, hnew, hr⟩))⟩⟩
    · rcases h.records r' hr' with hfingerprint | ⟨d, hd, hpath⟩ | ⟨d, hd, hrecord⟩
      · exact .inl hfingerprint
      · exact .inr (.inl ⟨d, hold hd, hpath⟩)
      · exact .inr (.inr ⟨d, hold hd, hrecord⟩)
    · exact (hrecords r' hr').imp_right fun h => .inl ⟨c, hnew, h⟩
  · rw [hentries, map_append, h.hashes, filterMap_append]
    congr 1
    cases hentry : r.entry with
    | none =>
      have hhash : c.commandHash = none := by rw [← hr.hash, hentry, Option.map_none]
      simp [hhash]
    | some command =>
      have hhash : c.commandHash = some command.1 := by rw [← hr.hash, hentry, Option.map_some]
      simp [hhash]
  · rw [hfingerprintCount] at hroom hi
    rw [hentries]
    by_cases hbefore : i < log.fingerprintCount
    · obtain ⟨command, hcommand, hmem⟩ := h.used (happends.fingerprintCount_le.trans_lt hroom) i hbefore
      exact ⟨command, mem_append_left _ hcommand, hmem⟩
    · obtain ⟨command, hcommand, hmem⟩ := hused hroom i (not_lt.mp hbefore) hi
      exact ⟨command, mem_append_right _ (Option.mem_toList.mpr hcommand), hmem⟩
  · rcases happends.known path hpath with hpath | hpath
    · obtain ⟨d, hd, hmem⟩ := h.known path hpath
      exact ⟨d, hold hd, hmem⟩
    · exact ⟨c, hnew, hpath⟩

/-- A call that creates a directory, or logs a command whose files are no directories. -/
def LogCall.Plain : LogCall → Prop
  | .createdDirectory _ => True
  | .ranCommand c => ∀ file ∈ c.outputFiles ++ c.inputFiles, file.2.stat.isDir = false
  | _ => False

theorem Listed.call (h : Listed calls log) (hc : c.Plain) : Listed (calls ++ [c]) (log.call c) := by
  cases c with
  | createdDirectory path =>
    have happends := (appends_ensurePathIsWritten log path).mono
      fun p hp => mem_singleton.mpr hp
    have hcount := fingerprintCount_ensurePathIsWritten log path
    exact h.operation happends (.createdDir path _) fun _ i hle hlt =>
      absurd (hlt.trans_eq hcount) (not_lt.mpr hle)
  | ranCommand c =>
    obtain ⟨houtputs, hinputs⟩ := forall_mem_append.mp hc
    obtain ⟨happends, hlength, hids⟩ := appends_writePathsAndFingerprints .directoryAsDirectoryEntry houtputs log
    obtain ⟨happends', hlength', hids'⟩ := appends_writePathsAndFingerprints .ignoreDirectory hinputs
        (writePathsAndFingerprints .directoryAsDirectoryEntry log c.outputFiles).1
    have hpaths : (LogCall.ranCommand c).paths = c.outputFiles.map Prod.fst ++ c.inputFiles.map Prod.fst := map_append
    have houtputPaths : ∀ p ∈ c.outputFiles.map Prod.fst, p ∈ (LogCall.ranCommand c).paths :=
      fun p hp => hpaths ▸ mem_append_left _ hp
    have hinputPaths : ∀ p ∈ c.inputFiles.map Prod.fst, p ∈ (LogCall.ranCommand c).paths :=
      fun p hp => hpaths ▸ mem_append_right _ hp
    refine h.operation ((happends.mono houtputPaths).trans (happends'.mono hinputPaths))
      (.invocation c _ _ hlength hlength') fun hroom i hle hlt => ⟨_, rfl, mem_append.mpr ?_⟩
    by_cases houtput : i < (writePathsAndFingerprints .directoryAsDirectoryEntry log
        c.outputFiles).1.fingerprintCount
    · exact .inl (hids h.tallied (happends'.fingerprintCount_le.trans_lt hroom) i hle houtput)
    · exact .inr (hids' (happends.tallied h.tallied) hroom i (not_lt.mp houtput) hlt)
  | removedDirectory | cleanedCommand => exact hc.elim

theorem listed_calls (hcalls : ∀ c ∈ calls, c.Plain) : Listed calls (emptyLog.calls calls) := by
  induction calls using reverseRecOn with
  | nil => exact ⟨⟨rfl, rfl⟩, rfl, nofun, rfl, fun _ _ h => absurd h (not_lt_zero _), nofun⟩
  | append_singleton calls c ih =>
    obtain ⟨hcalls, hc⟩ := forall_mem_append.mp hcalls
    rw [PersistentInvocationLog.calls, foldl_append]
    exact (ih hcalls).call (forall_mem_singleton.mp hc)

end
end Shuriken
