import Mathlib.Data.Nat.Digits.Lemmas
import Shuriken.Log.AllOrNothing
import Shuriken.Log.Simulation

/-!
# Writing and parsing agree

The log as a sequence of events: for each step the last thing that was logged
about it, for each directory whether it was created or removed last. A parse of
what the calls wrote gives just that.
-/
namespace Shuriken
open Option Function RecordStream List Nat PersistentInvocationLog

section
variable {κ ν : Type} [DecidableEq κ]

def lastEvent (events : List (κ × ν)) (key : κ) : Option ν :=
  ((events.filter fun event => event.1 = key).getLast?).map Prod.snd

@[simp] theorem lastEvent_nil (key : κ) : lastEvent ([] : List (κ × ν)) key = none := rfl

theorem lastEvent_concat_self (events : List (κ × ν)) (key : κ) (value : ν) :
    lastEvent (events ++ [(key, value)]) key = some value := by
  simp [lastEvent]

theorem lastEvent_concat_of_ne (events : List (κ × ν)) {key key' : κ} (value : ν) (h : key' ≠ key) :
    lastEvent (events ++ [(key', value)]) key = lastEvent events key := by
  simp [lastEvent, h]

end

def LogCall.commandEvents : LogCall → List (Hash × Option LoggedCommand)
  | .ranCommand c => [(c.buildStepHash, some c.logged)]
  | .cleanedCommand hash => [(hash, none)]
  | _ => []

def directoryOutputs (files : List (Path × Fingerprint)) : List (Path × Bool) :=
  (files.filter fun file => file.2.stat.isDir).map fun file => (file.1, true)

def LogCall.directoryEvents : LogCall → List (Path × Bool)
  | .createdDirectory path => [(path, true)]
  | .removedDirectory path => [(path, false)]
  | .ranCommand c => directoryOutputs c.outputFiles
  | .cleanedCommand _ => []

def loggedCommand (calls : List LogCall) (hash : Hash) : Option LoggedCommand :=
  (lastEvent (calls.flatMap LogCall.commandEvents) hash).join

def isCreated (calls : List LogCall) (path : Path) : Prop :=
  lastEvent (calls.flatMap LogCall.directoryEvents) path = some true

def DistinctFiles (lstat : Path → Stat) (paths : Set Path) : Prop :=
  ∀ p ∈ paths, ∀ q ∈ paths, (lstat p).result = 0 → (lstat q).result = 0 →
    FileId.ofStat (lstat p) = FileId.ofStat (lstat q) → p = q

section
variable {lstat : Path → Stat} {v : LogView} {paths : Set Path}

theorem LogView.applyAll_commands (calls : List LogCall) (hash : Hash) :
    (LogView.empty.applyAll lstat calls).commands hash = loggedCommand calls hash := by
  induction calls using reverseRecOn with
  | nil => rfl
  | append_singleton calls c ih =>
    rw [applyAll_concat]
    unfold loggedCommand at ih ⊢
    rw [flatMap_append, flatMap_singleton]
    have hset : ∀ (v : LogView) (hash' : Hash) (command : Option LoggedCommand),
        v.commands = (LogView.empty.applyAll lstat calls).commands →
        (v.setCommand hash' command).commands hash =
          (lastEvent (calls.flatMap LogCall.commandEvents ++ [(hash', command)]) hash).join := by
      intro v hash' command hv
      by_cases heq : hash' = hash
      · subst heq
        rw [lastEvent_concat_self, setCommand_commands, update_self, join_some]
      · rw [lastEvent_concat_of_ne _ _ heq, setCommand_commands, update_of_ne (Ne.symm heq), hv, ih]
    cases c with
    | createdDirectory path =>
      simp only [LogCall.commandEvents, append_nil, apply, addDirectory_commands, addPath_commands, ih]
    | removedDirectory path =>
      simp only [LogCall.commandEvents, append_nil, apply]
      split <;> simp only [removeDirectory_commands, ih]
    | ranCommand c =>
      exact hset _ c.buildStepHash (some c.logged) (by rw [addFiles_commands, addFiles_commands])
    | cleanedCommand h => exact hset _ h none rfl

/-- The directories of a view are those that were created last, and their paths are known. -/
structure LogView.Follows (lstat : Path → Stat) (paths : Set Path) (v : LogView)
    (events : List (Path × Bool)) : Prop where
  directories : ∀ id path, v.directories id = some path ↔
    (lstat path).result = 0 ∧ FileId.ofStat (lstat path) = id ∧ lastEvent events path = some true
  known : ∀ path, lastEvent events path = some true → v.known path = true ∧ path ∈ paths

namespace LogView.Follows
variable {events : List (Path × Bool)} {path : Path}

theorem addPath (h : v.Follows lstat paths events) (path : Path) :
    (v.addPath path).Follows lstat paths events where
  directories := h.directories
  known p hp := by
    refine ⟨?_, (h.known p hp).2⟩
    by_cases heq : p = path
    · rw [heq, addPath_known, update_self]
    · rw [addPath_known, update_of_ne heq, (h.known p hp).1]

theorem addDirectory (h : v.Follows lstat paths events) (hdistinct : DistinctFiles lstat paths) (hpath : path ∈ paths)
    (hknown : v.known path = true) :
    (v.addDirectory lstat path).Follows lstat paths (events ++ [(path, true)]) where
  directories id q := by
    by_cases hexists : (lstat path).result = 0
    · rw [addDirectory_directories lstat path v hexists]
      by_cases hid : id = FileId.ofStat (lstat path)
      · -- A directory that is there under this id already has the same path.
        subst hid
        rw [update_self]
        have hvalue : (v.directories (FileId.ofStat (lstat path))).getD path = path := by
          cases hold : v.directories (FileId.ofStat (lstat path)) with
          | none => rfl
          | some r =>
            obtain ⟨hrexists, hrid, hrlast⟩ := (h.directories _ r).mp hold
            exact hdistinct r (h.known r hrlast).2 path hpath hrexists hexists hrid
        rw [hvalue, some.injEq]
        constructor
        · rintro rfl
          exact ⟨hexists, rfl, lastEvent_concat_self _ _ _⟩
        · rintro ⟨hqexists, hqid, hqlast⟩
          by_contra hq
          rw [lastEvent_concat_of_ne _ _ hq] at hqlast
          exact hq (hdistinct q (h.known q hqlast).2 path hpath hqexists hexists hqid).symm
      · rw [update_of_ne hid, h.directories]
        by_cases hq : path = q
        · subst hq
          simp only [Ne.symm hid, false_and, and_false]
        · rw [lastEvent_concat_of_ne _ _ hq]
    · rw [addDirectory_of_missing lstat path v hexists, h.directories]
      by_cases hq : path = q
      · subst hq
        simp only [hexists, false_and]
      · rw [lastEvent_concat_of_ne _ _ hq]
  known p hp := by
    rw [addDirectory_known]
    by_cases hq : path = p
    · subst hq
      exact ⟨hknown, hpath⟩
    · rw [lastEvent_concat_of_ne _ _ hq] at hp
      exact h.known p hp

theorem removeDirectory (h : v.Follows lstat paths events) (hdistinct : DistinctFiles lstat paths)
    (hpath : path ∈ paths) :
    (v.removeDirectory lstat path).Follows lstat paths (events ++ [(path, false)]) where
  directories id q := by
    have hnot : ∀ {r : Path}, lastEvent (events ++ [(path, false)]) r = some true ↔
        r ≠ path ∧ lastEvent events r = some true := by
      intro r
      by_cases hr : path = r
      · subst hr
        simp [lastEvent_concat_self]
      · simp only [lastEvent_concat_of_ne _ _ hr, ne_eq, Ne.symm hr, not_false_eq_true, true_and]
    rw [hnot]
    by_cases hexists : (lstat path).result = 0
    · rw [removeDirectory_directories lstat path v hexists]
      by_cases hid : id = FileId.ofStat (lstat path)
      · subst hid
        simp only [update_self, reduceCtorEq, false_iff]
        rintro ⟨hqexists, hqid, hq, hqlast⟩
        exact hq (hdistinct q (h.known q hqlast).2 path hpath hqexists hexists hqid)
      · rw [update_of_ne hid, h.directories]
        constructor
        · rintro ⟨hqexists, hqid, hqlast⟩
          refine ⟨hqexists, hqid, ?_, hqlast⟩
          rintro rfl
          exact hid hqid.symm
        · rintro ⟨hqexists, hqid, -, hqlast⟩
          exact ⟨hqexists, hqid, hqlast⟩
    · rw [removeDirectory_of_missing lstat path v hexists, h.directories]
      constructor
      · rintro ⟨hqexists, hqid, hqlast⟩
        refine ⟨hqexists, hqid, ?_, hqlast⟩
        rintro rfl
        exact hexists hqexists
      · rintro ⟨hqexists, hqid, -, hqlast⟩
        exact ⟨hqexists, hqid, hqlast⟩
  known p hp := by
    rw [removeDirectory_known]
    by_cases hq : path = p
    · subst hq
      rw [lastEvent_concat_self] at hp
      cases hp
    · rw [lastEvent_concat_of_ne _ _ hq] at hp
      exact h.known p hp

theorem removeUnknown (h : v.Follows lstat paths events) (hunknown : v.known path = false) :
    v.Follows lstat paths (events ++ [(path, false)]) := by
  have hsame : ∀ q, lastEvent (events ++ [(path, false)]) q = some true ↔ lastEvent events q = some true := by
    intro q
    by_cases hq : path = q
    · subst hq
      rw [lastEvent_concat_self]
      refine iff_of_false (by simp) fun hlast => ?_
      rw [(h.known path hlast).1] at hunknown
      cases hunknown
    · rw [lastEvent_concat_of_ne _ _ hq]
  exact ⟨fun id q => by rw [hsame, h.directories], fun p hp => h.known p ((hsame p).mp hp)⟩

theorem addOutputs (hdistinct : DistinctFiles lstat paths) {files : List (Path × Fingerprint)}
    (hfiles : ∀ file ∈ files, file.1 ∈ paths) (h : v.Follows lstat paths events) :
    (v.addFiles lstat .directoryAsDirectoryEntry files).Follows lstat paths (events ++ directoryOutputs files) := by
  induction files generalizing v events with
  | nil =>
    rw [show directoryOutputs [] = [] from rfl, append_nil]
    exact h
  | cons file files ih =>
    have hrest := fun file' hfile' => hfiles file' (mem_cons_of_mem file hfile')
    change ((v.addFile lstat .directoryAsDirectoryEntry file).addFiles lstat _ files).Follows _ _ _
    unfold LogView.addFile
    cases hdir : file.2.stat.isDir with
    | true =>
      have hevents : events ++ directoryOutputs (file :: files) =
          (events ++ [(file.1, true)]) ++ directoryOutputs files := by
        simp [directoryOutputs, hdir]
      rw [if_pos ⟨rfl, rfl⟩, hevents]
      refine ih hrest ((h.addPath file.1).addDirectory hdistinct (hfiles file mem_cons_self) ?_)
      rw [addPath_known, update_self]
    | false =>
      have hevents : directoryOutputs (file :: files) = directoryOutputs files := by
        simp [directoryOutputs, hdir]
      rw [if_neg (by simp), hevents]
      exact ih hrest (h.addPath file.1)

theorem addInputs (h : v.Follows lstat paths events) (files : List (Path × Fingerprint)) :
    (v.addFiles lstat .ignoreDirectory files).Follows lstat paths events := by
  induction files generalizing v with
  | nil => exact h
  | cons file files ih =>
    have hfile : v.addFile lstat .ignoreDirectory file = v.addPath file.1 := if_neg (by simp)
    change ((v.addFile lstat .ignoreDirectory file).addFiles lstat _ files).Follows _ _ _
    rw [hfile]
    exact ih (h.addPath file.1)

theorem apply (h : v.Follows lstat paths events) (hdistinct : DistinctFiles lstat paths) {c : LogCall}
    (hpaths : ∀ p ∈ c.paths, p ∈ paths) : (v.apply lstat c).Follows lstat paths (events ++ c.directoryEvents) := by
  cases c with
  | createdDirectory p =>
    refine (h.addPath p).addDirectory hdistinct (hpaths p (mem_singleton_self p)) ?_
    rw [addPath_known, update_self]
  | removedDirectory p =>
    simp only [LogView.apply]
    split
    · exact h.removeDirectory hdistinct (hpaths p (mem_singleton_self p))
    · rename_i hunknown
      exact h.removeUnknown (Bool.not_eq_true _ ▸ hunknown)
  | ranCommand c =>
    have houtputs : ∀ file ∈ c.outputFiles, file.1 ∈ paths := fun file hfile =>
      hpaths file.1 (mem_map_of_mem (mem_append_left _ hfile))
    have hfiles := (h.addOutputs hdistinct houtputs).addInputs c.inputFiles
    exact ⟨hfiles.directories, hfiles.known⟩
  | cleanedCommand hash =>
    rw [LogCall.directoryEvents, append_nil]
    exact ⟨h.directories, h.known⟩

theorem applyAll (hdistinct : DistinctFiles lstat paths) {calls : List LogCall}
    (hpaths : ∀ c ∈ calls, ∀ p ∈ c.paths, p ∈ paths) :
    (LogView.empty.applyAll lstat calls).Follows lstat paths (calls.flatMap LogCall.directoryEvents) := by
  induction calls using reverseRecOn with
  | nil => exact ⟨by simp [LogView.applyAll, LogView.empty], by simp⟩
  | append_singleton calls c ih =>
    rw [applyAll_concat, flatMap_append, flatMap_singleton]
    exact (ih fun c' hc' => hpaths c' (mem_append_left _ hc')).apply hdistinct
      (hpaths c (mem_append_right _ (mem_singleton_self c)))

end LogView.Follows
end

section
variable (order : EvalOrder) (lstat : Path → Stat) {calls : List LogCall}

theorem mirrors_emptyLog : Mirrors emptyLog {} where
  parseData := rfl
  coherent :=
    { path := fun _ _ h => nomatch h
      named := fun _ h => nomatch h
      fingerprint := fun _ _ h => nomatch h
      notDir := fun _ _ h => nomatch h
      index := fun _ _ h => nomatch h
      paths := zero_le _
      fingerprints := Nat.two_pow_pos 32 }

theorem shows_empty : ({} : Parsing).Shows LogView.empty where
  represents := ⟨fun _ => .none, fun _ => rfl⟩
  known _ := rfl

theorem unpadded_of_calls (hnul : ∀ c ∈ calls, ∀ path ∈ c.paths, 0 ∉ path) :
    ∀ c ∈ calls, ∀ path ∈ c.paths, Unpadded path :=
  fun c hc path hpath => unpadded_of_nul (hnul c hc path hpath)

section
variable (hpaths : ∀ c ∈ calls, ∀ path ∈ c.paths, Unpadded path)
include hpaths

theorem advances_calls (hroom : Parsing.Room {} (emptyLog.calls calls).written) :
    ∃ st, Advances order lstat (emptyLog.calls calls).written (LogView.applyAll lstat · calls) {} st ∧
      Mirrors (emptyLog.calls calls) st := by
  have hcalls : Emits order lstat _ _ _ _ _ := emits_calls calls hpaths emptyLog
  obtain ⟨rs, hwritten, -, hstep⟩ := hcalls
  have hrs : (emptyLog.calls calls).written = rs := hwritten
  rw [hrs] at hroom ⊢
  obtain ⟨st, hadvances, hmirrors, -⟩ := hstep {} mirrors_emptyLog trivial hroom
  exact ⟨st, hadvances, hmirrors⟩

theorem reads_calls (hroom : Parsing.Room {} (emptyLog.calls calls).written) :
    ∃ st, Reads logFraming (Parsing.parseEntry order lstat) {}
        ((emptyLog.calls calls).written.flatMap Record.bytes) st ∧
      Mirrors (emptyLog.calls calls) st ∧ st.Shows (LogView.empty.applyAll lstat calls) := by
  obtain ⟨st, hadvances, hmirrors⟩ := advances_calls order lstat hpaths hroom
  exact ⟨st, hadvances.reads, hmirrors, hadvances.shows _ shows_empty⟩

theorem stream_calls :
    (emptyLog.calls calls).stream = fileHeader ++ (emptyLog.calls calls).written.flatMap Record.bytes := by
  have hcalls : Emits .valueFirst (fun _ => {}) _ _ _ _ _ := emits_calls calls hpaths emptyLog
  obtain ⟨rs, -, hexisting, -⟩ := hcalls
  rw [stream, hexisting]
  rfl

end

theorem parse_of_reads {order : EvalOrder} {lstat : Path → Stat} {bytes : Bytes} {st : Parsing}
    (h : Reads logFraming (Parsing.parseEntry order lstat) {} bytes st) :
    parsePersistentInvocationLog order lstat (some (fileHeader ++ bytes)) =
      .ok (st.result "", some (fileHeader ++ bytes)) :=
  parse_of_loop h.run_eq (append_nil bytes).symm fun _ h => nomatch h

/-- What a parse of the log of some calls gives, if the log fits into its format: for each
step the last command that was logged and not cleaned, and the existing directories that were
last created. -/
theorem parse_calls (hnul : ∀ c ∈ calls, ∀ path ∈ c.paths, 0 ∉ path)
    (hdistinct : DistinctFiles lstat {path | ∃ c ∈ calls, path ∈ c.paths})
    (hroom : Parsing.Room {} (emptyLog.calls calls).written) :
    ∃ result, parsePersistentInvocationLog order lstat (some (emptyLog.calls calls).stream) =
        .ok (result, some (emptyLog.calls calls).stream) ∧ result.warning = "" ∧
      (∀ hash, Option.Rel (InvocationEntry.RefersTo result.invocations.fingerprints)
        (result.invocations.entries.lookup hash) (loggedCommand calls hash)) ∧
      (∀ id path, result.invocations.createdDirectories.lookup id = some path ↔
        (lstat path).result = 0 ∧ FileId.ofStat (lstat path) = id ∧ isCreated calls path) := by
  have hpaths := unpadded_of_calls hnul
  obtain ⟨st, hreads, -, hshows⟩ := reads_calls order lstat hpaths hroom
  have hfollows := LogView.Follows.applyAll hdistinct fun c hc path hpath => ⟨c, hc, hpath⟩
  rw [stream_calls hpaths]
  refine ⟨st.result "", parse_of_reads hreads, rfl, fun hash => ?_, fun id path => ?_⟩
  · rw [← LogView.applyAll_commands]
    exact hshows.represents.commands hash
  · exact (Iff.of_eq (congrArg (· = some path) (hshows.represents.directories id))).trans
      (hfollows.directories id path)

end

/-- A directory that is created, and a command that writes a file next to it. -/
theorem parse_calls_of_command : let lstat : Path → Stat := fun path =>
      if path = [100] then { metadata := { ino := 7, dev := 1 } } else { result := ENOENT }
    let output : Path × Fingerprint := ([97], { stat := { size := 1, ino := 2, mode := S_IFREG } })
    let calls : List LogCall := [.createdDirectory [100], .ranCommand ⟨Hash.zero, [output], [([98], {})], [3], []⟩]
    ∃ result, parsePersistentInvocationLog .slotFirst lstat (some (emptyLog.calls calls).stream) =
        .ok (result, some (emptyLog.calls calls).stream) ∧
      Option.Rel (InvocationEntry.RefersTo result.invocations.fingerprints)
        (result.invocations.entries.lookup Hash.zero) (some ⟨[output], [([98], {})], [3], []⟩) ∧
      result.invocations.createdDirectories.lookup ⟨7, 1⟩ = some [100] := by
  intro lstat output calls
  have hexists : ∀ {path : Path}, (lstat path).result = 0 → path = [100] := by
    intro path h
    by_contra hne
    simp only [lstat, hne, if_false] at h
    cases h
  obtain ⟨result, hparse, -, hcommands, hdirectories⟩ := parse_calls .slotFirst lstat
    (by decide : ∀ c ∈ calls, ∀ path ∈ c.paths, 0 ∉ path)
    (fun p _ q _ hp hq _ => (hexists hp).trans (hexists hq).symm)
    ⟨by decide, by decide, by decide⟩
  have hlogged : loggedCommand calls Hash.zero = some ⟨[output], [([98], {})], [3], []⟩ := by decide
  refine ⟨result, hparse, hlogged ▸ hcommands Hash.zero, (hdirectories _ _).mpr ⟨by decide, by decide, ?_⟩⟩
  unfold isCreated
  decide

/-- A path for each number, made of its digits so that no byte is zero. -/
def numberedPath (i : Nat) : Path := (digits 128 i).map fun d => UInt8.ofNat (d + 1)

def pathNumber (path : Path) : Nat := ofDigits 128 (path.map fun b => b.toNat - 1)

def numberedLstat (path : Path) : Stat := { metadata := { ino := UInt64.ofNat (pathNumber path), dev := 1 } }

def numberedCalls (n : Nat) : List LogCall := (range n).map fun i => .createdDirectory (numberedPath i)

private theorem toNat_digit {i d : Nat} (hd : d ∈ digits 128 i) : (UInt8.ofNat (d + 1)).toNat = d + 1 := by
  have hlt : d < 128 := digits_lt_base (by decide) hd
  rw [UInt8.toNat_ofNat', mod_eq_of_lt (by omega)]

theorem pathNumber_numberedPath (i : Nat) : pathNumber (numberedPath i) = i := by
  have hdigits : (numberedPath i).map (fun b => b.toNat - 1) = digits 128 i := by
    rw [numberedPath, List.map_map]
    refine (map_congr_left fun d hd => ?_).trans (map_id _)
    rw [comp_apply, toNat_digit hd, Nat.add_sub_cancel]
    rfl
  rw [pathNumber, hdigits, ofDigits_digits]

theorem numberedPath_nul (i : Nat) : 0 ∉ numberedPath i := by
  intro hmem
  obtain ⟨d, hd, hzero⟩ := mem_map.mp hmem
  have htoNat := toNat_digit hd
  rw [hzero] at htoNat
  cases htoNat

variable {n : Nat}

theorem mem_numberedCalls_paths {c : LogCall} {path : Path} (hc : c ∈ numberedCalls n) (hpath : path ∈ c.paths) :
    ∃ i < n, path = numberedPath i := by
  obtain ⟨i, hi, rfl⟩ := mem_map.mp hc
  exact ⟨i, mem_range.mp hi, mem_singleton.mp hpath⟩

theorem numberedPath_injective {i j : Nat} (h : numberedPath i = numberedPath j) : i = j := by
  rw [← pathNumber_numberedPath i, h, pathNumber_numberedPath]

theorem numberedFile_ne {i j : Nat} (hi : i < 2 ^ 64) (hj : j < 2 ^ 64) (hij : i ≠ j) :
    FileId.ofStat (numberedLstat (numberedPath i)) ≠ FileId.ofStat (numberedLstat (numberedPath j)) := by
  intro hid
  have hino := congrArg (fun id => id.ino.toNat) hid
  simp only [FileId.ofStat, numberedLstat, pathNumber_numberedPath, UInt64.toNat_ofNat'] at hino
  rw [mod_eq_of_lt hi, mod_eq_of_lt hj] at hino
  exact hij hino

theorem numberedCalls_distinct (hn : n ≤ 2 ^ 64) :
    DistinctFiles numberedLstat {path | ∃ c ∈ numberedCalls n, path ∈ c.paths} := by
  rintro p ⟨c, hc, hp⟩ q ⟨c', hc', hq⟩ - - hid
  obtain ⟨i, hi, rfl⟩ := mem_numberedCalls_paths hc hp
  obtain ⟨j, hj, rfl⟩ := mem_numberedCalls_paths hc' hq
  by_contra hne
  exact numberedFile_ne (by omega) (by omega) (fun hij => hne (congrArg numberedPath hij)) hid

/-- The records of the calls; the ids in them wrap around. -/
def numberedRecords (n : Nat) : List Record :=
  (range n).flatMap fun i => [.path (numberedPath i), .createdDir (UInt32.ofNat i)]

theorem numberedRecords_succ (n : Nat) :
    numberedRecords (n + 1) = numberedRecords n ++ [.path (numberedPath n), .createdDir (UInt32.ofNat n)] := by
  rw [numberedRecords, range_succ, flatMap_append, flatMap_singleton]
  rfl

theorem numberedCalls_writer (n : Nat) : (emptyLog.calls (numberedCalls n)).written = numberedRecords n ∧
    (emptyLog.calls (numberedCalls n)).pathEntryCount = UInt32.ofNat n ∧
    ∀ path, ((emptyLog.calls (numberedCalls n)).pathIds.lookup path).isSome ↔ ∃ i < n, path = numberedPath i := by
  induction n with
  | zero =>
    refine ⟨rfl, rfl, fun path => iff_of_false (by exact Bool.false_ne_true) ?_⟩
    rintro ⟨i, hi, -⟩
    exact absurd hi (not_lt_zero i)
  | succ n ih =>
    have hcalls : emptyLog.calls (numberedCalls (n + 1)) =
        (emptyLog.calls (numberedCalls n)).createdDirectory (numberedPath n) := by
      rw [numberedCalls, range_succ, map_append, calls, foldl_append]
      rfl
    rw [hcalls]
    generalize emptyLog.calls (numberedCalls n) = log at ih
    obtain ⟨hwritten, hcount, hids⟩ := ih
    have hnew : log.pathIds.lookup (numberedPath n) = none := by
      rw [← not_isSome_iff_eq_none, hids]
      rintro ⟨i, hi, heq⟩
      exact absurd (numberedPath_injective heq) (ne_of_gt hi)
    simp only [createdDirectory, ensurePathIsWritten, hnew]
    refine ⟨?_, ?_, fun path => ?_⟩
    · simp only [writeDirectoryEntry, write,
        writePathEntry, hwritten, hcount, numberedRecords_succ,
        append_assoc]
      rfl
    · simp only [writeDirectoryEntry, write,
        writePathEntry, hcount, uint32_ofNat_succ]
    · simp only [writeDirectoryEntry, write,
        writePathEntry]
      by_cases heq : path = numberedPath n
      · subst heq
        rw [Finmap.lookup_insert]
        exact iff_of_true rfl ⟨n, lt_succ_self n, rfl⟩
      · rw [Finmap.lookup_insert_of_ne _ heq, hids]
        constructor
        · rintro ⟨i, hi, h⟩
          exact ⟨i, lt_succ_of_lt hi, h⟩
        · rintro ⟨i, hi, rfl⟩
          refine ⟨i, ?_, rfl⟩
          have hne : i ≠ n := fun h => heq (congrArg numberedPath h)
          omega

theorem numberedRecords_fit (hn : n < 128 ^ 5) : (∀ r ∈ numberedRecords n, r.entrySize < 2 ^ 32) ∧
    (numberedRecords n).countP Record.isPath = n ∧
    (numberedRecords n).countP Record.isFingerprint = 0 := by
  induction n with
  | zero => exact ⟨fun r hr => (not_mem_nil hr).elim, rfl, rfl⟩
  | succ n ih =>
    obtain ⟨hsizes, hpaths, hfingerprints⟩ := ih (lt_of_succ_lt hn)
    rw [numberedRecords_succ]
    refine ⟨fun r hr => ?_, ?_, ?_⟩
    · rcases mem_append.mp hr with hr | hr
      · exact hsizes r hr
      · have hlen : (digits 128 n).length ≤ 5 := (digits_length_le_iff (by decide) n).mpr (lt_of_succ_lt hn)
        rcases mem_pair.mp hr with rfl | rfl
        · rw [Record.entrySize, Record.paddingBytes, numberedPath, length_map]
          omega
        · exact lt_of_lt_of_le (by decide : sizeofUInt32 < 2 ^ 3) (by decide)
    · rw [countP_append, hpaths]
      rfl
    · rw [countP_append, hfingerprints]
      rfl

theorem numberedCalls_nul (n : Nat) : ∀ c ∈ numberedCalls n, ∀ path ∈ c.paths, 0 ∉ path := by
  intro c hc path hpath
  obtain ⟨i, -, rfl⟩ := mem_numberedCalls_paths hc hpath
  exact numberedPath_nul i

/-- The directory of the call after all ids are used up is not there: its record refers to
another path. -/
theorem reads_numberedCalls_wrapped (order : EvalOrder) (hn : n = 2 ^ 32) :
    ∃ st, Reads logFraming (Parsing.parseEntry order numberedLstat) {}
        ((emptyLog.calls (numberedCalls (n + 1))).written.flatMap Record.bytes) st ∧
      st.invocations.createdDirectories.lookup (FileId.ofStat (numberedLstat (numberedPath n))) = none := by
  obtain ⟨hwritten, -, hids⟩ := numberedCalls_writer n
  have hfit : n < 128 ^ 5 := by omega
  obtain ⟨hsizes, hpaths, hfingerprints⟩ := numberedRecords_fit hfit
  obtain ⟨st, hreads, hmirrors, hshows⟩ := reads_calls order numberedLstat
    (unpadded_of_calls (numberedCalls_nul n)) (by
      rw [hwritten]
      refine ⟨hsizes, ?_, by rw [hfingerprints]; decide⟩
      rw [hpaths, show ({} : Parsing).pathsById.length = 0 from rfl, zero_add]
      exact hn.le)
  have hids' : ∀ path, (st.pathIds.lookup path).isSome ↔ ∃ i < n, path = numberedPath i := by
    intro path
    rw [← hids path]
    exact Iff.of_eq (congrArg (fun data => ((data.pathIds.lookup path).isSome : Prop))
      hmirrors.parseData.symm)
  -- What the id of the last record stands for.
  have hfirst : ∃ j < n, st.pathsById[(UInt32.ofNat n).toNat]? = some (numberedPath j) := by
    have hzero : (UInt32.ofNat n).toNat = 0 := by
      rw [UInt32.toNat_ofNat', hn, mod_self]
    obtain ⟨id, hid⟩ := isSome_iff_exists.mp
      ((hids' (numberedPath 0)).mpr ⟨0, by omega, rfl⟩)
    have hlt := (List.getElem?_eq_some_iff.mp (hmirrors.coherent.path _ id hid)).1
    have hpos : 0 < st.pathsById.length := lt_of_le_of_lt (zero_le _) hlt
    obtain ⟨j, hj, heq⟩ := (hids' _).mp (hmirrors.coherent.named _ (getElem_mem hpos))
    refine ⟨j, hj, ?_⟩
    rw [hzero, getElem?_eq_getElem hpos, heq]
  obtain ⟨j, hj, hfirst⟩ := hfirst
  have hnone : st.invocations.createdDirectories.lookup
      (FileId.ofStat (numberedLstat (numberedPath n))) = none := by
    rw [hshows.represents.directories, eq_none_iff_forall_ne_some]
    intro path hpath
    have hfollows := LogView.Follows.applyAll (numberedCalls_distinct (by omega : n ≤ 2 ^ 64))
      fun c hc path hpath => ⟨c, hc, hpath⟩
    obtain ⟨-, hid, hlast⟩ := (hfollows.directories _ path).mp hpath
    obtain ⟨c, hc, hmem⟩ := (hfollows.known path hlast).2
    obtain ⟨i, hi, rfl⟩ := mem_numberedCalls_paths hc hmem
    exact numberedFile_ne (by omega) (by omega) (Nat.ne_of_lt hi) hid
  obtain ⟨hsizes', -, -⟩ := numberedRecords_fit (by omega : n + 1 < 128 ^ 5)
  rw [numberedRecords_succ] at hsizes'
  refine ⟨(((st.addPath (numberedPath n)).counted).createdDirectory numberedLstat
    (numberedPath j)).counted, ?_, ?_⟩
  · rw [(numberedCalls_writer (n + 1)).1, numberedRecords_succ, flatMap_append, ← hwritten]
    refine hreads.append ?_
    simp only [flatMap_cons, flatMap_nil, append_nil]
    refine .cons (frame_bytes _ (hsizes' _ (by simp))) (st.parseRecord_path order numberedLstat
      (unpadded_of_nul (numberedPath_nul n))) (.single (frame_bytes _ (hsizes' _ (by simp))) ?_)
    refine Parsing.parseRecord_createdDir order numberedLstat ?_
    exact List.getElem?_append_left (List.getElem?_eq_some_iff.mp hfirst).1 ▸ hfirst
  · have hne := numberedFile_ne (by omega) (by omega) (ne_of_gt hj)
    exact (Finmap.lookup_emplace_of_ne (numberedPath j) st.invocations.createdDirectories hne).trans
      hnone

/-- One call more than there are path ids: all sizes fit, yet the last directory is missing
from the parse result. -/
theorem parse_numberedCalls_misses_directory : let calls := numberedCalls (2 ^ 32 + 1)
    let path := numberedPath (2 ^ 32)
    (∀ c ∈ calls, ∀ path ∈ c.paths, 0 ∉ path) ∧
    DistinctFiles numberedLstat {path | ∃ c ∈ calls, path ∈ c.paths} ∧
    (∀ r ∈ (emptyLog.calls calls).written, r.entrySize < 2 ^ 32) ∧
    isCreated calls path ∧ (numberedLstat path).result = 0 ∧
    ∀ order, ∃ result, parsePersistentInvocationLog order numberedLstat
        (some (emptyLog.calls calls).stream) = .ok (result, some (emptyLog.calls calls).stream) ∧
      result.invocations.createdDirectories.lookup (FileId.ofStat (numberedLstat path)) ≠
        some path := by
  generalize hn : 2 ^ 32 = n
  intro calls path
  have hnul := numberedCalls_nul (n + 1)
  refine ⟨hnul, numberedCalls_distinct (by omega), ?_, ?_, rfl, fun order => ?_⟩
  · rw [(numberedCalls_writer (n + 1)).1]
    intro r hr
    have hsize := (numberedRecords_fit (by omega : n + 1 < 128 ^ 5)).1 r hr
    omega
  · have hevents : calls.flatMap LogCall.directoryEvents =
        (numberedCalls n).flatMap LogCall.directoryEvents ++ [(path, true)] := by
      simp only [calls, numberedCalls, range_succ, map_append, map_cons, map_nil,
        flatMap_append, flatMap_singleton]
      rfl
    rw [isCreated, hevents, lastEvent_concat_self]
  · obtain ⟨st, hreads, hnone⟩ := reads_numberedCalls_wrapped order hn.symm
    rw [stream_calls (unpadded_of_calls hnul)]
    refine ⟨_, parse_of_reads hreads, fun hsome => ?_⟩
    rw [Parsing.result, hnone] at hsome
    cases hsome

end Shuriken
