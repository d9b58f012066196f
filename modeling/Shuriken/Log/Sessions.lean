import Shuriken.Log.Overtaking

/-!
# The commands of a session

What a log file says about commands after a log was opened, used through a delayed log, and closed.
-/
namespace Shuriken

open DelayedInvocationLog

def LogCall.applyCommand (commands : Hash → Option LoggedCommand) : LogCall → Hash → Option LoggedCommand
  | .ranCommand c => Function.update commands c.buildStepHash (some c.logged)
  | .cleanedCommand hash => Function.update commands hash none
  | .createdDirectory _ | .removedDirectory _ => commands

def sessionCommands (before : Hash → Option LoggedCommand) (calls : List (Int64 × LogCall)) :
    Hash → Option LoggedCommand :=
  calls.foldl (fun commands c => LogCall.applyCommand commands c.2.notRacilyClean) before

theorem sessionCommands_append (before : Hash → Option LoggedCommand) (calls calls' : List (Int64 × LogCall)) :
    sessionCommands before (calls ++ calls') = sessionCommands (sessionCommands before calls) calls' :=
  List.foldl_append

theorem sessionCommands_directories (before : Hash → Option LoggedCommand) {calls : List (Int64 × LogCall)}
    (h : ∀ c ∈ calls, c.2.isCommand = false) : sessionCommands before calls = before := by
  induction calls with
  | nil => rfl
  | cons head calls ih =>
    obtain ⟨now, c⟩ := head
    obtain ⟨hc, hcalls⟩ := List.forall_mem_cons.mp h
    cases c with
    | createdDirectory | removedDirectory => exact ih hcalls
    | ranCommand command => cases hc
    | cleanedCommand hash => cases hc

namespace LogView

theorem apply_commands (lstat : Path → Stat) (v : LogView) (c : LogCall) :
    (v.apply lstat c).commands = LogCall.applyCommand v.commands c := by
  cases c with
  | createdDirectory path => simp only [apply, addDirectory_commands, addPath_commands, LogCall.applyCommand]
  | removedDirectory path =>
    simp only [apply, LogCall.applyCommand]
    split
    · exact removeDirectory_commands lstat path v
    · rfl
  | ranCommand c => simp only [apply, setCommand_commands, addFiles_commands, LogCall.applyCommand]
  | cleanedCommand hash => rfl

theorem applyAll_applyCommand (lstat : Path → Stat) (v : LogView) (calls : List LogCall) :
    (v.applyAll lstat calls).commands = calls.foldl LogCall.applyCommand v.commands := by
  induction calls generalizing v with
  | nil => rfl
  | cons c calls ih => exact (ih (v.apply lstat c)).trans (by rw [apply_commands, List.foldl_cons])

end LogView

namespace DelayedInvocationLog

theorem settled_run (log : DelayedInvocationLog (Hash → Option LoggedCommand)) (calls : List (Int64 × LogCall)) :
    (log.run (fun _ => LogCall.applyCommand) calls).settled LogCall.applyCommand =
      sessionCommands (log.settled LogCall.applyCommand) calls := by
  induction calls generalizing log with
  | nil => rfl
  | cons c calls ih =>
    refine (ih _).trans (congrArg (sessionCommands · calls) ?_)
    obtain ⟨now, c⟩ := c
    cases hc : c.isCommand with
    | true => exact settled_command now log hc
    | false =>
      cases c with
      | createdDirectory | removedDirectory => rfl
      | ranCommand | cleanedCommand => cases hc

variable {calls : List (Int64 × LogCall)}

theorem timestamps_run {ι : Type} {inner : Int64 → ι → LogCall → ι} {log : DelayedInvocationLog ι}
    (hcalls : ∀ c ∈ calls, c.1 < Int64.maxValue) (h : ∀ entry ∈ log.delayedEntries, entry.timestamp < Int64.maxValue) :
    ∀ entry ∈ (log.run inner calls).delayedEntries, entry.timestamp < Int64.maxValue := by
  induction calls generalizing log with
  | nil => exact h
  | cons c calls ih =>
    obtain ⟨hc, hcalls⟩ := List.forall_mem_cons.mp hcalls
    exact ih hcalls (timestamps_call (fun _ => hc) h)

end DelayedInvocationLog

def Invocations.logged (invocations : Invocations) (hash : Hash) : Option LoggedCommand :=
  (invocations.entries.lookup hash).map fun entry =>
    { outputs := entry.outputFiles.filterMap (fileAt invocations.fingerprints)
      inputs := entry.inputFiles.filterMap (fileAt invocations.fingerprints)
      ignoredDependencies := entry.ignoredDependencies
      additionalDependencies := entry.additionalDependencies }

theorem filterMap_fileAt {fingerprints files : List (Path × Fingerprint)} {indices : List UInt32}
    (h : indices.map (fileAt fingerprints) = files.map some) : indices.filterMap (fileAt fingerprints) = files := by
  calc indices.filterMap (fileAt fingerprints)
      = (indices.map (fileAt fingerprints)).filterMap id := by rw [List.filterMap_map]; rfl
    _ = files := by rw [h, List.filterMap_map]; exact List.filterMap_some

theorem Invocations.Represents.logged_eq {invocations : Invocations} {v : LogView}
    (h : invocations.Represents v) : invocations.logged = v.commands := by
  funext hash
  have hcommand := h.commands hash
  rw [Invocations.logged]
  generalize invocations.entries.lookup hash = entry at hcommand ⊢
  generalize v.commands hash = command at hcommand ⊢
  cases hcommand with
  | none => rfl
  | some hrefers =>
    rw [Option.map_some, filterMap_fileAt hrefers.outputs, filterMap_fileAt hrefers.inputs, hrefers.ignored,
      hrefers.additional]

section
variable {order : EvalOrder} {lstat : Path → Stat} {front : List Record} {v : LogView}
  {log : PersistentInvocationLog}

theorem parse_session (hlog : log.Opened order lstat front v) {calls : List (Int64 × LogCall)} (destroyed : Int64)
    (hnul : ∀ c ∈ calls, ∀ path ∈ c.2.paths, 0 ∉ path) (hclock : ∀ c ∈ calls, c.1 < Int64.maxValue) :
    let closed := ((mk log []).lifetime (fun _ => PersistentInvocationLog.call) calls
      destroyed).innerLog
    Parsing.Room {} (front ++ closed.written) →
    ∃ result v', parsePersistentInvocationLog order lstat (some closed.stream) = .ok (result, some closed.stream) ∧
      result.invocations.Represents v' ∧ v'.commands = sessionCommands v.commands calls := by
  intro closed hroom
  have hclosed : closed = log.calls ((passedCalls calls destroyed).map Prod.snd) :=
    lifetime_eq_passedCalls _ log calls destroyed
  rw [hclosed] at hroom ⊢
  obtain ⟨result, hparse, -, hrepresents⟩ := parse_continued hlog (paths_passedCalls destroyed hnul) hroom
  refine ⟨result, _, hparse, hrepresents, ?_⟩
  rw [LogView.applyAll_applyCommand, ← lifetime_eq_passedCalls, lifetime,
    destroy_eq (timestamps_run hclock (List.forall_mem_nil _))]
  exact settled_run ⟨v.commands, []⟩ calls

end

/-- The log file is what calls have left, or there is none. -/
inductive LeftBy : List LogCall → Option Bytes → Prop
  | absent : LeftBy [] none
  | written (calls : List LogCall) : LeftBy calls (some (emptyLog.calls calls).stream)

/-- Such a file can be parsed and the log be opened. What it says about commands does not depend on
the files that there are. -/
theorem LeftBy.opened {calls : List LogCall} {file : Option Bytes} (h : LeftBy calls file)
    (hnul : ∀ c ∈ calls, ∀ path ∈ c.paths, 0 ∉ path) (hroom : Parsing.Room {} (emptyLog.calls calls).written)
    (order : EvalOrder) (lstat : Path → Stat) {result : InvocationLogParseResult} {left : Option Bytes}
    (hparse : parsePersistentInvocationLog order lstat file = .ok (result, left)) (order' : EvalOrder)
    (lstat' : Path → Stat) :
    ∃ v, (openPersistentInvocationLog (left.getD []) result.parseData).Opened order' lstat'
        (emptyLog.calls calls).written v ∧
      v.commands = result.invocations.logged := by
  cases h with
  | absent =>
    cases hparse
    exact ⟨_, opened_emptyLog order' lstat', rfl⟩
  | written =>
    have hpaths := unpadded_of_calls hnul
    obtain ⟨st, hadvances, hmirrors⟩ := advances_calls order lstat hpaths hroom
    obtain ⟨st', hadvances', hmirrors'⟩ := advances_calls order' lstat' hpaths hroom
    have hparsed := parse_of_reads hadvances.reads
    rw [← stream_calls hpaths, hparse] at hparsed
    cases hparsed
    refine ⟨LogView.empty.applyAll lstat' calls, ⟨?_, rfl, st', hadvances'.toReaches,
      hmirrors.parseData.symm.trans hmirrors'.parseData, hadvances'.shows _ shows_empty⟩, ?_⟩
    · rw [openPersistentInvocationLog, Option.getD_some, if_neg, stream_calls hpaths]
      rw [stream_calls hpaths, List.length_append, show fileHeader.length = 16 by decide]
      omega
    · rw [show (st.result "").invocations = st.invocations from rfl,
        (hadvances.shows _ shows_empty).represents.logged_eq, LogView.applyAll_applyCommand,
        LogView.applyAll_applyCommand]

/-- A log that is opened again goes on where the file ends, whichever files there are then. -/
theorem reopened_log_continues {order : EvalOrder} {lstat lstat' : Path → Stat} {calls : List LogCall}
    {file left : Option Bytes} {result : InvocationLogParseResult} (hleft : LeftBy calls file)
    (hparse : parsePersistentInvocationLog order lstat file = .ok (result, left)) {more : List (Int64 × LogCall)}
    (hnul : ∀ c ∈ calls ++ more.map Prod.snd, ∀ path ∈ c.paths, 0 ∉ path) (hclock : ∀ c ∈ more, c.1 < Int64.maxValue)
    (destroyed : Int64) :
    let log := openPersistentInvocationLog (left.getD []) result.parseData
    let closed := ((mk log []).lifetime (fun _ => PersistentInvocationLog.call) more
      destroyed).innerLog
    Parsing.Room {} ((emptyLog.calls calls).written ++ closed.written) →
    ∃ result', parsePersistentInvocationLog order lstat' (some closed.stream) = .ok (result', some closed.stream) ∧
      result'.invocations.logged = sessionCommands result.invocations.logged more := by
  intro log closed hroom
  obtain ⟨hcalls, hmore⟩ := List.forall_mem_append.mp hnul
  obtain ⟨v, hopened, hv⟩ := hleft.opened hcalls hroom.left order lstat hparse order lstat'
  obtain ⟨result', v', hparse', hrepresents, hv'⟩ :=
    parse_session hopened destroyed (List.forall_mem_map.mp hmore) hclock hroom
  exact ⟨result', hparse', by rw [hrepresents.logged_eq, hv', hv]⟩

def ranOnce (hash : Hash) : LogCall := .ranCommand ⟨hash, [([97], {})], [([98], {})], [3], []⟩

def otherHash : Hash := ⟨List.replicate 20 1, by decide⟩

/-- The command that the log has is cleaned, and another one runs. -/
theorem reopened_log_continues_of_two_commands :
    LeftBy [.createdDirectory [100], ranOnce .zero]
      (some (emptyLog.calls [.createdDirectory [100], ranOnce .zero]).stream) ∧
    ∃ file result, parsePersistentInvocationLog .valueFirst (fun _ => {}) (some file) = .ok (result, some file) ∧
      result.invocations.logged .zero = none ∧ (result.invocations.logged otherHash).isSome = true := by
  let calls : List LogCall := [.createdDirectory [100], ranOnce .zero]
  let more : List (Int64 × LogCall) := [(1, .cleanedCommand .zero), (2, ranOnce otherHash)]
  let records (parsed : InvocationLogParseResult × Option Bytes) : List Record :=
    (emptyLog.calls calls).written ++ ((mk
      (openPersistentInvocationLog (parsed.2.getD []) parsed.1.parseData) []).lifetime
        (fun _ => PersistentInvocationLog.call) more 3).innerLog.written
  have hparse : ∃ parsed, parsePersistentInvocationLog .valueFirst (fun _ => {})
      (some (emptyLog.calls calls).stream) = .ok parsed ∧
      (∀ record ∈ records parsed, record.entrySize < 2 ^ 32) ∧ (records parsed).length < 2 ^ 32 := by
    decide +kernel
  obtain ⟨⟨result, left⟩, hparse, hsizes, hlength⟩ := hparse
  have hroom : Parsing.Room {} (records (result, left)) :=
    ⟨hsizes, by simpa using List.countP_le_length.trans hlength.le,
      by simpa using List.countP_le_length.trans_lt hlength⟩
  obtain ⟨result', hparse', hlogged⟩ := reopened_log_continues (.written calls) hparse
    (by decide : ∀ c ∈ calls ++ more.map Prod.snd, ∀ path ∈ c.paths, 0 ∉ path)
    (by decide : ∀ c ∈ more, c.1 < Int64.maxValue) 3 hroom
  exact ⟨.written calls, _, result', hparse', by rw [hlogged]; rfl, by rw [hlogged]; rfl⟩

end Shuriken
