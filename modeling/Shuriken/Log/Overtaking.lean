import Shuriken.Log.Delayed
import Shuriken.Log.Recovery

/-!
# Directories that overtake commands

A delayed log passes calls about directories on at once, so that they overtake the commands that are kept
back.
-/
namespace Shuriken
open Function List DelayedInvocationLog

namespace DelayedInvocationLog

def map {ι κ : Type} (g : ι → κ) (log : DelayedInvocationLog ι) : DelayedInvocationLog κ :=
  ⟨g log.innerLog, log.delayedEntries⟩

/-- The inner log if all delayed entries were written to it. -/
def settled {ι : Type} (innerCall : ι → LogCall → ι) (log : DelayedInvocationLog ι) : ι :=
  log.delayedEntries.foldl (fun inner entry => innerCall inner entry.write) log.innerLog

section
variable {ι κ : Type} {innerCall : ι → LogCall → ι} {innerCall' : κ → LogCall → κ} {g : ι → κ}

section
variable (hg : ∀ inner c, g (innerCall inner c) = innerCall' (g inner) c)
include hg

theorem writeEntries_map (now : Int64) (inner : ι) (entries : List DelayedEntry) :
    writeEntries innerCall' now (g inner) entries = (writeEntries innerCall now inner entries).map g := by
  induction entries generalizing inner with
  | nil => rfl
  | cons entry entries ih =>
    simp only [writeEntries]
    split
    · rfl
    · rw [← hg, ih]

theorem call_map (now : Int64) (log : DelayedInvocationLog ι) (c : LogCall) :
    (log.map g).call innerCall' now c = (log.call innerCall now c).map g := by
  cases c with
  | createdDirectory | removedDirectory => exact congrArg (mk · _) (hg _ _).symm
  | ranCommand | cleanedCommand => exact congrArg (push · _) (writeEntries_map hg now _ _)

end

theorem lifetime_map {inner : Int64 → ι → LogCall → ι} (hg : ∀ now i c, g (inner now i c) = innerCall' (g i) c)
    (log : DelayedInvocationLog ι) (calls : List (Int64 × LogCall)) (destroyed : Int64) :
    (log.map g).lifetime (fun _ => innerCall') calls destroyed = (log.lifetime inner calls destroyed).map g := by
  induction calls generalizing log with
  | nil => exact writeEntries_map (hg destroyed) _ _ _
  | cons c calls ih => rw [lifetime_cons, call_map (hg c.1), ih, lifetime_cons]

theorem lifetime_eq_passedCalls (innerCall : ι → LogCall → ι) (inner : ι)
    (calls : List (Int64 × LogCall)) (destroyed : Int64) :
    ((mk inner []).lifetime (fun _ => innerCall) calls destroyed).innerLog =
      ((passedCalls calls destroyed).map Prod.snd).foldl innerCall inner := by
  have hrecord : ∀ (now : Int64) (passed : List (Int64 × LogCall)) (c : LogCall),
      ((record now passed c).map Prod.snd).foldl innerCall inner =
        innerCall ((passed.map Prod.snd).foldl innerCall inner) c := by
    intro now passed c
    rw [record, map_append, foldl_append]
    rfl
  exact congrArg innerLog
    (lifetime_map (g := fun passed => (passed.map Prod.snd).foldl innerCall inner) hrecord ⟨[], []⟩ calls
      destroyed)

theorem lifetime_delayedEntries (innerCall : ι → LogCall → ι) (innerCall' : κ → LogCall → κ)
    (inner : ι) (inner' : κ) (calls : List (Int64 × LogCall)) (destroyed : Int64) :
    ((mk inner []).lifetime (fun _ => innerCall) calls destroyed).delayedEntries =
      ((mk inner' []).lifetime (fun _ => innerCall') calls destroyed).delayedEntries := by
  have hunit : ∀ {ι : Type} (innerCall : ι → LogCall → ι) (inner : ι),
      ((mk inner []).lifetime (fun _ => innerCall) calls destroyed).delayedEntries =
        ((mk () []).lifetime (fun _ _ _ => ()) calls destroyed).delayedEntries := fun _ inner =>
    (congrArg delayedEntries (lifetime_map (g := fun _ => ()) (fun _ _ _ => rfl) ⟨inner, []⟩ calls
      destroyed)).symm
  rw [hunit innerCall, hunit innerCall']

theorem settled_writeEntries (now : Int64) (inner : ι) (entries : List DelayedEntry) :
    (writeEntries innerCall now inner entries).settled innerCall = (mk inner entries).settled innerCall := by
  induction entries generalizing inner with
  | nil => rfl
  | cons entry entries ih =>
    rw [writeEntries]
    split
    · rfl
    · exact ih _

theorem settled_push (log : DelayedInvocationLog ι) (entry : DelayedEntry) :
    (log.push entry).settled innerCall = innerCall (log.settled innerCall) entry.write := by
  rw [settled, push, foldl_append]
  rfl

theorem settled_command (now : Int64) (log : DelayedInvocationLog ι) {c : LogCall} (hc : c.isCommand = true) :
    (log.call innerCall now c).settled innerCall = innerCall (log.settled innerCall) c.notRacilyClean := by
  obtain ⟨entry, -, hcall, hwrite⟩ := call_command now hc
  rw [hcall, settled_push, writeDelayedEntries, settled_writeEntries, hwrite]

theorem destroy_eq {log : DelayedInvocationLog ι} (h : ∀ entry ∈ log.delayedEntries, entry.timestamp < Int64.maxValue) :
    log.destroy innerCall = ⟨log.settled innerCall, []⟩ := by
  have hwrite := writeEntries_append innerCall Int64.maxValue log.innerLog h (forall_mem_nil _)
  rwa [append_nil] at hwrite

end
end DelayedInvocationLog

def LoggedCommand.notRacilyClean (c : LoggedCommand) : LoggedCommand := { c with
    outputs := setFingerprintNotRacilyClean c.outputs
    inputs := setFingerprintNotRacilyClean c.inputs }

/-- The views agree, but for racily clean flags that are cleared in the second one. -/
structure LogView.Clears (v v' : LogView) : Prop where
  known : v'.known = v.known
  directories : v'.directories = v.directories
  commands : ∀ hash, v'.commands hash = v.commands hash ∨
    v'.commands hash = (v.commands hash).map LoggedCommand.notRacilyClean

theorem logged_notRacilyClean (c : RanCommand) : c.notRacilyClean.logged = c.logged.notRacilyClean := by
  simp only [RanCommand.logged, RanCommand.notRacilyClean, LoggedCommand.notRacilyClean,
    setFingerprintNotRacilyClean, filter_map]
  rfl

theorem paths_notRacilyClean (c : LogCall) : c.notRacilyClean.paths = c.paths := by
  cases c with
  | ranCommand command =>
    simp only [LogCall.notRacilyClean, LogCall.paths, RanCommand.notRacilyClean,
      setFingerprintNotRacilyClean, map_append, map_map]
    rfl
  | createdDirectory | removedDirectory | cleanedCommand => rfl

namespace LogView
section
variable (lstat : Path → Stat)

theorem addFiles_notRacilyClean (type : WriteType) (files : List (Path × Fingerprint)) (v : LogView) :
    v.addFiles lstat type (setFingerprintNotRacilyClean files) = v.addFiles lstat type files := by
  rw [addFiles, setFingerprintNotRacilyClean, foldl_map]
  rfl

theorem addDirectory_withCommands (v : LogView) (commands : Hash → Option LoggedCommand) (path : Path) :
    ({ v with commands } : LogView).addDirectory lstat path = { v.addDirectory lstat path with commands } := by
  unfold addDirectory
  split <;> rfl

theorem removeDirectory_withCommands (v : LogView) (commands : Hash → Option LoggedCommand) (path : Path) :
    ({ v with commands } : LogView).removeDirectory lstat path = { v.removeDirectory lstat path with commands } := by
  unfold removeDirectory
  split <;> rfl

theorem addFiles_withCommands (v : LogView) (commands : Hash → Option LoggedCommand) (type : WriteType)
    (files : List (Path × Fingerprint)) :
    ({ v with commands } : LogView).addFiles lstat type files = { v.addFiles lstat type files with commands } := by
  induction files generalizing v with
  | nil => rfl
  | cons file files ih =>
    have hfile : ({ v with commands } : LogView).addFile lstat type file =
        { v.addFile lstat type file with commands } := by
      unfold addFile
      split
      · exact addDirectory_withCommands lstat (v.addPath file.1) commands file.1
      · rfl
    exact (congrArg (addFiles lstat type files) hfile).trans (ih _)

/-- Every call keeps views in agreement. -/
theorem Clears.apply {v v' : LogView} (h : v.Clears v') (c : LogCall) :
    (v.apply lstat c).Clears (v'.apply lstat c.notRacilyClean) := by
  obtain ⟨commands, rfl⟩ : ∃ commands, v' = { v with commands } := by
    obtain ⟨known, commands, directories⟩ := v'
    exact ⟨commands, by rw [← h.known, ← h.directories]⟩
  have hcommands := h.commands
  cases c with
  | createdDirectory path =>
    have hwith : ({ v with commands } : LogView).apply lstat (.createdDirectory path) =
        { v.apply lstat (.createdDirectory path) with commands } :=
      addDirectory_withCommands lstat (v.addPath path) commands path
    simp only [LogCall.notRacilyClean, hwith]
    refine ⟨rfl, rfl, ?_⟩
    simpa only [LogView.apply, addDirectory_commands, addPath_commands] using hcommands
  | removedDirectory path =>
    by_cases hknown : v.known path = true
    · simp only [LogCall.notRacilyClean, LogView.apply, hknown, if_true]
      have hwith := removeDirectory_withCommands lstat v commands path
      refine ⟨(congrArg LogView.known hwith).trans rfl, (congrArg LogView.directories hwith).trans rfl, ?_⟩
      simpa only [removeDirectory_commands] using hcommands
    · simpa only [LogCall.notRacilyClean, LogView.apply, if_neg hknown] using h
  | ranCommand command =>
    simp only [LogCall.notRacilyClean, LogView.apply, RanCommand.notRacilyClean,
      addFiles_notRacilyClean, addFiles_withCommands]
    refine ⟨rfl, rfl, fun hash => ?_⟩
    by_cases heq : hash = command.buildStepHash
    · subst heq
      right
      simp only [setCommand_commands, update_self, Option.map_some]
      exact congrArg some (logged_notRacilyClean command)
    · simpa only [setCommand_commands, update_of_ne heq, addFiles_commands] using
        hcommands hash
  | cleanedCommand hash =>
    refine ⟨rfl, rfl, fun hash' => ?_⟩
    by_cases heq : hash' = hash
    · subst heq
      left
      simp only [LogCall.notRacilyClean, LogView.apply, setCommand_commands, update_self]
    · simpa only [LogCall.notRacilyClean, LogView.apply, setCommand_commands, update_of_ne heq] using hcommands hash'

theorem addPath_commute (p q : Path) : Function.Commute (addPath p) (addPath q) := by
  intro v
  by_cases heq : p = q
  · rw [heq]
  · simp only [addPath, update_comm heq]

theorem addDirectory_addPath (p q : Path) : Function.Commute (addDirectory lstat p) (addPath q) := by
  intro v
  unfold addDirectory
  split <;> rfl

theorem addDirectory_setCommand (path : Path) (hash : Hash) (command : Option LoggedCommand) :
    Function.Commute (addDirectory lstat path) (setCommand hash command) := by
  intro v
  unfold addDirectory
  split <;> rfl

def SameFile (p q : Path) : Prop :=
  (lstat p).result = 0 ∧ (lstat q).result = 0 ∧ FileId.ofStat (lstat p) = FileId.ofStat (lstat q)

instance (p q : Path) : Decidable (SameFile lstat p q) := inferInstanceAs (Decidable (_ ∧ _ ∧ _))

variable {lstat}

/-- A directory keeps the first path that it was created as, so that two paths for one
directory cannot change places. -/
theorem addDirectory_commute {p q : Path} (h : SameFile lstat p q → p = q) :
    Function.Commute (addDirectory lstat p) (addDirectory lstat q) := by
  intro v
  by_cases hp : (lstat p).result = 0
  · by_cases hq : (lstat q).result = 0
    · by_cases hid : FileId.ofStat (lstat p) = FileId.ofStat (lstat q)
      · rw [h ⟨hp, hq, hid⟩]
      · simp only [addDirectory, hp, hq, if_true, update_of_ne hid, update_of_ne (Ne.symm hid), update_comm hid]
    · simp only [addDirectory_of_missing lstat q _ hq]
  · simp only [addDirectory_of_missing lstat p _ hp]

theorem removeDirectory_addDirectory {p q : Path} (h : ¬ SameFile lstat p q) :
    Function.Commute (removeDirectory lstat p) (addDirectory lstat q) := by
  intro v
  by_cases hp : (lstat p).result = 0
  · by_cases hq : (lstat q).result = 0
    · have hid : FileId.ofStat (lstat p) ≠ FileId.ofStat (lstat q) := fun hid => h ⟨hp, hq, hid⟩
      simp only [removeDirectory, addDirectory, hp, hq, if_true, update_of_ne (Ne.symm hid), update_comm hid]
    · simp only [addDirectory_of_missing lstat q _ hq]
  · simp only [removeDirectory_of_missing lstat p _ hp]

theorem commute_addFiles {g : LogView → LogView} {type : WriteType} {files : List (Path × Fingerprint)}
    (hpath : ∀ path, Function.Commute g (addPath path))
    (hdirectory : type = .directoryAsDirectoryEntry → ∀ file ∈ files, file.2.stat.isDir →
      Function.Commute g (addDirectory lstat file.1)) :
    Function.Commute g (addFiles lstat type files) := by
  induction files with
  | nil => exact fun _ => rfl
  | cons file files ih =>
    have hfile : Function.Commute g (addFile lstat type file) := by
      intro v
      unfold addFile
      split
      case isTrue hdir =>
          exact (hdirectory hdir.2 file mem_cons_self hdir.1 _).trans
            (congrArg (addDirectory lstat file.1) (hpath file.1 v))
      case isFalse => exact hpath file.1 v
    have hfiles := ih fun htype f hf => hdirectory htype f (mem_cons_of_mem _ hf)
    intro v
    exact (hfiles _).trans (congrArg (addFiles lstat type files) (hfile v))

end
end LogView

def LogCall.directories : LogCall → List Path
  | .ranCommand command => (command.outputFiles.filter (·.2.stat.isDir)).map Prod.fst
  | _ => []

theorem LogView.commute_apply {lstat : Path → Stat} {g : LogView → LogView} {c : LogCall}
    (hc : c.isCommand = true) (hpath : ∀ path, Function.Commute g (addPath path))
    (hcommand : ∀ hash command, Function.Commute g (setCommand hash command))
    (hdirectory : ∀ path ∈ c.directories, Function.Commute g (addDirectory lstat path)) :
    Function.Commute g (apply lstat · c) := by
  cases c with
  | createdDirectory path => cases hc
  | removedDirectory path => cases hc
  | cleanedCommand hash => exact hcommand hash none
  | ranCommand command =>
    have houtputs : Function.Commute g
        (addFiles lstat .directoryAsDirectoryEntry command.outputFiles) :=
      commute_addFiles hpath fun _ file hfile hdir => hdirectory file.1
        (mem_map_of_mem (mem_filter.mpr ⟨hfile, hdir⟩))
    have hinputs : Function.Commute g (addFiles lstat .ignoreDirectory command.inputFiles) :=
      commute_addFiles hpath fun htype => nomatch htype
    exact ((hcommand _ _).comp_right hinputs).comp_right houtputs

namespace DelayedInvocationLog
section
variable {lstat : Path → Stat}

theorem settled_commute {g : LogView → LogView} {entries : List DelayedEntry}
    (h : ∀ entry ∈ entries, Function.Commute g (LogView.apply lstat · entry.write)) (v : LogView) :
    (mk (g v) entries).settled (LogView.apply lstat) = g ((mk v entries).settled (LogView.apply lstat)) := by
  induction entries generalizing v with
  | nil => rfl
  | cons entry entries ih =>
    obtain ⟨hentry, hentries⟩ := forall_mem_cons.mp h
    refine Eq.trans ?_ (ih hentries _)
    exact congrArg (fun v => (mk v entries).settled (LogView.apply lstat)) (hentry v).symm

def pendingDirectories (log : DelayedInvocationLog LogView) : List Path :=
  log.delayedEntries.flatMap (·.write.directories)

def pendingPaths (log : DelayedInvocationLog LogView) : List Path := log.delayedEntries.flatMap (·.write.paths)

variable (lstat)

/-- A call does not interfere with the commands that it overtakes. -/
def Undisturbed (now : Int64) (log : DelayedInvocationLog LogView) : LogCall → Prop
  | .createdDirectory path => ∀ p ∈ log.pendingDirectories, LogView.SameFile lstat path p → path = p
  | .removedDirectory path =>
    (lstat path).result = 0 → (log.innerLog.known path = true ∨ path ∉ log.pendingPaths) ∧
      ∀ p ∈ log.pendingDirectories, ¬ LogView.SameFile lstat path p
  | .ranCommand _ | .cleanedCommand _ => now < Int64.maxValue

def Undisturbing : DelayedInvocationLog LogView → List (Int64 × LogCall) → Prop
  | _, [] => True
  | log, (now, c) :: calls =>
    log.Undisturbed lstat now c ∧ Undisturbing (log.call (LogView.apply lstat) now c) calls

instance (now : Int64) (log : DelayedInvocationLog LogView) (c : LogCall) : Decidable (log.Undisturbed lstat now c) :=
  match c with
  | .createdDirectory _ => inferInstanceAs (Decidable (∀ p ∈ _, _ → _))
  | .removedDirectory _ => inferInstanceAs (Decidable (_ → _ ∧ ∀ p ∈ _, _))
  | .ranCommand _ | .cleanedCommand _ => inferInstanceAs (Decidable (now < _))

instance decidableUndisturbing : ∀ (log : DelayedInvocationLog LogView) (calls : List (Int64 × LogCall)),
    Decidable (log.Undisturbing lstat calls)
  | _, [] => instDecidableTrue
  | log, (now, c) :: calls =>
    have := decidableUndisturbing (log.call (LogView.apply lstat) now c) calls
    inferInstanceAs (Decidable (log.Undisturbed lstat now c ∧ _))

variable {path : Path} {log : DelayedInvocationLog LogView} {now : Int64} {c : LogCall}

theorem known_settled (h : log.innerLog.known path = true) : (log.settled (LogView.apply lstat)).known path = true := by
  obtain ⟨v, entries⟩ := log
  induction entries generalizing v with
  | nil => exact h
  | cons entry entries ih => exact ih _ (LogView.known_apply lstat path v h)

theorem known_of_settled (h : (log.settled (LogView.apply lstat)).known path = true) :
    log.innerLog.known path = true ∨ path ∈ log.pendingPaths := by
  obtain ⟨v, entries⟩ := log
  induction entries generalizing v with
  | nil => exact .inl h
  | cons entry entries ih =>
    rw [pendingPaths, flatMap_cons, mem_append]
    rcases ih _ h with hknown | hmem
    · exact (LogView.known_of_apply lstat path v hknown).imp_right .inl
    · exact .inr (.inr hmem)

/-- One call, on the view that a delayed log comes to. -/
theorem settled_call (h : log.Undisturbed lstat now c) :
    (log.call (LogView.apply lstat) now c).settled (LogView.apply lstat) =
      (log.settled (LogView.apply lstat)).apply lstat c.notRacilyClean := by
  cases c with
  | ranCommand | cleanedCommand => exact settled_command now log rfl
  | createdDirectory path =>
    refine settled_commute (g := (LogView.apply lstat · (.createdDirectory path)))
      (fun entry hentry => LogView.commute_apply (isCommand_write entry) ?_ ?_ ?_) _
    · exact fun p => (LogView.addDirectory_addPath lstat path p).comp_left
        (LogView.addPath_commute path p)
    · exact fun hash command => (LogView.addDirectory_setCommand lstat path hash command).comp_left
        fun _ => rfl
    · exact fun p hp => (LogView.addDirectory_commute
        (h p (mem_flatMap.mpr ⟨entry, hentry, hp⟩))).comp_left
          (LogView.addDirectory_addPath lstat p path).symm
  | removedDirectory path =>
    by_cases hmissing : (lstat path).result = 0
    · obtain ⟨hpending, hsame⟩ := h hmissing
      by_cases hknown : log.innerLog.known path = true
      · have hcall : log.call (LogView.apply lstat) now (.removedDirectory path) =
            ⟨log.innerLog.removeDirectory lstat path, log.delayedEntries⟩ := by
          simp only [call, removedDirectory, LogView.apply, hknown, if_true]
        simp only [hcall, LogCall.notRacilyClean, LogView.apply, known_settled lstat hknown, if_true]
        refine settled_commute (fun entry hentry => LogView.commute_apply (isCommand_write entry)
          (fun _ _ => by unfold LogView.removeDirectory; split <;> rfl)
          (fun _ _ _ => by unfold LogView.removeDirectory; split <;> rfl) ?_) _
        exact fun p hp => LogView.removeDirectory_addDirectory
          (hsame p (mem_flatMap.mpr ⟨entry, hentry, hp⟩))
      · have hunknown : ¬ (log.settled (LogView.apply lstat)).known path = true := fun hset =>
          (known_of_settled lstat hset).elim hknown (hpending.resolve_left hknown)
        simp only [call, removedDirectory, LogCall.notRacilyClean, LogView.apply, hknown, hunknown,
          if_false, Bool.false_eq_true]
    · simp only [call, removedDirectory, LogCall.notRacilyClean, LogView.apply,
        LogView.removeDirectory_of_missing lstat path _ hmissing, ite_self]

theorem delayedEntries_writeEntries {ι : Type} (innerCall : ι → LogCall → ι) (now : Int64) (inner : ι)
    (entries : List DelayedEntry) : (writeEntries innerCall now inner entries).delayedEntries <:+ entries := by
  induction entries generalizing inner with
  | nil => exact suffix_rfl
  | cons entry entries ih =>
    rw [writeEntries]
    split
    · exact suffix_rfl
    · exact (ih _).trans (suffix_cons entry entries)

theorem timestamps_call {ι : Type} {innerCall : ι → LogCall → ι} {log : DelayedInvocationLog ι}
    (hnow : c.isCommand = true → now < Int64.maxValue)
    (h : ∀ entry ∈ log.delayedEntries, entry.timestamp < Int64.maxValue) :
    ∀ entry ∈ (log.call innerCall now c).delayedEntries, entry.timestamp < Int64.maxValue := by
  cases hc : c.isCommand with
  | false =>
    cases c with
    | createdDirectory | removedDirectory => exact h
    | ranCommand command => cases hc
    | cleanedCommand hash => cases hc
  | true =>
    obtain ⟨entry, htime, hcall, -⟩ := call_command now hc
    rw [hcall]
    refine forall_mem_append.mpr ⟨fun e he => ?_, fun e he => ?_⟩
    · exact h e ((delayedEntries_writeEntries innerCall now _ _).subset he)
    · rw [mem_singleton.mp he, htime]
      exact hnow hc

theorem lifetime_undisturbing {v : LogView} {calls : List (Int64 × LogCall)} (destroyed : Int64)
    (hentries : ∀ entry ∈ log.delayedEntries, entry.timestamp < Int64.maxValue)
    (hv : v.Clears (log.settled (LogView.apply lstat))) (h : log.Undisturbing lstat calls) :
    let final := log.lifetime (fun _ => LogView.apply lstat) calls destroyed
    final.delayedEntries = [] ∧ (v.applyAll lstat (calls.map Prod.snd)).Clears final.innerLog := by
  induction calls generalizing log v with
  | nil =>
    intro final
    have hfinal : final = ⟨log.settled (LogView.apply lstat), []⟩ := destroy_eq hentries
    rw [hfinal]
    exact ⟨rfl, hv⟩
  | cons head calls ih =>
    obtain ⟨now, c⟩ := head
    obtain ⟨hc, hcalls⟩ := h
    refine ih (timestamps_call (fun hcommand => ?_) hentries) ?_ hcalls
    · cases c with
      | ranCommand | cleanedCommand => exact hc
      | createdDirectory path => cases hcommand
      | removedDirectory path => cases hcommand
    · rw [settled_call lstat hc]
      exact hv.apply lstat c

end
end DelayedInvocationLog

section
open DelayedInvocationLog

variable {p : LogCall → Prop} {calls : List (Int64 × LogCall)}

theorem forall_writeEntries (now : Int64) {passed : List (Int64 × LogCall)} {entries : List DelayedEntry}
    (hpassed : ∀ c ∈ passed, p c.2) (hentries : ∀ entry ∈ entries, p entry.write) (time : Int64) :
    ∀ c ∈ (writeEntries (record time) now passed entries).innerLog, p c.2 := by
  induction entries generalizing passed with
  | nil => exact hpassed
  | cons entry entries ih =>
    obtain ⟨hentry, hentries⟩ := forall_mem_cons.mp hentries
    rw [writeEntries]
    split
    · exact hpassed
    · refine ih (forall_mem_append.mpr ⟨hpassed, fun c hc => ?_⟩) hentries
      rw [mem_singleton.mp hc]
      exact hentry

/-- Nothing is passed on that was not given, but for flags. -/
theorem forall_lifetime {log : DelayedInvocationLog (List (Int64 × LogCall))} (destroyed : Int64)
    (hpassed : ∀ c ∈ log.innerLog, p c.2) (hentries : ∀ entry ∈ log.delayedEntries, p entry.write)
    (hcalls : ∀ c ∈ calls, p c.2.notRacilyClean) : ∀ c ∈ (log.lifetime record calls destroyed).innerLog, p c.2 := by
  induction calls generalizing log with
  | nil => exact forall_writeEntries Int64.maxValue hpassed hentries destroyed
  | cons head calls ih =>
    obtain ⟨now, c⟩ := head
    obtain ⟨hc, hrest⟩ := forall_mem_cons.mp hcalls
    rw [lifetime_cons]
    cases hcommand : c.isCommand with
    | false =>
      have hrecord : ∀ x ∈ record now log.innerLog c.notRacilyClean, p x.2 :=
        forall_mem_append.mpr ⟨hpassed, forall_mem_singleton.mpr hc⟩
      cases c with
      | createdDirectory | removedDirectory => exact ih hrecord hentries hrest
      | ranCommand command => cases hcommand
      | cleanedCommand hash => cases hcommand
    | true =>
      obtain ⟨entry, -, hcall, hwrite⟩ := call_command now hcommand
      rw [hcall]
      refine ih (forall_writeEntries now hpassed hentries now) ?_ hrest
      refine forall_mem_append.mpr ⟨fun e he => ?_, forall_mem_singleton.mpr (hwrite ▸ hc)⟩
      exact hentries e ((delayedEntries_writeEntries _ _ _ _).subset he)

theorem paths_passedCalls (destroyed : Int64) (hnul : ∀ c ∈ calls, ∀ path ∈ c.2.paths, 0 ∉ path) :
    ∀ c ∈ (passedCalls calls destroyed).map Prod.snd, ∀ path ∈ c.paths, 0 ∉ path := by
  intro c hc
  obtain ⟨x, hx, rfl⟩ := mem_map.mp hc
  refine forall_lifetime (p := fun c => ∀ path ∈ c.paths, 0 ∉ path) destroyed (forall_mem_nil _)
    (forall_mem_nil _) (fun c hc => ?_) x hx
  rw [paths_notRacilyClean]
  exact hnul c hc

end

/-- The same file, with a flag that may be cleared. -/
def MayClear (file file' : Option (Path × Fingerprint)) : Prop :=
  file' = file ∨ file' = file.map fun file => (file.1, { file.2 with racilyClean := false })

/-- The same entry in another log, but for racily clean flags. -/
structure InvocationEntry.SameButFlags (fingerprints fingerprints' : List (Path × Fingerprint))
    (entry entry' : InvocationEntry) : Prop where
  outputs : List.Forall₂ MayClear (entry.outputFiles.map (fileAt fingerprints))
    (entry'.outputFiles.map (fileAt fingerprints'))
  inputs : List.Forall₂ MayClear (entry.inputFiles.map (fileAt fingerprints))
    (entry'.inputFiles.map (fileAt fingerprints'))
  ignored : entry'.ignoredDependencies = entry.ignoredDependencies
  additional : entry'.additionalDependencies = entry.additionalDependencies

structure Invocations.SameButFlags (invocations invocations' : Invocations) : Prop where
  entries : ∀ hash, Option.Rel
    (InvocationEntry.SameButFlags invocations.fingerprints invocations'.fingerprints)
    (invocations.entries.lookup hash) (invocations'.entries.lookup hash)
  createdDirectories : invocations'.createdDirectories = invocations.createdDirectories

theorem forall₂_mayClear (files : List (Path × Fingerprint)) :
    List.Forall₂ MayClear (files.map some) ((setFingerprintNotRacilyClean files).map some) := by
  induction files with
  | nil => exact .nil
  | cons file files ih => exact .cons (.inr rfl) ih

theorem InvocationEntry.RefersTo.sameButFlags {fingerprints fingerprints' : List (Path × Fingerprint)}
    {entry entry' : InvocationEntry} {c c' : LoggedCommand} (h : entry.RefersTo fingerprints c)
    (h' : entry'.RefersTo fingerprints' c') (hc : c' = c ∨ c' = c.notRacilyClean) :
    entry.SameButFlags fingerprints fingerprints' entry' := by
  have hignored := h'.ignored
  have hadditional := h'.additional
  rcases hc with rfl | rfl
  · refine ⟨?_, ?_, hignored.trans h.ignored.symm, hadditional.trans h.additional.symm⟩
    · rw [h.outputs, h'.outputs]
      exact forall₂_same.mpr fun _ _ => .inl rfl
    · rw [h.inputs, h'.inputs]
      exact forall₂_same.mpr fun _ _ => .inl rfl
  · refine ⟨?_, ?_, hignored.trans h.ignored.symm, hadditional.trans h.additional.symm⟩
    · rw [h.outputs, h'.outputs]
      exact forall₂_mayClear _
    · rw [h.inputs, h'.inputs]
      exact forall₂_mayClear _

theorem Invocations.Represents.sameButFlags {invocations invocations' : Invocations} {v v' : LogView}
    (h : invocations.Represents v) (h' : invocations'.Represents v') (hv : v.Clears v') :
    invocations.SameButFlags invocations' where
  createdDirectories := by
    refine Finmap.ext_lookup fun id => ?_
    rw [h.directories, h'.directories, hv.directories]
  entries hash := by
    have hentry := h.commands hash
    have hentry' := h'.commands hash
    have hcommand := hv.commands hash
    generalize invocations.entries.lookup hash = entry at hentry
    generalize invocations'.entries.lookup hash = entry' at hentry'
    generalize v.commands hash = command at hentry hcommand
    generalize v'.commands hash = command' at hentry' hcommand
    cases hentry with
    | none =>
      rw [Option.map_none, or_self] at hcommand
      subst hcommand
      cases hentry'
      exact .none
    | some hrefers =>
      cases hentry' with
      | none => simp only [Option.map_some, reduceCtorEq, or_self] at hcommand
      | some hrefers' =>
        rw [Option.map_some, Option.some.injEq, Option.some.injEq] at hcommand
        exact .some (hrefers.sameButFlags hrefers' hcommand)

/-- A delayed log says the same as one without delay, if no call interferes with the commands
that it overtakes and both logs fit into the format. -/
theorem parse_delayed {order : EvalOrder} {lstat : Path → Stat} {front : List Record} {v : LogView}
    {log : PersistentInvocationLog} (hlog : log.Opened order lstat front v) {calls : List (Int64 × LogCall)}
    (destroyed : Int64) (hnul : ∀ c ∈ calls, ∀ path ∈ c.2.paths, 0 ∉ path)
    (hcalls : (mk v []).Undisturbing lstat calls) : let direct := log.calls (calls.map Prod.snd)
    let delayed := (mk log []).lifetime (fun _ => PersistentInvocationLog.call)
      calls destroyed
    Parsing.Room {} (front ++ direct.written) →
    Parsing.Room {} (front ++ delayed.innerLog.written) →
    delayed.delayedEntries = [] ∧
    ∃ result result', parsePersistentInvocationLog order lstat (some direct.stream) = .ok (result, some direct.stream) ∧
      parsePersistentInvocationLog order lstat (some delayed.innerLog.stream) =
        .ok (result', some delayed.innerLog.stream) ∧
      result.warning = "" ∧ result'.warning = "" ∧
      result.invocations.SameButFlags result'.invocations := by
  intro direct delayed hdirect hdelayed
  obtain ⟨hempty, hclears⟩ := lifetime_undisturbing lstat destroyed
    (forall_mem_nil _) ⟨rfl, rfl, fun _ => .inl rfl⟩ hcalls
  have hinner : delayed.innerLog = log.calls ((passedCalls calls destroyed).map Prod.snd) :=
    lifetime_eq_passedCalls _ log calls destroyed
  have hnul' : ∀ c ∈ calls.map Prod.snd, ∀ path ∈ c.paths, 0 ∉ path := by
    intro c hc
    obtain ⟨x, hx, rfl⟩ := mem_map.mp hc
    exact hnul x hx
  obtain ⟨result, hresult, hwarning, hrep⟩ := parse_continued hlog hnul' hdirect
  rw [hinner] at hdelayed ⊢
  obtain ⟨result', hresult', hwarning', hrep'⟩ := parse_continued hlog (paths_passedCalls destroyed hnul) hdelayed
  rw [lifetime_eq_passedCalls] at hclears
  refine ⟨?_, result, result', hresult, hresult', hwarning, hwarning', hrep.sameButFlags hrep' hclears⟩
  exact (lifetime_delayedEntries _ _ log v calls destroyed).trans hempty

/-- A command that makes a directory, and after it another directory that comes and goes. -/
theorem parse_delayed_of_directories :
    let lstat : Path → Stat := fun path => { metadata := { ino := path.length.toUInt64, dev := 1 } }
    let directory : Path × Fingerprint := ([100], { stat := { mode := S_IFDIR } })
    let calls : List (Int64 × LogCall) := [(5, .ranCommand ⟨Hash.zero, [directory], [], [], []⟩),
      (5, .createdDirectory [100, 101]), (6, .removedDirectory [100, 101])]
    let direct := emptyLog.calls (calls.map Prod.snd)
    let delayed := (mk emptyLog []).lifetime
      (fun _ => PersistentInvocationLog.call) calls 6
    ∃ result result', parsePersistentInvocationLog .valueFirst lstat (some direct.stream) =
        .ok (result, some direct.stream) ∧
      parsePersistentInvocationLog .valueFirst lstat (some delayed.innerLog.stream) =
        .ok (result', some delayed.innerLog.stream) ∧
      result.invocations.SameButFlags result'.invocations := by
  intro lstat directory calls direct delayed
  obtain ⟨-, result, result', hresult, hresult', -, -, hsame⟩ := parse_delayed (opened_emptyLog .valueFirst lstat) 6
      (by decide : ∀ c ∈ calls, ∀ path ∈ c.2.paths, 0 ∉ path) (by decide)
      ⟨by decide, by decide, by decide⟩ ⟨by decide, by decide, by decide⟩
  exact ⟨result, result', hresult, hresult', hsame⟩

/-- A directory that a command makes and that is removed in the same second: the removal
overtakes the command, finds a path that the log does not know, and is dropped. -/
theorem parse_delayed_misses_removal : let lstat : Path → Stat := fun _ => { metadata := { ino := 7, dev := 1 } }
    let directory : Path × Fingerprint := ([100], { stat := { mode := S_IFDIR } })
    let calls : List (Int64 × LogCall) :=
      [(5, .ranCommand ⟨Hash.zero, [directory], [], [], []⟩), (5, .removedDirectory [100])]
    let delayed := (mk emptyLog []).lifetime
      (fun _ => PersistentInvocationLog.call) calls 6
    (parsePersistentInvocationLog .valueFirst lstat
        (some (emptyLog.calls (calls.map Prod.snd)).stream)).toOption.map
      (·.1.invocations.createdDirectories.lookup ⟨7, 1⟩) = some none ∧
    (parsePersistentInvocationLog .valueFirst lstat (some delayed.innerLog.stream)).toOption.map
      (·.1.invocations.createdDirectories.lookup ⟨7, 1⟩) = some (some [100]) := by
  decide

end Shuriken
