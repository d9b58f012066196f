import Shuriken.Log.Persistent

/-!
# Delaying the log

`DelayedInvocationLog` keeps commands back until the clock has moved on, so that the fingerprints of files
that were written just before need not be taken for racily clean.
-/
namespace Shuriken
open List

structure DelayedEntry where
  timestamp : Int64 := 0
  /-- Set if the entry is for a `cleanedCommand` call. -/
  cleaned : Bool := false
  command : RanCommand
  deriving DecidableEq

def setFingerprintNotRacilyClean (files : List (Path × Fingerprint)) : List (Path × Fingerprint) :=
  files.map fun file => (file.1, { file.2 with racilyClean := false })

def RanCommand.notRacilyClean (c : RanCommand) : RanCommand := { c with
    outputFiles := setFingerprintNotRacilyClean c.outputFiles
    inputFiles := setFingerprintNotRacilyClean c.inputFiles }

def DelayedEntry.write (entry : DelayedEntry) : LogCall :=
  if entry.cleaned then .cleanedCommand entry.command.buildStepHash
  else .ranCommand entry.command.notRacilyClean

structure DelayedInvocationLog (ι : Type) where
  innerLog : ι
  delayedEntries : List DelayedEntry := []

namespace DelayedInvocationLog

/-! The inner log is any type with the calls of an `InvocationLog`. -/

section
variable {ι : Type} (innerCall : ι → LogCall → ι)

def createdDirectory (log : DelayedInvocationLog ι) (path : Path) : DelayedInvocationLog ι :=
  { log with innerLog := innerCall log.innerLog (.createdDirectory path) }

def removedDirectory (log : DelayedInvocationLog ι) (path : Path) : DelayedInvocationLog ι :=
  { log with innerLog := innerCall log.innerLog (.removedDirectory path) }

def writeEntries (now : Int64) : ι → List DelayedEntry → DelayedInvocationLog ι
  | inner, [] => ⟨inner, []⟩
  | inner, entry :: entries =>
    if entry.timestamp ≥ now then ⟨inner, entry :: entries⟩
    else writeEntries now (innerCall inner entry.write) entries

/-- Writes the entries that are strictly older than `now`. -/
def writeDelayedEntries (now : Int64) (log : DelayedInvocationLog ι) : DelayedInvocationLog ι :=
  writeEntries innerCall now log.innerLog log.delayedEntries

def push (log : DelayedInvocationLog ι) (entry : DelayedEntry) : DelayedInvocationLog ι :=
  { log with delayedEntries := log.delayedEntries ++ [entry] }

def ranCommand (now : Int64) (log : DelayedInvocationLog ι) (command : RanCommand) : DelayedInvocationLog ι :=
  (log.writeDelayedEntries innerCall now).push { timestamp := now, command }

def cleanedCommand (now : Int64) (log : DelayedInvocationLog ι) (buildStepHash : Hash) : DelayedInvocationLog ι :=
  (log.writeDelayedEntries innerCall now).push
    { timestamp := now, cleaned := true, command := ⟨buildStepHash, [], [], [], []⟩ }

def destroy (log : DelayedInvocationLog ι) : DelayedInvocationLog ι := log.writeDelayedEntries innerCall Int64.maxValue

def call (now : Int64) (log : DelayedInvocationLog ι) : LogCall → DelayedInvocationLog ι
  | .createdDirectory path => log.createdDirectory innerCall path
  | .removedDirectory path => log.removedDirectory innerCall path
  | .ranCommand command => log.ranCommand innerCall now command
  | .cleanedCommand buildStepHash => log.cleanedCommand innerCall now buildStepHash

end

def run {ι : Type} (inner : Int64 → ι → LogCall → ι) (log : DelayedInvocationLog ι)
    (calls : List (Int64 × LogCall)) : DelayedInvocationLog ι :=
  calls.foldl (fun log c => log.call (inner c.1) c.1 c.2) log

def lifetime {ι : Type} (inner : Int64 → ι → LogCall → ι) (log : DelayedInvocationLog ι)
    (calls : List (Int64 × LogCall)) (destroyed : Int64) : DelayedInvocationLog ι :=
  (log.run inner calls).destroy (inner destroyed)

end DelayedInvocationLog

def LogCall.isCommand : LogCall → Bool
  | .ranCommand _ | .cleanedCommand _ => true
  | .createdDirectory _ | .removedDirectory _ => false

def LogCall.notRacilyClean : LogCall → LogCall
  | .ranCommand command => .ranCommand command.notRacilyClean
  | c => c

def LogCall.fingerprints : LogCall → List Fingerprint
  | .ranCommand command => (command.outputFiles ++ command.inputFiles).map Prod.snd
  | _ => []

def record (now : Int64) (passed : List (Int64 × LogCall)) (c : LogCall) : List (Int64 × LogCall) :=
  passed ++ [(now, c)]

def passedCalls (calls : List (Int64 × LogCall)) (destroyed : Int64) : List (Int64 × LogCall) :=
  (DelayedInvocationLog.lifetime record ⟨[], []⟩ calls destroyed).innerLog

/-- When a command that came at time `t` is passed on: at the first later command at which the
clock has moved, or else in the end. -/
def flushTime (t : Int64) (later : List (Int64 × LogCall)) (destroyed : Int64) : Int64 :=
  ((later.find? fun c => c.2.isCommand && decide (t < c.1)).map Prod.fst).getD destroyed

/-- The commands that are passed on for the given calls. A command at the last possible time
stays in the log. -/
def flushes (destroyed : Int64) : List (Int64 × LogCall) → List (Int64 × LogCall)
  | [] => []
  | (t, c) :: later =>
    if c.isCommand ∧ t < Int64.maxValue then
      (flushTime t later destroyed, c.notRacilyClean) :: flushes destroyed later
    else flushes destroyed later

/-- Whenever a command is passed on with a fingerprint that has become not racily clean, the
clock is past the modification time of the file. Commands are compared in order. -/
def ForgetsInTime (given : List LogCall) (passed : List (Int64 × LogCall)) : Prop :=
  ∀ x ∈ (given.filter LogCall.isCommand).zip (passed.filter (·.2.isCommand)),
    ∀ fps ∈ x.1.fingerprints.zip x.2.2.fingerprints,
      fps.1.racilyClean = true → fps.2.racilyClean = false → fps.1.stat.mtime < x.2.1

instance (given : List LogCall) (passed : List (Int64 × LogCall)) : Decidable (ForgetsInTime given passed) :=
  inferInstanceAs (Decidable (∀ x ∈ _, ∀ fps ∈ _, _))

namespace DelayedInvocationLog
section
variable {ι : Type} (innerCall : ι → LogCall → ι) (now : Int64)

theorem writeEntries_append (inner : ι) {older newer : List DelayedEntry}
    (holder : ∀ entry ∈ older, entry.timestamp < now) (hnewer : ∀ entry ∈ newer, now ≤ entry.timestamp) :
    writeEntries innerCall now inner (older ++ newer) =
      ⟨older.foldl (fun inner entry => innerCall inner entry.write) inner, newer⟩ := by
  induction older generalizing inner with
  | nil =>
    cases newer with
    | nil => rfl
    | cons entry newer =>
      rw [nil_append, writeEntries, if_pos (hnewer entry mem_cons_self)]
      rfl
  | cons entry older ih =>
    rw [cons_append, writeEntries, if_neg (Int64.not_le.mpr (holder entry mem_cons_self)),
      ih _ fun e he => holder e (mem_cons_of_mem _ he), foldl_cons]

end
end DelayedInvocationLog

def Ordered (entries : List DelayedEntry) : Prop := entries.Pairwise (·.timestamp ≤ ·.timestamp)

variable {entries : List DelayedEntry} {calls : List (Int64 × LogCall)}

theorem Ordered.split (h : Ordered entries) (now : Int64) :
    ∃ older newer, entries = older ++ newer ∧ (∀ entry ∈ older, entry.timestamp < now) ∧
      ∀ entry ∈ newer, now ≤ entry.timestamp := by
  induction entries with
  | nil => exact ⟨[], [], rfl, by simp, by simp⟩
  | cons entry entries ih =>
    obtain ⟨hfirst, hrest⟩ := pairwise_cons.mp h
    rcases Int64.lt_or_le entry.timestamp now with hlt | hle
    · obtain ⟨older, newer, rfl, holder, hnewer⟩ := ih hrest
      refine ⟨entry :: older, newer, rfl, ?_, hnewer⟩
      exact forall_mem_cons.mpr ⟨hlt, holder⟩
    · refine ⟨[], entry :: entries, rfl, by simp, forall_mem_cons.mpr ⟨hle, ?_⟩⟩
      exact fun e he => Int64.le_trans hle (hfirst e he)

theorem foldl_record (now : Int64) (passed : List (Int64 × LogCall)) (entries : List DelayedEntry) :
    entries.foldl (fun passed entry => record now passed entry.write) passed =
      passed ++ entries.map (now, ·.write) := by
  induction entries generalizing passed with
  | nil => simp only [foldl_nil, map_nil, append_nil]
  | cons entry entries ih =>
    rw [foldl_cons, ih, record, map_cons, append_assoc, singleton_append]

/-- What becomes of the entries that are in the log, with the calls to come. -/
def flushesOf (destroyed : Int64) (entries : List DelayedEntry) (later : List (Int64 × LogCall)) :
    List (Int64 × LogCall) :=
  (entries.filter (·.timestamp < Int64.maxValue)).map fun entry =>
    (flushTime entry.timestamp later destroyed, entry.write)

theorem isCommand_write (entry : DelayedEntry) : entry.write.isCommand = true := by
  unfold DelayedEntry.write
  split <;> rfl

theorem filter_isCommand_write (now : Int64) (entries : List DelayedEntry) :
    (entries.map (now, ·.write)).filter (·.2.isCommand) = entries.map (now, ·.write) := by
  refine filter_eq_self.mpr fun x hx => ?_
  obtain ⟨entry, -, rfl⟩ := mem_map.mp hx
  exact isCommand_write entry

section
variable {t now destroyed : Int64} {c : LogCall} {later : List (Int64 × LogCall)}

theorem flushTime_of_lt (hc : c.isCommand = true) (h : t < now) : flushTime t ((now, c) :: later) destroyed = now := by
  simp only [flushTime, find?_cons, hc, h, decide_true, Bool.and_self, Option.map_some, Option.getD_some]

theorem flushTime_of_le (h : now ≤ t) : flushTime t ((now, c) :: later) destroyed = flushTime t later destroyed := by
  simp only [flushTime, find?_cons, Int64.not_lt.mpr h, decide_false, Bool.and_false]

theorem flushesOf_append (entries entries' : List DelayedEntry) : flushesOf destroyed (entries ++ entries') later =
      flushesOf destroyed entries later ++ flushesOf destroyed entries' later := by
  simp only [flushesOf, filter_append, map_append]

variable {entries : List DelayedEntry}

theorem flushesOf_older (hc : c.isCommand = true) (h : ∀ entry ∈ entries, entry.timestamp < now) :
    flushesOf destroyed entries ((now, c) :: later) = entries.map (now, ·.write) := by
  have hmax : entries.filter (·.timestamp < Int64.maxValue) = entries := filter_eq_self.mpr fun entry hentry =>
      decide_eq_true (Int64.lt_of_lt_of_le (h entry hentry) (Int64.le_maxValue now))
  rw [flushesOf, hmax]
  exact map_congr_left fun entry hentry => by rw [flushTime_of_lt hc (h entry hentry)]

theorem flushesOf_newer (h : ∀ entry ∈ entries, now ≤ entry.timestamp) :
    flushesOf destroyed entries ((now, c) :: later) = flushesOf destroyed entries later :=
  map_congr_left fun entry hentry => by
    rw [flushTime_of_le (h entry (mem_filter.mp hentry).1)]

theorem flushesOf_not_isCommand (entries : List DelayedEntry) (hc : c.isCommand = false) :
    flushesOf destroyed entries ((now, c) :: later) = flushesOf destroyed entries later :=
  map_congr_left fun entry _ => by simp only [flushTime, find?_cons, hc, Bool.false_and]

theorem flushesOf_nil (entries : List DelayedEntry) (h : ∀ entry ∈ entries, Int64.maxValue ≤ entry.timestamp) :
    flushesOf destroyed entries later = [] := by
  rw [flushesOf, filter_eq_nil_iff.mpr, map_nil]
  exact fun entry hentry => by simpa using h entry hentry

theorem call_command (now : Int64) (hc : c.isCommand = true) : ∃ entry : DelayedEntry, entry.timestamp = now ∧
      (∀ {ι : Type} (innerCall : ι → LogCall → ι) (log : DelayedInvocationLog ι),
        log.call innerCall now c = (log.writeDelayedEntries innerCall now).push entry) ∧
      entry.write = c.notRacilyClean := by
  cases c with
  | createdDirectory path => cases hc
  | removedDirectory path => cases hc
  | ranCommand | cleanedCommand => exact ⟨_, rfl, fun _ _ => rfl, rfl⟩

end

theorem lifetime_cons {ι : Type} (inner : Int64 → ι → LogCall → ι) (log : DelayedInvocationLog ι)
    (now : Int64) (c : LogCall) (calls : List (Int64 × LogCall)) (destroyed : Int64) :
    log.lifetime inner ((now, c) :: calls) destroyed =
      (log.call (inner now) now c).lifetime inner calls destroyed := rfl

/-- The commands that are passed on in the rest of the life of a log. The induction is on the
calls to come, for any entries that are in the log. -/
theorem filter_lifetime (destroyed : Int64) (hclock : calls.Pairwise (·.1 ≤ ·.1)) (passed : List (Int64 × LogCall))
    (hordered : Ordered entries) (hpast : ∀ entry ∈ entries, ∀ c ∈ calls, entry.timestamp ≤ c.1) :
    (DelayedInvocationLog.lifetime record ⟨passed, entries⟩ calls destroyed).innerLog.filter
        (·.2.isCommand) =
      passed.filter (·.2.isCommand) ++ flushesOf destroyed entries calls ++ flushes destroyed calls := by
  induction calls generalizing passed entries with
  | nil =>
    obtain ⟨older, newer, rfl, holder, hnewer⟩ := hordered.split Int64.maxValue
    have hflushed : flushesOf destroyed older [] = older.map (destroyed, ·.write) := by
      rw [flushesOf, filter_eq_self.mpr fun entry hentry => decide_eq_true (holder entry hentry)]
      rfl
    rw [DelayedInvocationLog.lifetime, DelayedInvocationLog.run, foldl_nil,
      DelayedInvocationLog.destroy, DelayedInvocationLog.writeDelayedEntries,
      DelayedInvocationLog.writeEntries_append _ _ _ holder hnewer, foldl_record, flushesOf_append,
      flushesOf_nil newer hnewer, hflushed, filter_append, filter_isCommand_write, flushes,
      append_nil, append_nil]
  | cons head later ih =>
    obtain ⟨now, c⟩ := head
    obtain ⟨hfirst, hclock⟩ := pairwise_cons.mp hclock
    have hnow : ∀ entry ∈ entries, entry.timestamp ≤ now := fun entry hentry => hpast entry hentry _ mem_cons_self
    have hlater : ∀ entry ∈ entries, ∀ c ∈ later, entry.timestamp ≤ c.1 := fun entry hentry c hc =>
      hpast entry hentry c (mem_cons_of_mem _ hc)
    cases hc : c.isCommand with
    | false =>
      have hcall : (DelayedInvocationLog.mk passed entries).call (record now) now c =
          ⟨record now passed c, entries⟩ := by
        cases c with
        | createdDirectory | removedDirectory => rfl
        | ranCommand command => cases hc
        | cleanedCommand hash => cases hc
      have hpassed : (record now passed c).filter (·.2.isCommand) = passed.filter (·.2.isCommand) := by
        rw [record, filter_append, filter_singleton, hc]
        exact append_nil _
      rw [lifetime_cons, hcall, ih hclock _ hordered hlater, hpassed,
        flushesOf_not_isCommand entries hc, flushes, if_neg (by simp [hc])]
    | true =>
      obtain ⟨entry, htime, hcall, hwrite⟩ := call_command now hc
      obtain ⟨older, newer, rfl, holder, hnewer⟩ := hordered.split now
      have hafter : (DelayedInvocationLog.mk passed (older ++ newer)).call (record now) now c =
          ⟨passed ++ older.map (now, ·.write), newer ++ [entry]⟩ := by
        rw [hcall, DelayedInvocationLog.writeDelayedEntries,
          DelayedInvocationLog.writeEntries_append _ _ _ holder hnewer, foldl_record]
        rfl
      have hordered' : Ordered (newer ++ [entry]) := by
        refine pairwise_append.mpr ⟨(pairwise_append.mp hordered).2.1, pairwise_singleton _ _, fun e he e' he' => ?_⟩
        rw [mem_singleton.mp he', htime]
        exact hnow e (mem_append_right _ he)
      have hpast' : ∀ e ∈ newer ++ [entry], ∀ c ∈ later, e.timestamp ≤ c.1 := by
        refine forall_mem_append.mpr
          ⟨fun e he => hlater e (mem_append_right _ he), fun e he => ?_⟩
        rw [mem_singleton.mp he, htime]
        exact hfirst
      have hflush : flushes destroyed ((now, c) :: later) =
          flushesOf destroyed [entry] later ++ flushes destroyed later := by
        by_cases hmax : now < Int64.maxValue
        · simp [flushes, flushesOf, hc, hmax, htime, hwrite]
        · simp [flushes, flushesOf, hmax, htime]
      rw [lifetime_cons, hafter, ih hclock _ hordered' hpast', filter_append,
        filter_isCommand_write, hflush, flushesOf_append, flushesOf_append,
        flushesOf_older hc holder, flushesOf_newer hnewer]
      simp only [append_assoc]

theorem filter_passedCalls (hclock : calls.Pairwise (·.1 ≤ ·.1)) (destroyed : Int64) :
    (passedCalls calls destroyed).filter (·.2.isCommand) = flushes destroyed calls :=
  filter_lifetime destroyed hclock [] List.Pairwise.nil fun _ h => nomatch h

theorem fingerprints_notRacilyClean (c : LogCall) :
    c.notRacilyClean.fingerprints = c.fingerprints.map ({ · with racilyClean := false }) := by
  cases c with
  | ranCommand command =>
    simp only [LogCall.notRacilyClean, LogCall.fingerprints, RanCommand.notRacilyClean,
      setFingerprintNotRacilyClean, map_append, map_map]
    rfl
  | createdDirectory | removedDirectory | cleanedCommand => rfl

theorem fingerprints_eq_nil {c : LogCall} (hc : c.isCommand = false) : c.fingerprints = [] := by
  cases c with
  | ranCommand command => cases hc
  | createdDirectory | removedDirectory | cleanedCommand => rfl

theorem forall_zip_notRacilyClean (c : LogCall) (p : Fingerprint → Prop) :
    (∀ fps ∈ c.fingerprints.zip c.notRacilyClean.fingerprints,
      fps.1.racilyClean = true → fps.2.racilyClean = false → p fps.1) ↔
    ∀ fp ∈ c.fingerprints, fp.racilyClean = true → p fp := by
  rw [fingerprints_notRacilyClean]
  induction c.fingerprints with
  | nil => simp
  | cons fp fps ih => simp only [map_cons, zip_cons_cons, forall_mem_cons, ih, forall_const]

theorem flushes_eq_nil (destroyed : Int64) (h : ∀ c ∈ calls, Int64.maxValue ≤ c.1) : flushes destroyed calls = [] := by
  induction calls with
  | nil => rfl
  | cons c calls ih =>
    obtain ⟨hc, hcalls⟩ := forall_mem_cons.mp h
    rw [flushes, if_neg fun hlt => Int64.not_lt.mpr hc hlt.2, ih hcalls]

theorem forall_suffix_cons {α β : Type} {p : α → β → List (α × β) → Prop} {a : α} {b : β} {xs : List (α × β)} :
    (∀ a' b' later, (a', b') :: later <:+ (a, b) :: xs → p a' b' later) ↔
      p a b xs ∧ ∀ a' b' later, (a', b') :: later <:+ xs → p a' b' later := by
  simp only [suffix_cons_iff, cons.injEq, Prod.mk.injEq]
  constructor
  · exact fun h => ⟨h a b xs (.inl ⟨⟨rfl, rfl⟩, rfl⟩), fun a' b' later hs => h a' b' later (.inr hs)⟩
  · rintro ⟨hhead, htail⟩ a' b' later (⟨⟨rfl, rfl⟩, rfl⟩ | hs)
    · exact hhead
    · exact htail a' b' later hs

/-- Raciness is forgotten in time just if no racily clean file has a modification time that
the clock has not passed when the command is passed on, be it at a later command or in the end. -/
theorem forgetsInTime_iff {calls : List (Int64 × LogCall)} (hclock : calls.Pairwise (·.1 ≤ ·.1)) (destroyed : Int64) :
    ForgetsInTime (calls.map Prod.snd) (passedCalls calls destroyed) ↔
      ∀ t c later, (t, c) :: later <:+ calls → t < Int64.maxValue →
        ∀ fp ∈ c.fingerprints, fp.racilyClean = true → fp.stat.mtime < flushTime t later destroyed := by
  rw [ForgetsInTime, filter_passedCalls hclock]
  induction calls with
  | nil => simp [flushes]
  | cons head calls ih =>
    obtain ⟨t, c⟩ := head
    obtain ⟨hfirst, hclock⟩ := pairwise_cons.mp hclock
    rw [forall_suffix_cons, ← ih hclock, flushes]
    by_cases hc : c.isCommand = true
    · by_cases hmax : t < Int64.maxValue
      · rw [if_pos ⟨hc, hmax⟩, map_cons, filter_cons_of_pos hc, zip_cons_cons, forall_mem_cons]
        refine and_congr_left' (Iff.trans ?_ (forall_prop_of_true hmax).symm)
        exact forall_zip_notRacilyClean c (·.stat.mtime < flushTime t calls destroyed)
      · have hnil : flushes destroyed calls = [] := flushes_eq_nil destroyed fun c' hc' =>
          Int64.le_trans (Int64.not_lt.mp hmax) (hfirst c' hc')
        rw [if_neg fun h => hmax h.2, hnil]
        simp [hmax]
    · have hnone : c.fingerprints = [] := fingerprints_eq_nil (Bool.eq_false_iff.mpr hc)
      rw [if_neg fun h => hc h.1, map_cons, filter_cons_of_neg hc, hnone]
      simp

def racyCommand (mtime : Int64) : RanCommand :=
  ⟨Hash.zero, [([97], { stat := { size := 1, ino := 2, mode := S_IFREG, mtime }, racilyClean := true })], [], [], []⟩

/-- If a command follows in the next second, raciness is forgotten in time. -/
theorem forgetsInTime_of_next_second : let calls := [(5, .ranCommand (racyCommand 5)), (6, .cleanedCommand Hash.zero)]
    ForgetsInTime (calls.map Prod.snd) (passedCalls calls 6) := by
  intro calls
  refine (forgetsInTime_iff (by decide) 6).mpr ?_
  rw [forall_suffix_cons, forall_suffix_cons]
  refine ⟨by decide, by decide, ?_⟩
  simp

/-- A build that ends in the second in which a file was written forgets that the file is racily
clean while it can still be changed in that second. -/
theorem forgetsInTime_fails_at_end : let calls := [(5, .ranCommand (racyCommand 5))]
    passedCalls calls 5 = [(5, .ranCommand (racyCommand 5).notRacilyClean)] ∧
    ¬ ForgetsInTime (calls.map Prod.snd) (passedCalls calls 5) := by
  decide

end Shuriken
