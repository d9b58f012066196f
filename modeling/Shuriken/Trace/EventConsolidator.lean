import Shuriken.Lib.Lists
import Shuriken.Trace.PathResolver

/-!
# Consolidated traces

`EventConsolidator` is what a resolver tells its events to. It keeps which files were read and written, and
makes the trace of them at the end.
-/
namespace Shuriken
open List

structure EventConsolidator where
  inputs : Finset Path := ∅
  outputs : Finset Path := ∅
  deleted : Finset Path := ∅
  errors : List Bytes := []
  deriving DecidableEq

structure Trace where
  inputs : List Path
  outputs : List Path
  errors : List Bytes

/-- The order in which an unordered set is iterated is not specified. -/
structure Iteration where
  elements : Finset Path → List Path
  nodup : ∀ set, (elements set).Nodup
  mem_iff : ∀ {set path}, path ∈ elements set ↔ path ∈ set

def deletedMessage (path : Path) : Bytes := "Process deleted file it did not create: ".toUTF8.toList ++ path

namespace EventConsolidator

def event (c : EventConsolidator) (type : EventType) (path : Path) : EventConsolidator :=
  match type with
  | .read | .readDirectory => if path ∈ c.outputs then c else { c with inputs := insert path c.inputs }
  | .write => { c with inputs := c.inputs.erase path, outputs := insert path c.outputs }
  | .create =>
    { c with
      inputs := c.inputs.erase path
      deleted := c.deleted.erase path
      outputs := insert path c.outputs }
  | .delete =>
    if path ∈ c.outputs then { c with outputs := c.outputs.erase path }
    else { c with deleted := insert path c.deleted }
  | .fatalError => { c with errors := c.errors ++ [path] }

def generateTrace (iteration : Iteration) (c : EventConsolidator) : Trace where
  inputs := iteration.elements c.inputs
  outputs := iteration.elements c.outputs
  errors := c.errors ++ ((iteration.elements c.deleted).filter (· ∉ c.outputs)).map deletedMessage

def consolidate (events : List ResolvedEvent) : EventConsolidator :=
  events.foldl (fun c (type, path) => c.event type path) {}

end EventConsolidator

def eventsOn (path : Path) (events : List ResolvedEvent) : List EventType :=
  (events.filter fun event => event.1 ≠ .fatalError ∧ event.2 = path).map Prod.fst

def fatalErrors (events : List ResolvedEvent) : List Bytes :=
  (events.filter fun event => event.1 = .fatalError).map Prod.snd

namespace EventType

def IsRead (type : EventType) : Prop := type = .read ∨ type = .readDirectory

def IsWrite (type : EventType) : Prop := type = .write ∨ type = .create

end EventType

/-- The path was written and not deleted since. -/
def IsOutput (history : List EventType) : Prop := List.Since (fun _ type => type.IsWrite) (· = .delete) history

/-- The path was read when it was not an output, and not written since. -/
def IsInput (history : List EventType) : Prop :=
  List.Since (fun before type => type.IsRead ∧ ¬ IsOutput before) EventType.IsWrite history

/-- The path was deleted when it was not an output, and not created since. -/
def IsDeleted (history : List EventType) : Prop :=
  List.Since (fun before type => type = .delete ∧ ¬ IsOutput before) (· = .create) history

variable {history : List EventType} {type : EventType} {path : Path} {events : List ResolvedEvent}

theorem isOutput_concat : IsOutput (history ++ [type]) ↔ type.IsWrite ∨ IsOutput history ∧ type ≠ .delete :=
  since_concat

theorem isInput_concat :
    IsInput (history ++ [type]) ↔ (type.IsRead ∧ ¬ IsOutput history) ∨ IsInput history ∧ ¬ type.IsWrite :=
  since_concat

theorem isDeleted_concat :
    IsDeleted (history ++ [type]) ↔ (type = .delete ∧ ¬ IsOutput history) ∨ IsDeleted history ∧ type ≠ .create :=
  since_concat

theorem IsInput.not_isOutput (h : IsInput history) : ¬ IsOutput history := by
  induction history using reverseRecOn with
  | nil => exact absurd h not_since_nil
  | append_singleton history type ih =>
    rw [isOutput_concat]
    rcases isInput_concat.mp h with ⟨hread, hout⟩ | ⟨hin, hwrite⟩
    · rintro (hwrite | ⟨hout', -⟩)
      · rcases hread with rfl | rfl <;> exact absurd hwrite (by simp [EventType.IsWrite])
      · exact hout hout'
    · rintro (hwrite' | ⟨hout, -⟩)
      · exact hwrite hwrite'
      · exact ih hin hout

namespace EventConsolidator

/-- The sets are what the events say. -/
structure Follows (c : EventConsolidator) (events : List ResolvedEvent) : Prop where
  inputs : ∀ {path}, path ∈ c.inputs ↔ IsInput (eventsOn path events)
  outputs : ∀ {path}, path ∈ c.outputs ↔ IsOutput (eventsOn path events)
  deleted : ∀ {path}, path ∈ c.deleted ↔ IsDeleted (eventsOn path events)
  errors : c.errors = fatalErrors events

variable {path path' : Path} {events : List ResolvedEvent} {type : EventType} {c : EventConsolidator}

theorem eventsOn_concat : eventsOn path (events ++ [(type, path')]) =
      if type ≠ .fatalError ∧ path' = path then eventsOn path events ++ [type] else eventsOn path events := by
  rw [eventsOn, filter_append, map_append, eventsOn]
  split
  · next h => simp [h]
  · next h => rw [filter_cons_of_neg (by simpa using h)]; simp

theorem fatalErrors_concat : fatalErrors (events ++ [(type, path)]) =
      if type = .fatalError then fatalErrors events ++ [path] else fatalErrors events := by
  rw [fatalErrors, filter_append, map_append, fatalErrors]
  split
  · next h => simp [h]
  · next h => rw [filter_cons_of_neg (by simpa using h)]; simp

theorem mem_event_inputs : path' ∈ (c.event type path).inputs ↔ if type ≠ .fatalError ∧ path = path' then
        (type.IsRead ∧ path' ∉ c.outputs) ∨ path' ∈ c.inputs ∧ ¬ type.IsWrite else path' ∈ c.inputs := by
  by_cases hpath : path = path'
  · subst hpath
    cases type <;> simp [event, EventType.IsRead, EventType.IsWrite, apply_ite, or_comm]
    all_goals split <;> simp_all
  · cases type <;> simp [event, hpath, Ne.symm hpath, apply_ite, eq_comm]
    all_goals split <;> simp [Ne.symm hpath]

theorem mem_event_outputs : path' ∈ (c.event type path).outputs ↔
      if type ≠ .fatalError ∧ path = path' then type.IsWrite ∨ path' ∈ c.outputs ∧ type ≠ .delete
      else path' ∈ c.outputs := by
  by_cases hpath : path = path'
  · subst hpath
    cases type <;> simp [event, EventType.IsWrite, apply_ite]
    all_goals split <;> simp_all
  · cases type <;> simp [event, hpath, Ne.symm hpath, apply_ite]
    all_goals split <;> simp [Ne.symm hpath]

theorem mem_event_deleted : path' ∈ (c.event type path).deleted ↔ if type ≠ .fatalError ∧ path = path' then
        (type = .delete ∧ path' ∉ c.outputs) ∨ path' ∈ c.deleted ∧ type ≠ .create else path' ∈ c.deleted := by
  by_cases hpath : path = path'
  · subst hpath
    cases type <;> simp [event, apply_ite]
    all_goals split <;> simp_all
  · cases type <;> simp [event, hpath, Ne.symm hpath, apply_ite]
    all_goals split <;> simp [Ne.symm hpath]

theorem event_errors : (c.event type path).errors = if type = .fatalError then c.errors ++ [path] else c.errors := by
  cases type <;> simp [event, apply_ite]

theorem Follows.event (h : c.Follows events) (type : EventType) (path : Path) :
    (c.event type path).Follows (events ++ [(type, path)]) := by
  constructor
  · intro path'
    rw [mem_event_inputs, eventsOn_concat]
    split
    · rw [isInput_concat, h.inputs, h.outputs]
    · exact h.inputs
  · intro path'
    rw [mem_event_outputs, eventsOn_concat]
    split
    · rw [isOutput_concat, h.outputs]
    · exact h.outputs
  · intro path'
    rw [mem_event_deleted, eventsOn_concat]
    split
    · rw [isDeleted_concat, h.deleted, h.outputs]
    · exact h.deleted
  · rw [event_errors, fatalErrors_concat, h.errors]

theorem follows_consolidate (events : List ResolvedEvent) : (consolidate events).Follows events := by
  induction events using reverseRecOn with
  | nil =>
    constructor
    · intro path
      exact iff_of_false (Finset.notMem_empty path) not_since_nil
    · intro path
      exact iff_of_false (Finset.notMem_empty path) not_since_nil
    · intro path
      exact iff_of_false (Finset.notMem_empty path) not_since_nil
    · rfl
  | append_singleton events last ih =>
    rw [consolidate, foldl_concat]
    exact ih.event last.1 last.2

end EventConsolidator

/-- The paths that are reported as deleted in a trace. -/
def IsReportedDeleted (history : List EventType) : Prop := ¬ IsOutput history ∧ IsDeleted history

section
variable (iteration : Iteration) (events : List ResolvedEvent)

def traceOf : Trace := (EventConsolidator.consolidate events).generateTrace iteration

variable {iteration events}

variable {path : Path}

theorem mem_traceOf_inputs : path ∈ (traceOf iteration events).inputs ↔ IsInput (eventsOn path events) :=
  iteration.mem_iff.trans (EventConsolidator.follows_consolidate events).inputs

theorem mem_traceOf_outputs : path ∈ (traceOf iteration events).outputs ↔ IsOutput (eventsOn path events) :=
  iteration.mem_iff.trans (EventConsolidator.follows_consolidate events).outputs

theorem traceOf_errors : ∃ deleted : List Path, deleted.Nodup ∧
      (∀ path, path ∈ deleted ↔ IsReportedDeleted (eventsOn path events)) ∧
      (traceOf iteration events).errors = fatalErrors events ++ deleted.map deletedMessage := by
  have hfollows := EventConsolidator.follows_consolidate events
  refine ⟨_, (iteration.nodup _).filter _, ?_, congrArg (· ++ _) hfollows.errors⟩
  intro path
  rw [mem_filter, decide_eq_true_iff, iteration.mem_iff, hfollows.deleted, hfollows.outputs,
    and_comm, IsReportedDeleted]

end

/-- Every trace says about each path what the events on this path say, and every error is reported
once and in its order, before the paths that were deleted. -/
theorem trace_of_events (iteration : Iteration) (events : List ResolvedEvent) :
    (∀ path, path ∈ (traceOf iteration events).outputs ↔ IsOutput (eventsOn path events)) ∧
    (∀ path, path ∈ (traceOf iteration events).inputs ↔ IsInput (eventsOn path events)) ∧
    (∃ deleted : List Path, deleted.Nodup ∧ (∀ path, path ∈ deleted ↔ IsReportedDeleted (eventsOn path events)) ∧
      (traceOf iteration events).errors = fatalErrors events ++ deleted.map deletedMessage) ∧
    (traceOf iteration events).inputs.Nodup ∧ (traceOf iteration events).outputs.Nodup ∧
    (traceOf iteration events).inputs.Disjoint (traceOf iteration events).outputs := by
  refine ⟨fun _ => mem_traceOf_outputs, fun _ => mem_traceOf_inputs, traceOf_errors,
    iteration.nodup _, iteration.nodup _, ?_⟩
  intro path hin hout
  exact (mem_traceOf_inputs.mp hin).not_isOutput (mem_traceOf_outputs.mp hout)

/-- The last event deletes an output that was never deleted before it was one, or that has been
created since. -/
def IsLost (history : List EventType) : Prop :=
  ∃ before, history = before ++ [.delete] ∧ IsOutput before ∧ ¬ IsDeleted before

theorem isLost_concat : IsLost (history ++ [type]) ↔ type = .delete ∧ IsOutput history ∧ ¬ IsDeleted history := by
  constructor
  · rintro ⟨before, h, hlost⟩
    obtain ⟨rfl, htype⟩ := append_inj' h rfl
    exact ⟨singleton_inj.mp htype, hlost⟩
  · rintro ⟨rfl, hlost⟩
    exact ⟨history, rfl, hlost⟩

theorem reported_iff_not_isLost (hfatal : EventType.fatalError ∉ history) (hne : history ≠ []) :
    IsInput history ∨ IsOutput history ∨ IsReportedDeleted history ↔ ¬ IsLost history := by
  cases history using reverseRecOn with
  | nil => exact absurd rfl hne
  | append_singleton history type =>
    rw [IsReportedDeleted, isLost_concat, isOutput_concat, isInput_concat, isDeleted_concat]
    cases type with
    | read | readDirectory =>
      simp only [EventType.IsRead, EventType.IsWrite, reduceCtorEq]
      grind
    | write | create => simp [EventType.IsWrite]
    | delete =>
      have hdisjoint : IsInput history → ¬ IsOutput history := IsInput.not_isOutput
      simp only [EventType.IsRead, EventType.IsWrite, reduceCtorEq]
      grind
    | fatalError => exact absurd (mem_append_right _ (mem_singleton_self _)) hfatal

theorem deletedMessage_injective : Function.Injective deletedMessage := by
  intro path path' h
  exact append_cancel_left h

/-- A path that is read first can be found in the trace, exactly if it is not lost. -/
theorem read_is_reported_iff (iteration : Iteration) (events : List ResolvedEvent) (path : Path)
    (hread : ∃ type, (eventsOn path events).head? = some type ∧ type.IsRead) :
    (path ∈ (traceOf iteration events).inputs ∨ path ∈ (traceOf iteration events).outputs ∨
        deletedMessage path ∈ (traceOf iteration events).errors) ↔
      (IsLost (eventsOn path events) → deletedMessage path ∈ fatalErrors events) := by
  have hne : eventsOn path events ≠ [] := by
    intro hnil
    obtain ⟨type, htype, -⟩ := hread
    rw [hnil] at htype
    nomatch htype
  have hreported := reported_iff_not_isLost (fun h => by
    obtain ⟨event, hevent, hfatal⟩ := mem_map.mp h
    exact (of_decide_eq_true (mem_filter.mp hevent).2).1 hfatal) hne
  obtain ⟨deleted, -, hdeleted, herrors⟩ := @traceOf_errors iteration events
  rw [mem_traceOf_inputs, mem_traceOf_outputs, herrors, mem_append, mem_map_of_injective deletedMessage_injective,
    hdeleted]
  grind

noncomputable def anyOrder : Iteration where
  elements := Finset.toList
  nodup := Finset.nodup_toList
  mem_iff := Finset.mem_toList

/-- A file that is read and then deleted. -/
theorem read_is_reported_of_deleted : [120] ∈ (traceOf anyOrder [(.read, [120]), (.delete, [120])]).inputs ∨
      [120] ∈ (traceOf anyOrder [(.read, [120]), (.delete, [120])]).outputs ∨
      deletedMessage [120] ∈ (traceOf anyOrder [(.read, [120]), (.delete, [120])]).errors := by
  refine (read_is_reported_iff anyOrder _ [120] ⟨.read, rfl, .inl rfl⟩).mpr ?_
  intro hlost
  obtain ⟨-, hout, -⟩ := isLost_concat.mp (show IsLost ([.read] ++ [.delete]) from hlost)
  rcases isOutput_concat.mp (show IsOutput ([] ++ [.read]) from hout) with hwrite | ⟨hout, -⟩
  · exact absurd hwrite (by simp [EventType.IsWrite])
  · exact absurd hout not_since_nil

def readWriteDelete : List ResolvedEvent := [(.read, [120]), (.write, [120]), (.delete, [120])]

/-- Nothing of it is left in the trace. -/
theorem read_is_forgotten :
    (eventsOn [120] readWriteDelete).head? = some .read ∧ traceOf anyOrder readWriteDelete = ⟨[], [], []⟩ := by
  refine ⟨rfl, ?_⟩
  have hempty : EventConsolidator.consolidate readWriteDelete = {} := by decide
  rw [traceOf, hempty]
  simp [EventConsolidator.generateTrace, anyOrder]

end Shuriken
