import Shuriken.Lib.Except
import Shuriken.Lib.Signals
import Shuriken.Rs.ElementCount

/-!
# Merged streams

`rs/merge.h`. A call that `Merge` makes to its subscriber or to one of the streams does not return at once:
before it does, the subscriber may request more, and any stream may emit. A run begins when `Subscribe` has
returned and lasts while the subscription is alive, so that the weak references to it are set.
-/
namespace Shuriken.Rs
open Option Function
open Signal hiding next error complete

inductive MergeError (ε : Type*) where
  | logicError (what : String)
  /-- An error of one of the streams -/
  | thrown (e : ε)
  deriving DecidableEq

structure MergeSubscription (n : Nat) (α : Type*) where
  buffer : List α := []
  outstanding : Count := 0
  requestedElementsBeingProcessed : Count := 0
  remainingSubscriptions : Nat := n
  finished : Bool := false
  /-- What is outstanding of each stream -/
  subscriptions : Fin n → Count := fun _ => 0

inductive MergeFrame (n : Nat) where
  /-- `OnNext` for an element of the buffer, in `Request` -/
  | draining
  /-- `Request` on a stream, in `Request`. The loop goes on with the streams that are left. -/
  | requesting (rest : List (Fin n))
  /-- `OnNext`, in `OnInnerSubscriptionNext` -/
  | delivering
  deriving DecidableEq

structure MergeSource (α : Type*) where
  /-- What was requested and has not been emitted -/
  demand : Count := 0
  emitted : List α := []
  ended : Bool := false

namespace MergeSource
variable {α : Type*}

def request (source : MergeSource α) (count : Count) : MergeSource α :=
  if source.ended then source else { source with demand := source.demand + count }

@[simp] theorem request_ended (source : MergeSource α) (count : Count) :
    (source.request count).ended = source.ended := by
  rw [request]
  split <;> rfl

@[simp] theorem request_emitted (source : MergeSource α) (count : Count) :
    (source.request count).emitted = source.emitted := by
  rw [request]
  split <;> rfl

/-- A stream emits no more than was requested. -/
def emit (source : MergeSource α) (element : α) : Option (MergeSource α) :=
  if source.ended ∨ source.demand = 0 then none
  else some { source with demand := source.demand.pred, emitted := source.emitted ++ [element] }

def finish (source : MergeSource α) : Option (MergeSource α) :=
  if source.ended then none else some { source with ended := true }

/-- A stream owes something when it was asked for more than it has emitted and has not ended. -/
def Owes (source : MergeSource α) : Prop := source.ended = false ∧ source.demand ≠ 0

instance (source : MergeSource α) : Decidable source.Owes := inferInstanceAs (Decidable (_ ∧ _))

theorem finish_eq_some {source source' : MergeSource α} :
    source.finish = some source' ↔ source.ended = false ∧ { source with ended := true } = source' := by
  rw [finish, ite_none_left_eq_some, Bool.not_eq_true, some.injEq]

end MergeSource

/-- A subscription with all that takes part. -/
structure Merging (n : Nat) (ε α : Type*) where
  merge : MergeSubscription n α := {}
  stack : List (MergeFrame n) := []
  sources : Fin n → MergeSource α := fun _ => {}
  /-- How many elements the subscriber has requested -/
  requested : Nat := 0
  /-- What the subscriber has got -/
  signals : List (Signal (MergeError ε) α) := []

namespace Merging
variable {n : Nat} {ε α : Type*}

def send (s : Merging n ε α) (signal : Signal (MergeError ε) α) : Merging n ε α :=
  { s with signals := s.signals ++ [signal] }

def delivered (s : Merging n ε α) : List α := items s.signals

def sendOnComplete (s : Merging n ε α) : Merging n ε α := { s with merge.finished := true }.send .complete

def maybeSendOnComplete (s : Merging n ε α) : Merging n ε α :=
  if !s.merge.finished && s.merge.remainingSubscriptions == 0 && s.merge.buffer.isEmpty then s.sendOnComplete else s

def endRequest (s : Merging n ε α) : Merging n ε α :=
  { s with merge.requestedElementsBeingProcessed := 0 }.maybeSendOnComplete

def toRequest (s : Merging n ε α) (i : Fin n) : Count :=
  s.merge.requestedElementsBeingProcessed - s.merge.subscriptions i

/-- A stream is asked for what is to be requested of it. -/
def requestFrom (s : Merging n ε α) (i : Fin n) (rest : List (Fin n)) : Merging n ε α := { s with
    merge.subscriptions := update s.merge.subscriptions i (s.merge.subscriptions i + s.toRequest i)
    sources := update s.sources i ((s.sources i).request (s.toRequest i))
    stack := .requesting rest :: s.stack }

def requestLoop (s : Merging n ε α) : List (Fin n) → Merging n ε α
  | [] => s.endRequest
  | i :: rest => if s.toRequest i = 0 then s.requestLoop rest else s.requestFrom i rest

def drainLoop (s : Merging n ε α) : Merging n ε α :=
  if s.merge.requestedElementsBeingProcessed = 0 then s.endRequest
  else
    match s.merge.buffer with
    | front :: _ => { s with stack := .draining :: s.stack }.send (.next front)
    | [] => s.requestLoop (List.finRange n)

def addRequest (s : Merging n ε α) (count : Count) : Merging n ε α := { s with
    requested := s.requested + count.count
    merge.requestedElementsBeingProcessed := s.merge.requestedElementsBeingProcessed + count }

def beginRequest (s : Merging n ε α) (count : Count) : Merging n ε α := { s.addRequest count with
    merge.outstanding := s.merge.outstanding + (s.addRequest count).merge.requestedElementsBeingProcessed }

def request (s : Merging n ε α) (count : Count) : Merging n ε α :=
  if s.merge.finished then { s with requested := s.requested + count.count }
  else
    let requestIsAlreadyBeingCalled := s.merge.requestedElementsBeingProcessed ≠ 0
    if requestIsAlreadyBeingCalled then s.addRequest count else (s.beginRequest count).drainLoop

/-- The streams may emit after this, but that is ignored. -/
def cancel (s : Merging n ε α) : Merging n ε α := { s with merge.finished := true }

def onInnerSubscriptionError (s : Merging n ε α) (e : MergeError ε) : Merging n ε α :=
  if s.merge.finished then s else s.cancel.send (.error e)

def decrementSubscription (s : Merging n ε α) (i : Fin n) : Merging n ε α :=
  { s with merge.subscriptions := update s.merge.subscriptions i (s.merge.subscriptions i).pred }

def pushBuffer (s : Merging n ε α) (element : α) : Merging n ε α :=
  { s with merge.buffer := s.merge.buffer ++ [element] }

def deliver (s : Merging n ε α) (element : α) : Merging n ε α :=
  { s with merge.outstanding := s.merge.outstanding.pred, stack := .delivering :: s.stack }.send (.next element)

def onInnerSubscriptionNext (s : Merging n ε α) (i : Fin n) (element : α) : Merging n ε α :=
  if s.merge.finished then s
  else if s.merge.subscriptions i = 0 then
    s.onInnerSubscriptionError (.logicError "Got value that was not Request-ed")
  else if s.merge.outstanding = 0 then (s.decrementSubscription i).pushBuffer element
  else (s.decrementSubscription i).deliver element

def decrementRemaining (s : Merging n ε α) : Merging n ε α :=
  { s with merge.remainingSubscriptions := s.merge.remainingSubscriptions - 1 }

def onInnerSubscriptionComplete (s : Merging n ε α) : Merging n ε α := s.decrementRemaining.maybeSendOnComplete

def returnCall (s : Merging n ε α) : Option (Merging n ε α) :=
  match s.stack with
  | [] => none
  | .draining :: stack =>
    some { s with
      stack
      merge.requestedElementsBeingProcessed := s.merge.requestedElementsBeingProcessed.pred
      merge.buffer := s.merge.buffer.tail }.drainLoop
  | .requesting rest :: stack => some ({ s with stack }.requestLoop rest)
  | .delivering :: stack => some { s with stack }

def subscribe (n : Nat) : Merging n ε α :=
  if n = 0 then sendOnComplete {} else {}

end Merging

inductive MergeEvent (n : Nat) (ε α : Type*) where
  | request (count : Count)
  | cancel
  | next (i : Fin n) (element : α)
  | error (i : Fin n) (e : ε)
  | complete (i : Fin n)
  | returns

namespace Merging
variable {n : Nat} {ε α : Type*}

def setSource (s : Merging n ε α) (i : Fin n) (source : MergeSource α) : Merging n ε α :=
  { s with sources := update s.sources i source }

/-- The streams keep to the rules for publishers. -/
def next (s : Merging n ε α) : MergeEvent n ε α → Option (Merging n ε α)
  | .request count => some (s.request count)
  | .cancel => some s.cancel
  | .next i element =>
    ((s.sources i).emit element).map fun source => (s.setSource i source).onInnerSubscriptionNext i element
  | .error i e => (s.sources i).finish.map fun source => (s.setSource i source).onInnerSubscriptionError (.thrown e)
  | .complete i => (s.sources i).finish.map fun source => (s.setSource i source).onInnerSubscriptionComplete
  | .returns => s.returnCall

def Follows (allowed : Merging n ε α → MergeEvent n ε α → Prop) (s s' : Merging n ε α) : Prop :=
  ∃ event, allowed s event ∧ s.next event = some s'

def Reaches (allowed : Merging n ε α → MergeEvent n ε α → Prop) (s : Merging n ε α) : Prop :=
  Relation.ReflTransGen (Follows allowed) (subscribe n) s

variable {s s' : Merging n ε α} {allowed : Merging n ε α → MergeEvent n ε α → Prop}

@[simp] theorem delivered_send_next (s : Merging n ε α) (a : α) : (s.send (.next a)).delivered = s.delivered ++ [a] :=
  items_append_next _ _

@[simp] theorem delivered_send_error (s : Merging n ε α) (e : MergeError ε) :
    (s.send (.error e)).delivered = s.delivered :=
  items_append_error _ _

@[simp] theorem delivered_send_complete (s : Merging n ε α) : (s.send .complete).delivered = s.delivered :=
  items_append_complete _

@[simp] theorem setSource_merge (s : Merging n ε α) (i : Fin n) (source : MergeSource α) :
    (s.setSource i source).merge = s.merge := rfl

theorem maybeSendOnComplete_cases (s : Merging n ε α) :
    (s.merge.finished = false ∧ s.merge.remainingSubscriptions = 0 ∧ s.merge.buffer = [] ∧
        s.maybeSendOnComplete = s.sendOnComplete) ∨
      ((s.merge.remainingSubscriptions = 0 → s.merge.buffer = [] → s.merge.finished = true) ∧
        s.maybeSendOnComplete = s) := by
  rw [maybeSendOnComplete]
  split
  · next h =>
    simp only [Bool.and_eq_true, Bool.not_eq_true', beq_iff_eq, List.isEmpty_iff] at h
    exact .inl ⟨h.1.1, h.1.2, h.2, rfl⟩
  · next h =>
    simp only [Bool.and_eq_true, Bool.not_eq_true', beq_iff_eq, List.isEmpty_iff, not_and] at h
    refine .inr ⟨fun hremaining hbuffer => ?_, rfl⟩
    by_contra hfinished
    exact h ⟨Bool.eq_false_of_not_eq_true hfinished, hremaining⟩ hbuffer

theorem requestLoop_cases (s : Merging n ε α) (sources : List (Fin n)) :
    ((∀ i ∈ sources, s.toRequest i = 0) ∧ s.requestLoop sources = s.endRequest) ∨
      ∃ skipped i rest, sources = skipped ++ i :: rest ∧ (∀ j ∈ skipped, s.toRequest j = 0) ∧
        s.requestLoop sources = s.requestFrom i rest := by
  induction sources with
  | nil => exact .inl ⟨nofun, rfl⟩
  | cons i rest ih =>
    rw [requestLoop]
    split
    · next hnone =>
      rcases ih with ⟨hrest, hloop⟩ | ⟨skipped, j, rest', rfl, hskipped, hloop⟩
      · exact .inl ⟨List.forall_mem_cons.mpr ⟨hnone, hrest⟩, hloop⟩
      · exact .inr ⟨i :: skipped, j, rest', rfl, List.forall_mem_cons.mpr ⟨hnone, hskipped⟩, hloop⟩
    · exact .inr ⟨[], i, rest, rfl, nofun, rfl⟩

theorem Reaches.invariant {P : Merging n ε α → Prop} (hreaches : Reaches allowed s) (hstart : P (subscribe n))
    (hnext : ∀ {s event s'}, allowed s event → s.next event = some s' → P s → P s') : P s := by
  induction hreaches with
  | refl => exact hstart
  | tail _ hfollows ih =>
    obtain ⟨event, hallowed, hstep⟩ := hfollows
    exact hnext hallowed hstep ih

def run (allowed : Merging n ε α → MergeEvent n ε α → Prop) [∀ s event, Decidable (allowed s event)]
    (s : Merging n ε α) (events : List (MergeEvent n ε α)) : Option (Merging n ε α) :=
  events.foldlM (fun s event => if allowed s event then s.next event else none) s

theorem reaches_of_run [∀ s event, Decidable (allowed s event)] {events : List (MergeEvent n ε α)}
    (hrun : (subscribe n).run allowed events = some s) : Reaches allowed s := by
  refine reaches_of_foldlM (fun s₁ event _ s₂ hstep => ?_) hrun
  obtain ⟨hallowed, hstep⟩ := ite_none_right_eq_some.mp hstep
  exact ⟨event, hallowed, hstep⟩

end Merging
end Shuriken.Rs
