import Shuriken.Lib.Except
import Shuriken.Lib.Signals

/-!
# The server side of a unary call

`RsGrpcServerCall` subscribes to the publisher that the handler returns and sends its only response when
it completes. The subscription is a local variable of `TagOperationDone`.
-/
namespace Shuriken.Rpc
open Option
open Signal hiding next error complete

inductive StatusCode where
  | ok
  | internal
  deriving DecidableEq

structure Status where
  code : StatusCode := .ok
  message : String := ""
  deriving DecidableEq

/-- What an `exception_ptr` that is not null points to. -/
inductive Exception where
  | standard (what : String)
  | other
  deriving DecidableEq

def exceptionMessage : Exception → String
  | .standard what => what
  | .other => "Unknown error"

def exceptionToStatus : Option Exception → Status
  | none => {}
  | some error => ⟨.internal, exceptionMessage error⟩

inductive Reply (Response : Type) where
  | finish (response : Response) (status : Status)
  | finishWithError (status : Status)
  deriving DecidableEq

section
variable {Response : Type}

def completionReply (numResponses : Nat) (response : Response) : Reply Response :=
  if numResponses = 1 then .finish response {}
  else .finishWithError ⟨.internal, if numResponses = 0 then "No response" else "Too many responses"⟩

/-- What a call has to be answered with: the response or the error of its publisher. -/
def answer : Emission Exception Response → Reply Response
  | ⟨_, some error⟩ => .finishWithError ⟨.internal, exceptionMessage error⟩
  | ⟨[response], none⟩ => .finish response {}
  | ⟨[], none⟩ => .finishWithError ⟨.internal, "No response"⟩
  | ⟨_ :: _ :: _, none⟩ => .finishWithError ⟨.internal, "Too many responses"⟩

theorem completionReply_eq_answer [Inhabited Response] (items : List Response) :
    completionReply items.length (items.getLastD default) = answer ⟨items, none⟩ := by
  rcases items with - | ⟨response, - | ⟨second, rest⟩⟩
  · rfl
  · rfl
  · simp [completionReply, answer]

structure UnaryCall (Response : Type) [Inhabited Response] where
  awaitingRequest : Bool := true
  numResponses : Nat := 0
  response : Response := default
  /-- What was asked of `stream_`. -/
  sent : List (Reply Response) := []
  /-- The references that gRPC holds, one for each operation that has not completed. -/
  tags : Nat := 1
  deriving DecidableEq

variable [Inhabited Response]

namespace UnaryCall

def onNext (call : UnaryCall Response) (response : Response) : UnaryCall Response :=
  { call with numResponses := call.numResponses + 1, response := response }

def finish (call : UnaryCall Response) (reply : Reply Response) : UnaryCall Response :=
  { call with sent := call.sent ++ [reply], tags := call.tags + 1 }

def onError (call : UnaryCall Response) (error : Exception) : UnaryCall Response :=
  call.finish (.finishWithError (exceptionToStatus (some error)))

def onComplete (call : UnaryCall Response) : UnaryCall Response :=
  call.finish (completionReply call.numResponses call.response)

def receive (call : UnaryCall Response) : Signal Exception Response → UnaryCall Response
  | .next response => call.onNext response
  | .error error => call.onError error
  | .complete => call.onComplete

def release (call : UnaryCall Response) : UnaryCall Response := { call with tags := call.tags - 1 }

end UnaryCall

structure UnaryServing (Response : Type) [Inhabited Response] where
  call : UnaryCall Response := {}
  publisher : Publisher Exception Response := {}
  deriving DecidableEq

inductive UnaryAction (Response : Type) where
  | signal (s : Signal Exception Response)
  | stop

inductive UnaryEvent (Response : Type) where
  /-- What the publisher does while it is subscribed to and its elements are requested. -/
  | operationDone (success : Bool) (handling : List (UnaryAction Response))
  | act (action : UnaryAction Response)

namespace UnaryServing

def act (w : UnaryServing Response) : UnaryAction Response → Option (UnaryServing Response)
  | .signal s => do
      let publisher ← w.publisher.produce s
      if publisher.stopped then some { w with publisher := publisher }
      else some { call := w.call.receive s, publisher := publisher }
  | .stop => do
      let publisher ← w.publisher.stop
      some { w with publisher := publisher }

def actAll (w : UnaryServing Response) (actions : List (UnaryAction Response)) : Option (UnaryServing Response) :=
  actions.foldlM act w

/-- The handler has been called and the call for the next request issued when the publisher is
subscribed to. -/
def tagOperationDone (w : UnaryServing Response) (success : Bool) (handling : List (UnaryAction Response)) :
    Option (UnaryServing Response) :=
  if success && w.call.awaitingRequest then do
    let w ← actAll { call := { w.call with awaitingRequest := false }
                     publisher := w.publisher.subscribe } handling
    -- `subscription` goes out of scope.
    some { w with publisher := w.publisher.cancel }
  else some w

def next (w : UnaryServing Response) : UnaryEvent Response → Option (UnaryServing Response)
  | .operationDone success handling =>
    if 0 < w.call.tags then
      (w.tagOperationDone success handling).map fun w => { w with call := w.call.release }
    else none
  | .act action => w.act action

def run (w : UnaryServing Response) (events : List (UnaryEvent Response)) : Option (UnaryServing Response) :=
  events.foldlM next w

end UnaryServing

structure UnaryCall.Heard (call : UnaryCall Response) (heard : List (Signal Exception Response)) : Prop where
  numResponses : call.numResponses = (items heard).length
  response : call.response = (items heard).getLastD default
  sent : call.sent = (outcome heard).toList.map answer

theorem UnaryCall.Heard.receive {call : UnaryCall Response} {heard : List (Signal Exception Response)}
    (h : call.Heard heard) (hheard : outcome heard = none) (s : Signal Exception Response) :
    (call.receive s).Heard (heard ++ [s]) := by
  have hsent : call.sent = [] := by rw [h.sent, hheard]; rfl
  cases s with
  | next response =>
    refine ⟨?_, ?_, ?_⟩
    · simp [UnaryCall.receive, onNext, h.numResponses]
    · simp [UnaryCall.receive, onNext]
    · rw [outcome_append_singleton hheard]
      exact hsent
  | error error =>
    refine ⟨?_, ?_, ?_⟩
    · rw [items_append_error]
      exact h.numResponses
    · rw [items_append_error]
      exact h.response
    · rw [outcome_append_singleton hheard]
      simp [UnaryCall.receive, onError, finish, hsent, outcomeAfter, answer, exceptionToStatus]
  | complete =>
    refine ⟨?_, ?_, ?_⟩
    · rw [items_append_complete]
      exact h.numResponses
    · rw [items_append_complete]
      exact h.response
    · rw [outcome_append_singleton hheard]
      show call.sent ++ [completionReply call.numResponses call.response] = [answer ⟨items heard, none⟩]
      rw [hsent, h.numResponses, h.response, completionReply_eq_answer]
      rfl

namespace UnaryServing
variable {w w' : UnaryServing Response} {heard : List (Signal Exception Response)}

/-- Only what a publisher signals after it has stopped is missed. -/
structure Hears (w : UnaryServing Response) (heard : List (Signal Exception Response)) : Prop where
  received : Received w.publisher (w.publisher.stopped = true) heard
  call : w.call.Heard heard

variable {action : UnaryAction Response} {event : UnaryEvent Response} {events : List (UnaryEvent Response)}

theorem Hears.act (h : w.Hears heard) (hact : w.act action = some w') : ∃ heard', w'.Hears heard' := by
  cases action with
  | signal s =>
    obtain ⟨publisher, hproduce, hact⟩ := bind_eq_some_iff.mp hact
    obtain ⟨⟨-, houtcome⟩, rfl⟩ := Publisher.produce_eq_some.mp hproduce
    simp only at hact
    split at hact
    · next hstopped =>
      cases hact
      exact ⟨heard, h.received.miss hstopped hproduce, h.call⟩
    · next hstopped =>
      cases hact
      exact ⟨heard ++ [s], h.received.hear hstopped hproduce, h.call.receive (h.received.outcome_eq_none houtcome) s⟩
  | stop =>
    obtain ⟨publisher, hstop, hact⟩ := bind_eq_some_iff.mp hact
    cases hact
    exact ⟨heard, h.received.stop ((Publisher.stop_eq_some.mp hstop).2 ▸ rfl) hstop, h.call⟩

theorem Hears.next (h : w.Hears heard) (hnext : w.next event = some w') : ∃ heard', w'.Hears heard' := by
  cases event with
  | act action => exact h.act hnext
  | operationDone success handling =>
    obtain ⟨-, hnext⟩ := ite_none_right_eq_some.mp hnext
    obtain ⟨w₁, hdone, rfl⟩ := map_eq_some_iff.mp hnext
    rw [tagOperationDone] at hdone
    split at hdone
    · obtain ⟨w₂, hacts, hdone⟩ := bind_eq_some_iff.mp hdone
      cases hdone
      have hstart : ∃ heard', Hears
          ⟨{ w.call with awaitingRequest := false }, w.publisher.subscribe⟩ heard' :=
        ⟨heard, h.received.subscribe, ⟨h.call.numResponses, h.call.response, h.call.sent⟩⟩
      obtain ⟨heard', h'⟩ := foldlM_invariant (P := fun w => ∃ heard', Hears w heard')
        (fun _ _ _ _ hact ⟨_, h⟩ => h.act hact) hstart hacts
      exact ⟨heard', h'.received.cancel, ⟨h'.call.numResponses, h'.call.response, h'.call.sent⟩⟩
    · cases hdone
      exact ⟨heard, h.received, ⟨h.call.numResponses, h.call.response, h.call.sent⟩⟩

theorem Hears.start : Hears ({} : UnaryServing Response) [] where
  received := ⟨fun _ => rfl, nofun⟩
  call := ⟨rfl, rfl, rfl⟩

theorem Hears.run (h : w.Hears heard) (hrun : w.run events = some w') : ∃ heard', w'.Hears heard' :=
  foldlM_invariant (P := fun w => ∃ heard', Hears w heard') (fun _ _ _ _ hnext ⟨_, h⟩ => h.next hnext)
    ⟨heard, h⟩ hrun

theorem Hears.sent_iff {e : Emission Exception Response} (h : w.Hears heard)
    (he : w.publisher.outcome = some e) : w.call.sent = [answer e] ↔ w.publisher.stopped = false := by
  rw [h.call.sent]
  cases hstopped : w.publisher.stopped with
  | false =>
    rw [h.received.outcome_eq he (by simp [hstopped])]
    simp
  | true =>
    rw [h.received.missing hstopped]
    simp

theorem stopped_act (hstopped : w.publisher.stopped = true) (hact : w.act action = some w') :
    w'.publisher.stopped = true := by
  cases action with
  | signal s =>
    obtain ⟨publisher, hproduce, hact⟩ := bind_eq_some_iff.mp hact
    obtain ⟨-, rfl⟩ := Publisher.produce_eq_some.mp hproduce
    rw [if_pos hstopped] at hact
    exact some.inj hact ▸ hstopped
  | stop =>
    obtain ⟨publisher, hstop, hact⟩ := bind_eq_some_iff.mp hact
    obtain ⟨-, rfl⟩ := Publisher.stop_eq_some.mp hstop
    exact some.inj hact ▸ rfl

theorem stopped_actAll {actions : List (UnaryAction Response)} (hstopped : w.publisher.stopped = true)
    (hacts : w.actAll actions = some w') : w'.publisher.stopped = true :=
  foldlM_invariant (P := fun w : UnaryServing Response => w.publisher.stopped = true)
    (fun _ _ _ _ hact hstopped => stopped_act hstopped hact) hstopped hacts

theorem stopped_next (hstopped : w.publisher.stopped = true) (hnext : w.next event = some w') :
    w'.publisher.stopped = true := by
  cases event with
  | act action => exact stopped_act hstopped hnext
  | operationDone success handling =>
    obtain ⟨-, hnext⟩ := ite_none_right_eq_some.mp hnext
    obtain ⟨w₁, hdone, rfl⟩ := map_eq_some_iff.mp hnext
    rw [tagOperationDone] at hdone
    split at hdone
    · obtain ⟨w₂, hacts, hdone⟩ := bind_eq_some_iff.mp hdone
      cases hdone
      have hstopped₂ : w₂.publisher.stopped = true := by
        refine stopped_actAll ?_ hacts
        exact hstopped
      exact hstopped₂
    · exact some.inj hdone ▸ hstopped

theorem Hears.sent_of_stopped (h : w.Hears heard) (hstopped : w.publisher.stopped = true)
    (hrun : w.run events = some w') : w'.call.sent = [] := by
  obtain ⟨heard', h'⟩ := h.run hrun
  have hstopped' := foldlM_invariant (P := fun w : UnaryServing Response => w.publisher.stopped = true)
    (fun _ _ _ _ hnext hstopped => stopped_next hstopped hnext) hstopped hrun
  rw [h'.call.sent, h'.received.missing hstopped']
  rfl

end UnaryServing
end
end Shuriken.Rpc
