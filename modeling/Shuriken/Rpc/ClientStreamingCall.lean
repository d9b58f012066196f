import Shuriken.Rpc.UnaryCall
import Shuriken.Rs.ElementCount

/-!
# The server side of a client streaming call

The handler gets a publisher of the requests, from which it reads as many as it asks for, and returns the
publisher of the response.
-/
namespace Shuriken.Rpc
open Signal hiding next error complete
open Shuriken.Rs (ElementCount elementCountAdd)

inductive CallState where
  | init
  | waitingForDataRequest
  | requestedData
  | streamEnded
  | sentResponse
  deriving DecidableEq

structure ClientStreamingCall (Response : Type) [Inhabited Response] where
  requested : ElementCount := 0
  /-- Whether `subscriber_` is set. -/
  subscriber : Bool := false
  state : CallState := .init
  response : Response := default
  numResponses : Nat := 0
  responseError : Option Exception := none
  finished : Bool := false
  /-- What was asked of `reader_` to end the call. -/
  sent : List (Reply Response) := []
  tags : Nat := 1
  deriving DecidableEq

section
variable {Response : Type} [Inhabited Response]

namespace ClientStreamingCall

def maybeReadNext (call : ClientStreamingCall Response) : ClientStreamingCall Response :=
  if 0 < call.requested ∧ call.state = .waitingForDataRequest then
    { call with requested := call.requested.decrement, state := .requestedData, tags := call.tags + 1 }
  else call

def reply (call : ClientStreamingCall Response) : Reply Response :=
  if call.responseError.isSome then .finishWithError (exceptionToStatus call.responseError)
  else completionReply call.numResponses call.response

def trySendResponse (call : ClientStreamingCall Response) : ClientStreamingCall Response :=
  if call.finished = true ∧ call.state = .streamEnded then
    { call with state := .sentResponse, sent := call.sent ++ [call.reply], tags := call.tags + 1 }
  else call

def onNext (call : ClientStreamingCall Response) (response : Response) : ClientStreamingCall Response :=
  { call with response := response, numResponses := call.numResponses + 1 }

def onError (call : ClientStreamingCall Response) (error : Exception) : ClientStreamingCall Response :=
  trySendResponse { call with responseError := some error, finished := true }

def onComplete (call : ClientStreamingCall Response) : ClientStreamingCall Response :=
  trySendResponse { call with finished := true }

def receive (call : ClientStreamingCall Response) : Signal Exception Response → ClientStreamingCall Response
  | .next response => call.onNext response
  | .error error => call.onError error
  | .complete => call.onComplete

/-- An exception of the addition is thrown to the handler. -/
def request (call : ClientStreamingCall Response) (count : ElementCount) : ClientStreamingCall Response :=
  match elementCountAdd call.requested count with
  | .ok requested => maybeReadNext { call with requested := requested }
  | .error _ => call

def release (call : ClientStreamingCall Response) : ClientStreamingCall Response := { call with tags := call.tags - 1 }

end ClientStreamingCall

/-- A call, the publisher that its handler returned, and what the handler holds of the requests. -/
structure StreamServing (Response : Type) [Inhabited Response] where
  call : ClientStreamingCall Response := {}
  publisher : Publisher Exception Response := {}
  requestPublishers : Nat := 0
  requestSubscription : Bool := false
  /-- gRPC has told that there are no more requests. -/
  requestsEnded : Bool := false
  /-- A signal came when the call object had been deleted. -/
  lost : Bool := false
  /-- `abort` was called, or a null `subscriber_` used. -/
  aborted : Bool := false
  deriving DecidableEq

inductive StreamAction (Response : Type) where
  | signal (s : Signal Exception Response)
  | stop
  | subscribeToRequests
  | request (count : ElementCount)
  | copyRequests
  | dropRequests
  | dropSubscription

inductive StreamEvent (Response : Type) where
  /-- `calling` is done by the handler while it is called for a new request, `during` while its publisher
  is subscribed to or while it gets a signal of the request stream. -/
  | operationDone (success : Bool) (calling during : List (StreamAction Response))
  | act (action : StreamAction Response)

namespace StreamServing

/-- A strong reference to the call object exists. -/
def alive (w : StreamServing Response) : Bool :=
  decide (0 < w.call.tags) || decide (0 < w.requestPublishers) || w.requestSubscription

def act (w : StreamServing Response) : StreamAction Response → Option (StreamServing Response)
  | .signal s => do
      let publisher ← w.publisher.produce s
      if publisher.stopped then some { w with publisher := publisher }
      else if w.alive then some { w with publisher := publisher, call := w.call.receive s }
      else some { w with publisher := publisher, lost := true }
  | .stop => do
      let publisher ← w.publisher.stop
      some { w with publisher := publisher }
  | .subscribeToRequests =>
    if 0 < w.requestPublishers then
      -- A second subscription throws.
      if w.call.subscriber then some w
      else some { w with call := { w.call with subscriber := true }, requestSubscription := true }
    else none
  | .request count => if w.requestSubscription then some { w with call := w.call.request count } else none
  | .copyRequests =>
    if 0 < w.requestPublishers then some { w with requestPublishers := w.requestPublishers + 1 } else none
  | .dropRequests =>
    if 0 < w.requestPublishers then some { w with requestPublishers := w.requestPublishers - 1 } else none
  | .dropSubscription => if w.requestSubscription then some { w with requestSubscription := false } else none

def actAll (w : StreamServing Response) (actions : List (StreamAction Response)) : Option (StreamServing Response) :=
  actions.foldlM act w

def init (w : StreamServing Response) (calling during : List (StreamAction Response)) :
    Option (StreamServing Response) := do
  let w ← actAll { w with requestPublishers := 1 } calling
  let w ← actAll { w with publisher := w.publisher.subscribe } during
  -- `subscription` goes out of scope.
  some { w with publisher := w.publisher.cancel }

def tagOperationDone (w : StreamServing Response) (success : Bool)
    (calling during : List (StreamAction Response)) : Option (StreamServing Response) :=
  match w.call.state with
  | .init =>
    if success then init { w with call := { w.call with state := .waitingForDataRequest } } calling during
    else some w
  | .waitingForDataRequest => some { w with aborted := true }
  | .requestedData =>
    if !w.call.subscriber then some { w with aborted := true }
    else do
      let w ← w.actAll during
      if success then
        some { w with call := { w.call with state := .waitingForDataRequest }.maybeReadNext }
      else
        some { w with call := { w.call with state := .streamEnded }.trySendResponse, requestsEnded := true }
  | .streamEnded => some { w with aborted := true }
  | .sentResponse => some w

def next (w : StreamServing Response) : StreamEvent Response → Option (StreamServing Response)
  | .operationDone success calling during =>
    if 0 < w.call.tags then
      (w.tagOperationDone success calling during).map fun w => { w with call := w.call.release }
    else none
  | .act action => w.act action

def run (w : StreamServing Response) (events : List (StreamEvent Response)) : Option (StreamServing Response) :=
  events.foldlM next w

end StreamServing

/-- What one action can do to the state of a call and to the number of references of gRPC. -/
inductive Issues : CallState → Nat → CallState → Nat → Prop
  | nothing (state : CallState) (tags : Nat) : Issues state tags state tags
  | read (tags : Nat) : Issues .waitingForDataRequest tags .requestedData (tags + 1)
  | finish (tags : Nat) : Issues .streamEnded tags .sentResponse (tags + 1)

namespace Issues
variable {state state' : CallState} {tags tags' : Nat}

theorem ended_iff (h : Issues state tags state' tags') :
    state' = .streamEnded ∨ state' = .sentResponse ↔ state = .streamEnded ∨ state = .sentResponse := by
  cases h <;> simp

theorem of_requestedData (h : Issues .requestedData tags state' tags') : state' = .requestedData ∧ tags' = tags := by
  cases h
  exact ⟨rfl, rfl⟩

theorem of_streamEnded (h : Issues state tags .streamEnded tags') : state = .streamEnded := by
  cases h
  rfl

end Issues

namespace ClientStreamingCall
section
variable (call : ClientStreamingCall Response)
include call

theorem maybeReadNext_cases : call.maybeReadNext = call ∨ call.state = .waitingForDataRequest ∧ call.maybeReadNext =
        { call with requested := call.requested.decrement, state := .requestedData, tags := call.tags + 1 } := by
  rw [maybeReadNext]
  split
  · next h => exact .inr ⟨h.2, rfl⟩
  · exact .inl rfl

theorem trySendResponse_issues : Issues call.state call.tags call.trySendResponse.state call.trySendResponse.tags := by
  rw [trySendResponse]
  split
  · next h =>
    rw [h.2]
    exact .finish _
  · exact .nothing _ _

theorem maybeReadNext_issues : Issues call.state call.tags call.maybeReadNext.state call.maybeReadNext.tags := by
  rcases call.maybeReadNext_cases with h | ⟨hstate, h⟩
  · rw [h]
    exact .nothing _ _
  · rw [h, hstate]
    exact .read _

theorem receive_issues (s : Signal Exception Response) :
    Issues call.state call.tags (call.receive s).state (call.receive s).tags := by
  cases s with
  | next response => exact .nothing _ _
  | error error => exact trySendResponse_issues { call with responseError := some error, finished := true }
  | complete => exact trySendResponse_issues { call with finished := true }

theorem request_issues (count : ElementCount) :
    Issues call.state call.tags (call.request count).state (call.request count).tags := by
  rw [request]
  split
  · next requested _ => exact maybeReadNext_issues { call with requested := requested }
  · exact .nothing _ _

end

end ClientStreamingCall

namespace StreamServing
variable {w w' : StreamServing Response}

theorem alive_iff : w.alive = true ↔ 0 < w.call.tags ∨ 0 < w.requestPublishers ∨ w.requestSubscription = true := by
  simp [alive, or_assoc]

theorem alive_of_tags (h : 0 < w.call.tags) : w.alive = true := alive_iff.mpr (.inl h)

/-- What an action can do: to the publisher, or with what the handler holds of the requests. -/
inductive Acts (w : StreamServing Response) : StreamServing Response → Prop
  | miss {s : Signal Exception Response} {publisher : Publisher Exception Response}
      (hproduce : w.publisher.produce s = some publisher) (hstopped : publisher.stopped = true) :
      Acts w { w with publisher := publisher }
  | hear {s : Signal Exception Response} {publisher : Publisher Exception Response}
      (hproduce : w.publisher.produce s = some publisher) (hstopped : publisher.stopped ≠ true)
      (halive : w.alive = true) : Acts w { w with publisher := publisher, call := w.call.receive s }
  | lose {s : Signal Exception Response} {publisher : Publisher Exception Response}
      (hproduce : w.publisher.produce s = some publisher) (halive : w.alive ≠ true) :
      Acts w { w with publisher := publisher, lost := true }
  | stop {publisher : Publisher Exception Response} (hstop : w.publisher.stop = some publisher) :
      Acts w { w with publisher := publisher }
  | subscribe (halive : w.alive = true) :
      Acts w { w with call := { w.call with subscriber := true }, requestSubscription := true }
  | request (halive : w.alive = true) (count : ElementCount) (hsubscription : w.requestSubscription = true) :
      Acts w { w with call := w.call.request count }
  | hold (halive : w.alive = true) (publishers : Nat) (subscription : Bool)
      (hsubscription : subscription = true → w.requestSubscription = true) :
      Acts w { w with requestPublishers := publishers, requestSubscription := subscription }

theorem acts_of_act {action : StreamAction Response} (hact : w.act action = some w') : w.Acts w' := by
  cases action with
  | signal s =>
    obtain ⟨publisher, hproduce, hact⟩ := Option.bind_eq_some_iff.mp hact
    split at hact
    · next hstopped => exact Option.some.inj hact ▸ .miss hproduce hstopped
    · next hstopped =>
      split at hact
      · next halive => exact Option.some.inj hact ▸ .hear hproduce hstopped halive
      · next halive => exact Option.some.inj hact ▸ .lose hproduce halive
  | stop =>
    obtain ⟨publisher, hstop, hact⟩ := Option.bind_eq_some_iff.mp hact
    exact Option.some.inj hact ▸ .stop hstop
  | subscribeToRequests =>
    obtain ⟨hpublishers, hact⟩ := Option.ite_none_right_eq_some.mp hact
    have halive := alive_iff.mpr (.inr (.inl hpublishers))
    split at hact
    · exact Option.some.inj hact ▸ .hold halive w.requestPublishers w.requestSubscription id
    · exact Option.some.inj hact ▸ .subscribe halive
  | request count =>
    obtain ⟨hsubscription, hact⟩ := Option.ite_none_right_eq_some.mp hact
    exact Option.some.inj hact ▸ .request (alive_iff.mpr (.inr (.inr hsubscription))) count hsubscription
  | copyRequests | dropRequests =>
    obtain ⟨hpublishers, hact⟩ := Option.ite_none_right_eq_some.mp hact
    exact Option.some.inj hact ▸ .hold (alive_iff.mpr (.inr (.inl hpublishers))) _ w.requestSubscription id
  | dropSubscription =>
    obtain ⟨hsubscription, hact⟩ := Option.ite_none_right_eq_some.mp hact
    exact Option.some.inj hact ▸ .hold (alive_iff.mpr (.inr (.inr hsubscription))) w.requestPublishers false nofun

theorem Acts.issues (h : w.Acts w') : Issues w.call.state w.call.tags w'.call.state w'.call.tags := by
  cases h with
  | hear => exact w.call.receive_issues _
  | request _ count => exact w.call.request_issues count
  | miss | lose | stop | subscribe | hold => exact .nothing _ _

theorem Acts.requestsEnded (h : w.Acts w') : w'.requestsEnded = w.requestsEnded := by
  cases h <;> rfl

variable {actions : List (StreamAction Response)} {others : Nat}

theorem actAll_of_requestedData (hstate : w.call.state = .requestedData) (hacts : w.actAll actions = some w') :
    w'.call.state = .requestedData ∧ w'.call.tags = w.call.tags :=
  Option.foldlM_invariant (P := fun w' => w'.call.state = .requestedData ∧ w'.call.tags = w.call.tags)
    (fun w₁ _ _ w₂ hact ⟨hstate, htags⟩ => by
      have hissues := (acts_of_act hact).issues
      rw [hstate] at hissues
      exact ⟨hissues.of_requestedData.1, hissues.of_requestedData.2.trans htags⟩) ⟨hstate, rfl⟩ hacts

end StreamServing
end
end Shuriken.Rpc
