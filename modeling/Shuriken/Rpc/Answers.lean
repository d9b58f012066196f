import Shuriken.Rpc.ClientStreamingCall

/-!
# Which calls are answered

A call is answered when it has heard the end of its publisher and, if the requests are a stream, when that
stream has been read to its end.
-/
namespace Shuriken.Rpc
open Option
open Shuriken.Rs (ElementCount)
open Signal hiding next error complete

section
variable {Response : Type} [Inhabited Response]

namespace ClientStreamingCall
variable {call call' : ClientStreamingCall Response} {heard : List (Signal Exception Response)}

structure Heard (call : ClientStreamingCall Response) (heard : List (Signal Exception Response)) : Prop where
  items_eq : ∀ e, outcome heard = some e → e.items = items heard
  numResponses : call.numResponses = (items heard).length
  response : call.response = (items heard).getLastD default
  finished : call.finished = (outcome heard).isSome
  responseError : call.responseError = (outcome heard).bind Emission.failure
  sent : call.sent = if call.state = .sentResponse then (outcome heard).toList.map answer else []
  answered : call.state = .sentResponse → outcome heard ≠ none

section
variable (h : call.Heard heard)
include h

theorem Heard.congr (hnum : call'.numResponses = call.numResponses)
    (hresponse : call'.response = call.response) (hfinished : call'.finished = call.finished)
    (herror : call'.responseError = call.responseError) (hsent : call'.sent = call.sent)
    (hstate : call'.state = .sentResponse ↔ call.state = .sentResponse) : call'.Heard heard where
  items_eq := h.items_eq
  numResponses := hnum.trans h.numResponses
  response := hresponse.trans h.response
  finished := hfinished.trans h.finished
  responseError := herror.trans h.responseError
  sent := by
    rw [hsent, h.sent]
    simp only [hstate]
  answered hs := h.answered (hstate.mp hs)

theorem Heard.sent_eq_nil (hstate : call.state ≠ .sentResponse) : call.sent = [] := by
  rw [h.sent, if_neg hstate]

theorem Heard.reply {e : Emission Exception Response} (he : outcome heard = some e) : call.reply = answer e := by
  have hitems := h.items_eq e he
  have herror : call.responseError = e.failure := by rw [h.responseError, he]; rfl
  obtain ⟨responses, failure⟩ := e
  rw [ClientStreamingCall.reply, herror]
  cases failure with
  | some error => rfl
  | none =>
    rw [if_neg (by simp), h.numResponses, h.response, ← hitems]
    exact completionReply_eq_answer responses

theorem Heard.trySendResponse :
    call.trySendResponse.Heard heard ∧ (call.trySendResponse.state = .streamEnded → outcome heard = none) := by
  rw [ClientStreamingCall.trySendResponse]
  split
  · next hsend =>
    have hsome : (outcome heard).isSome = true := by rw [← h.finished, hsend.1]
    obtain ⟨e, he⟩ := isSome_iff_exists.mp hsome
    refine ⟨⟨h.items_eq, h.numResponses, h.response, h.finished, h.responseError, ?_, ?_⟩, by simp⟩
    · simp [h.sent_eq_nil (by simp [hsend.2]), h.reply he, he]
    · simp [he]
  · next hsend =>
    refine ⟨h, fun hstate => ?_⟩
    have hfinished : call.finished = false := by simpa [hstate] using hsend
    rw [h.finished] at hfinished
    simpa using hfinished

theorem Heard.maybeReadNext : call.maybeReadNext.Heard heard := by
  rcases call.maybeReadNext_cases with heq | ⟨hstate, heq⟩
  · rw [heq]
    exact h
  · rw [heq]
    exact h.congr rfl rfl rfl rfl rfl (by simp [hstate])

theorem Heard.request (count : ElementCount) : (call.request count).Heard heard := by
  rw [ClientStreamingCall.request]
  split
  · next requested _ =>
    have hcall : Heard { call with requested := requested } heard := h.congr rfl rfl rfl rfl rfl Iff.rfl
    exact hcall.maybeReadNext
  · exact h

theorem Heard.receive (hheard : outcome heard = none) (s : Signal Exception Response) :
    (call.receive s).Heard (heard ++ [s]) ∧
      ((call.receive s).state = .streamEnded → outcome (heard ++ [s]) = none) := by
  have hstate : call.state ≠ .sentResponse := fun hstate => h.answered hstate hheard
  have hsent := h.sent_eq_nil hstate
  have houtcome := outcome_append_singleton hheard s
  have hitems : ∀ e, outcome (heard ++ [s]) = some e → e.items = items (heard ++ [s]) := fun e he =>
    items_of_outcomeAfter (houtcome.symm.trans he)
  have herror : call.responseError = none := by rw [h.responseError, hheard]; rfl
  have hfinished : call.finished = false := by rw [h.finished, hheard]; rfl
  cases s with
  | next response =>
    refine ⟨⟨hitems, ?_, ?_, ?_, ?_, ?_, fun hs => absurd hs hstate⟩, fun _ => houtcome⟩
    · simp [ClientStreamingCall.receive, onNext, h.numResponses]
    · simp [ClientStreamingCall.receive, onNext]
    · rw [houtcome]
      exact hfinished
    · rw [houtcome]
      exact herror
    · rw [if_neg (show (call.receive (.next response)).state ≠ .sentResponse from hstate)]
      exact hsent
  | error error =>
    suffices hcall : Heard { call with responseError := some error, finished := true } (heard ++ [.error error])
      from hcall.trySendResponse
    refine ⟨hitems, ?_, ?_, ?_, ?_, ?_, fun hs => absurd hs hstate⟩
    · rw [items_append_error]
      exact h.numResponses
    · rw [items_append_error]
      exact h.response
    · rw [houtcome]
      rfl
    · rw [houtcome]
      rfl
    · rw [if_neg hstate]
      exact hsent
  | complete =>
    suffices hcall : Heard { call with finished := true } (heard ++ [.complete]) from hcall.trySendResponse
    refine ⟨hitems, ?_, ?_, ?_, ?_, ?_, fun hs => absurd hs hstate⟩
    · rw [items_append_complete]
      exact h.numResponses
    · rw [items_append_complete]
      exact h.response
    · rw [houtcome]
      rfl
    · rw [houtcome]
      exact herror
    · rw [if_neg hstate]
      exact hsent

end

end ClientStreamingCall

namespace StreamServing
variable {w w' : StreamServing Response} {heard : List (Signal Exception Response)}

/-- A signal is missed when the publisher has stopped or the call object is gone. -/
structure Hears (w : StreamServing Response) (heard : List (Signal Exception Response)) : Prop where
  received : Received w.publisher (w.publisher.stopped = true ∨ w.lost = true) heard
  call : w.call.Heard heard
  unanswered : w.call.state = .streamEnded → outcome heard = none
  ended : w.requestsEnded = true ↔ w.call.state = .streamEnded ∨ w.call.state = .sentResponse
  gone : w.lost = true → w.alive = false

section
variable (h : w.Hears heard)
include h

theorem Hears.not_lost (halive : w.alive = true) : w.lost ≠ true := fun hlost => by
  rw [h.gone hlost] at halive
  nomatch halive

theorem Hears.acts (hacts : w.Acts w') : ∃ heard', w'.Hears heard' := by
  have hended : w'.requestsEnded = true ↔ w'.call.state = .streamEnded ∨ w'.call.state = .sentResponse := by
    rw [hacts.requestsEnded, h.ended, hacts.issues.ended_iff]
  cases hacts with
  | miss hproduce hstopped =>
    exact ⟨heard, h.received.miss (.inl hstopped) hproduce, h.call, h.unanswered, hended, h.gone⟩
  | @hear s publisher hproduce hstopped halive =>
    have houtcome := h.received.outcome_eq_none (Publisher.produce_eq_some.mp hproduce).1.2
    have hreceive := h.call.receive houtcome s
    refine ⟨heard ++ [s], ?_, hreceive.1, hreceive.2, hended, fun hlost => absurd hlost (h.not_lost halive)⟩
    obtain ⟨-, rfl⟩ := Publisher.produce_eq_some.mp hproduce
    exact h.received.hear (fun hmissed => hmissed.elim hstopped (h.not_lost halive)) hproduce
  | lose hproduce halive =>
    exact ⟨heard, h.received.miss (.inr rfl) hproduce, h.call, h.unanswered, hended,
      fun _ => Bool.eq_false_iff.mpr halive⟩
  | stop hstop =>
    exact ⟨heard, h.received.stop (.inl ((Publisher.stop_eq_some.mp hstop).2 ▸ rfl)) hstop, h.call,
      h.unanswered, hended, h.gone⟩
  | subscribe halive =>
    exact ⟨heard, h.received, h.call.congr rfl rfl rfl rfl rfl Iff.rfl, h.unanswered, hended,
      fun hlost => absurd hlost (h.not_lost halive)⟩
  | request halive count =>
    refine ⟨heard, h.received, h.call.request count, fun hstate => h.unanswered ?_, hended,
      fun hlost => absurd hlost (h.not_lost halive)⟩
    have hissues := w.call.request_issues count
    rw [show (w.call.request count).state = .streamEnded from hstate] at hissues
    exact hissues.of_streamEnded
  | hold halive =>
    exact ⟨heard, h.received, h.call, h.unanswered, hended, fun hlost => absurd hlost (h.not_lost halive)⟩

theorem Hears.actAll {actions : List (StreamAction Response)}
    (hacts : w.actAll actions = some w') : ∃ heard', w'.Hears heard' :=
  foldlM_invariant (P := fun w => ∃ heard', Hears w heard')
    (fun _ _ _ _ hact ⟨_, h⟩ => h.acts (acts_of_act hact)) ⟨heard, h⟩ hacts

section
variable (htags : 0 < w.call.tags)
include htags

theorem Hears.init {calling during : List (StreamAction Response)} (hinit : w.init calling during = some w') :
    ∃ heard', w'.Hears heard' := by
  obtain ⟨w₁, hcalling, hinit⟩ := bind_eq_some_iff.mp hinit
  obtain ⟨w₂, hduring, hinit⟩ := bind_eq_some_iff.mp hinit
  cases hinit
  have hstart : Hears { w with requestPublishers := 1 } heard :=
    ⟨h.received, h.call, h.unanswered, h.ended, fun hlost => absurd hlost (h.not_lost (alive_of_tags htags))⟩
  obtain ⟨heard₁, h₁⟩ := hstart.actAll hcalling
  have hsubscribed : Hears { w₁ with publisher := w₁.publisher.subscribe } heard₁ :=
    ⟨h₁.received.subscribe, h₁.call, h₁.unanswered, h₁.ended, h₁.gone⟩
  obtain ⟨heard₂, h₂⟩ := hsubscribed.actAll hduring
  exact ⟨heard₂, h₂.received.cancel, h₂.call, h₂.unanswered, h₂.ended, h₂.gone⟩

theorem Hears.setCall {call : ClientStreamingCall Response} {requestsEnded : Bool} (hcall : call.Heard heard)
    (hunanswered : call.state = .streamEnded → outcome heard = none)
    (hended : requestsEnded = true ↔ call.state = .streamEnded ∨ call.state = .sentResponse) :
    Hears { w with call := call, requestsEnded := requestsEnded } heard where
  received := h.received
  call := hcall
  unanswered := hunanswered
  ended := hended
  gone hlost := absurd hlost (h.not_lost (alive_of_tags htags))

theorem Hears.requestDone (hstate : w.call.state = .requestedData) :
    Hears { w with call := { w.call with state := .waitingForDataRequest }.maybeReadNext } heard := by
  have hcall : ClientStreamingCall.Heard { w.call with state := .waitingForDataRequest } heard :=
    h.call.congr rfl rfl rfl rfl rfl (by simp [hstate])
  have hissues := ClientStreamingCall.maybeReadNext_issues { w.call with state := .waitingForDataRequest }
  refine h.setCall htags hcall.maybeReadNext (fun hended => ?_) ?_
  · rw [hended] at hissues
    nomatch hissues.of_streamEnded
  · rw [hissues.ended_iff, h.ended, hstate]
    simp

theorem Hears.requestsDone (hstate : w.call.state = .requestedData) :
    Hears { w with call := { w.call with state := .streamEnded }.trySendResponse, requestsEnded := true } heard := by
  have hcall : ClientStreamingCall.Heard { w.call with state := .streamEnded } heard :=
    h.call.congr rfl rfl rfl rfl rfl (by simp [hstate])
  have hissues := ClientStreamingCall.trySendResponse_issues { w.call with state := .streamEnded }
  refine h.setCall htags hcall.trySendResponse.1 hcall.trySendResponse.2 ?_
  rw [hissues.ended_iff]
  simp

theorem Hears.tagOperationDone {success : Bool} {calling during : List (StreamAction Response)}
    (hdone : w.tagOperationDone success calling during = some w') : ∃ heard', w'.Hears heard' := by
  rw [StreamServing.tagOperationDone] at hdone
  split at hdone
  · next hstate =>
    split at hdone
    · have hcall : ClientStreamingCall.Heard { w.call with state := .waitingForDataRequest } heard :=
        h.call.congr rfl rfl rfl rfl rfl (by simp [hstate])
      have hwaiting : Hears { w with call := { w.call with state := .waitingForDataRequest } } heard :=
        h.setCall htags hcall nofun (by rw [h.ended, hstate]; simp)
      exact hwaiting.init htags hdone
    · exact ⟨heard, some.inj hdone ▸ h⟩
  · exact ⟨heard, some.inj hdone ▸ ⟨h.received, h.call, h.unanswered, h.ended, h.gone⟩⟩
  · next hstate =>
    split at hdone
    · exact ⟨heard, some.inj hdone ▸ ⟨h.received, h.call, h.unanswered, h.ended, h.gone⟩⟩
    · obtain ⟨w₁, hacts, hdone⟩ := bind_eq_some_iff.mp hdone
      obtain ⟨heard₁, h₁⟩ := h.actAll hacts
      obtain ⟨hstate₁, htags₁⟩ := actAll_of_requestedData hstate hacts
      rw [← htags₁] at htags
      split at hdone
      · exact ⟨heard₁, some.inj hdone ▸ h₁.requestDone htags hstate₁⟩
      · exact ⟨heard₁, some.inj hdone ▸ h₁.requestsDone htags hstate₁⟩
  · exact ⟨heard, some.inj hdone ▸ ⟨h.received, h.call, h.unanswered, h.ended, h.gone⟩⟩
  · exact ⟨heard, some.inj hdone ▸ h⟩

end

theorem Hears.release : Hears { w with call := w.call.release } heard where
  received := h.received
  call := h.call.congr rfl rfl rfl rfl rfl Iff.rfl
  unanswered := h.unanswered
  ended := h.ended
  gone hlost := by
    have hgone := h.gone hlost
    simp only [alive, Bool.or_eq_false_iff, decide_eq_false_iff_not] at hgone ⊢
    exact ⟨⟨fun htags => hgone.1.1 (Nat.lt_of_lt_of_le htags (Nat.sub_le _ _)), hgone.1.2⟩, hgone.2⟩

theorem Hears.next {event : StreamEvent Response} (hnext : w.next event = some w') : ∃ heard', w'.Hears heard' := by
  cases event with
  | act action => exact h.acts (acts_of_act hnext)
  | operationDone success calling during =>
    obtain ⟨htags, hnext⟩ := ite_none_right_eq_some.mp hnext
    obtain ⟨w₁, hdone, rfl⟩ := map_eq_some_iff.mp hnext
    obtain ⟨heard₁, h₁⟩ := h.tagOperationDone htags hdone
    exact ⟨heard₁, h₁.release⟩

end

theorem Hears.start : Hears ({} : StreamServing Response) [] where
  received := ⟨fun _ => rfl, nofun⟩
  call := ⟨nofun, rfl, rfl, rfl, rfl, rfl, nofun⟩
  unanswered := nofun
  ended := by simp
  gone := nofun

variable {events : List (StreamEvent Response)}

theorem Hears.run (h : w.Hears heard) (hrun : w.run events = some w') : ∃ heard', w'.Hears heard' :=
  foldlM_invariant (P := fun w => ∃ heard', Hears w heard') (fun _ _ _ _ hnext ⟨_, h⟩ => h.next hnext)
    ⟨heard, h⟩ hrun

theorem Hears.sent_iff {e : Emission Exception Response} (h : w.Hears heard) (he : w.publisher.outcome = some e) :
    w.call.sent = [answer e] ↔ w.publisher.stopped = false ∧ w.lost = false ∧ w.requestsEnded = true := by
  rw [h.call.sent]
  by_cases hmissed : w.publisher.stopped = true ∨ w.lost = true
  · rw [h.received.missing hmissed]
    rcases hmissed with hmissed | hmissed <;> simp [hmissed]
  · have hheard := h.received.outcome_eq he hmissed
    have hstate : w.call.state ≠ .streamEnded := fun hstate => nomatch hheard.symm.trans (h.unanswered hstate)
    rw [hheard, h.ended]
    simp only [not_or, Bool.not_eq_true] at hmissed
    simp [hmissed.1, hmissed.2, hstate]

theorem sent_of_not_alive (halive : w.alive = false) (hrun : w.run events = some w') : w'.call.sent = w.call.sent := by
  refine (foldlM_invariant (P := fun w' => w'.alive = false ∧ w'.call.sent = w.call.sent)
    (fun w₁ event _ w₂ hnext ⟨halive, hsent⟩ => ?_) ⟨halive, rfl⟩ hrun).2
  cases event with
  | operationDone success calling during =>
    have htags := (ite_none_right_eq_some.mp hnext).1
    exact absurd (alive_of_tags htags) (by simp [halive])
  | act action =>
    cases acts_of_act hnext with
    | miss | lose | stop => exact ⟨halive, hsent⟩
    | hear _ _ h | subscribe h | request h | hold h => exact absurd h (by simp [halive])

end StreamServing

/-- In every run, once the publisher has ended a unary call has been answered with its response or error,
and only once, if and only if the publisher did not stop before, which it can only do when
`TagOperationDone` has returned. A client streaming call moreover has to have been kept by its handler, and
the requests have to have been read to their end. -/
theorem answered_iff_heard {Response : Type} [Inhabited Response] (e : Emission Exception Response) :
    (∀ (events : List (UnaryEvent Response)) (w : UnaryServing Response),
      UnaryServing.run {} events = some w → w.publisher.outcome = some e →
        (w.call.sent = [answer e] ↔ w.publisher.stopped = false)) ∧
    (∀ (events : List (StreamEvent Response)) (w : StreamServing Response),
      StreamServing.run {} events = some w → w.publisher.outcome = some e → (w.call.sent = [answer e] ↔
          w.publisher.stopped = false ∧ w.lost = false ∧ w.requestsEnded = true)) := by
  refine ⟨fun events w hrun he => ?_, fun events w hrun he => ?_⟩
  · obtain ⟨heard, h⟩ := UnaryServing.Hears.start.run hrun
    exact h.sent_iff he
  · obtain ⟨heard, h⟩ := StreamServing.Hears.start.run hrun
    exact h.sent_iff he

end

/-- The publisher stops when its subscription is destroyed and responds later. -/
def respondsLater : List (UnaryEvent Nat) :=
  [.operationDone true [], .act .stop, .act (.signal (.next 7)), .act (.signal .complete)]

def readsNothing : List (StreamEvent Nat) :=
  [.operationDone true [.dropRequests] [.signal (.next 7), .signal .complete]]

/-- The handler has let go of the requests, which have been read to their end, when it responds. -/
def letsGo : List (StreamEvent Nat) :=
  [.operationDone true [.subscribeToRequests, .request 1, .dropSubscription, .dropRequests] [],
    .operationDone false [] [], .act (.signal (.next 7)), .act (.signal .complete)]

theorem ended_calls_are_not_answered :
    (∃ w, UnaryServing.run {} respondsLater = some w ∧ w.publisher.outcome = some (.just 7) ∧
      ∀ later w', w.run later = some w' → w'.call.sent = []) ∧
    ∀ events ∈ [readsNothing, letsGo], ∃ w, StreamServing.run {} events = some w ∧
      w.publisher.outcome = some (.just 7) ∧ w.publisher.stopped = false ∧
      ∀ later w', w.run later = some w' → w'.call.sent = [] := by
  constructor
  · have hrun : ∃ w, UnaryServing.run {} respondsLater = some w ∧
        w.publisher.outcome = some (.just 7) ∧ w.publisher.stopped = true := by decide
    obtain ⟨w, hrun, houtcome, hstopped⟩ := hrun
    obtain ⟨heard, h⟩ := UnaryServing.Hears.start.run hrun
    exact ⟨w, hrun, houtcome, fun later w' hlater => h.sent_of_stopped hstopped hlater⟩
  · intro events hevents
    have hrun : ∀ events ∈ [readsNothing, letsGo], ∃ w, StreamServing.run {} events = some w ∧
        w.publisher.outcome = some (.just 7) ∧ w.publisher.stopped = false ∧
        w.alive = false ∧ w.call.sent = [] := by decide
    obtain ⟨w, hrun, houtcome, hstopped, halive, hsent⟩ := hrun events hevents
    exact ⟨w, hrun, houtcome, hstopped, fun later w' hlater =>
      (StreamServing.sent_of_not_alive halive hlater).trans hsent⟩

def respondsAtOnce : List (UnaryEvent Nat) := [.operationDone true [.signal (.next 7), .signal .complete]]

def readsAll : List (StreamEvent Nat) :=
  [.operationDone true [.subscribeToRequests, .request 2, .dropRequests] [], .operationDone true [] [],
    .operationDone false [] [.signal (.next 7), .signal .complete]]

theorem answered_iff_heard_at_once : (∃ w, UnaryServing.run {} respondsAtOnce = some w ∧ w.call.sent = [.finish 7 {}]) ∧
      ∃ w, StreamServing.run {} readsAll = some w ∧ w.call.sent = [.finish 7 {}] := by
  have hunary : ∃ w, UnaryServing.run {} respondsAtOnce = some w ∧
      w.publisher.outcome = some (.just 7) ∧ w.publisher.stopped = false := by decide
  have hstream : ∃ v, StreamServing.run {} readsAll = some v ∧ v.publisher.outcome = some (.just 7) ∧
      v.publisher.stopped = false ∧ v.lost = false ∧ v.requestsEnded = true := by decide
  obtain ⟨w, hw, hwoutcome, hwstopped⟩ := hunary
  obtain ⟨v, hv, hvoutcome, hvheard⟩ := hstream
  exact ⟨⟨w, hw, ((answered_iff_heard (.just 7)).1 _ w hw hwoutcome).mpr hwstopped⟩,
    ⟨v, hv, ((answered_iff_heard (.just 7)).2 _ v hv hvoutcome).mpr hvheard⟩⟩

end Shuriken.Rpc
