import Shuriken.Rs.Filter
import Shuriken.Rs.Merge

/-!
# Concatenated streams

`rs/concat_map.h`. The subscription that is current is taken away while more is
requested of it. `ConcatMapSubscription` has a reference to itself when there is no
values publisher, and that one has it otherwise.
-/
namespace Shuriken.Rs
open Option List

inductive ConcatMapFrame where
  /-- `Request` on a values publisher, in `Request` -/
  | requesting (i : Nat)
  /-- `Subscribe` on a values publisher, in `OnPublishersNext` -/
  | subscribing (i : Nat)
  /-- `Request` on a values publisher, in `OnPublishersNext`, which leaves the subscription where it is -/
  | passing (i : Nat)

inductive ConcatMapEvent (ε ι α : Type*) where
  | request (count : Count)
  | cancel
  | publishers (signal : Signal ε ι)
  | values (i : Nat) (signal : Signal ε α)
  | returns

structure ConcatMap (ε ι α : Type*) where
  failed : Bool := false
  publishersComplete : Bool := false
  requested : Count := 0
  toBeRequested : Count := 0
  subscription : Option Nat := none
  selfRef : Bool := true
  stack : List ConcatMapFrame := []
  /-- The source, of which one publisher is requested to start with -/
  publishers : Source ε ι := { demand := ⟨1, by decide⟩ }
  /-- What the mapper has returned -/
  values : List (Source ε α) := []
  asked : Nat := 0
  signals : List (Signal (MergeError ε) α) := []

namespace ConcatMap
variable {ε ι α : Type*} {π : Type*}

def send (s : ConcatMap ε ι α) (signal : Signal (MergeError ε) α) : ConcatMap ε ι α :=
  { s with signals := s.signals ++ [signal] }

def cancel (s : ConcatMap ε ι α) : ConcatMap ε ι α :=
  { s with
    publishers := s.publishers.cancel
    values := s.subscription.elim s.values fun i => s.values.modify i .cancel }

def onError (s : ConcatMap ε ι α) (e : MergeError ε) : ConcatMap ε ι α :=
  { s.cancel with failed := true }.send (.error e)

def requestLoop (s : ConcatMap ε ι α) : ConcatMap ε ι α :=
  match s.subscription with
  | none => s
  | some i =>
    { s with
      requested := s.requested + s.toBeRequested
      toBeRequested := 0
      subscription := none
      values := s.values.modify i (.request · s.toBeRequested)
      stack := .requesting i :: s.stack }

def request (s : ConcatMap ε ι α) (count : Count) : ConcatMap ε ι α :=
  { s with toBeRequested := s.toBeRequested + count, asked := s.asked + count.count }.requestLoop

def returnCall (s : ConcatMap ε ι α) : ConcatMapFrame → ConcatMap ε ι α
  | .requesting i =>
    let s := { s with subscription := s.subscription.or (some i) }
    if s.toBeRequested = 0 then s else s.requestLoop
  | .subscribing i =>
    { s with
      subscription := some i
      values := s.values.modify i (.request · s.requested)
      stack := .passing i :: s.stack }
  | .passing _ => s

def onValuesNext (s : ConcatMap ε ι α) (a : α) : ConcatMap ε ι α :=
  if s.failed then s
  else if s.requested = 0 then s.onError (.logicError "Got value that was not Request-ed")
  else { s with requested := s.requested.pred }.send (.next a)

def onValuesComplete (s : ConcatMap ε ι α) : ConcatMap ε ι α :=
  if s.failed then s
  else if s.publishersComplete then s.send .complete
  else { s with selfRef := true, publishers := s.publishers.request ⟨1, one_le_max⟩ }

def onPublishersNext (s : ConcatMap ε ι α) : ConcatMap ε ι α :=
  if s.failed then s
  else if s.selfRef then
    { s with selfRef := false, values := s.values ++ [{}], stack := .subscribing s.values.length :: s.stack }
  else s.onError (.logicError "Got value that was not Request-ed")

def onPublishersComplete (s : ConcatMap ε ι α) : ConcatMap ε ι α :=
  if s.failed then s
  else if s.selfRef then { s with publishersComplete := true }.send .complete
  else { s with publishersComplete := true }

def hearPublishers (mapper : ι → Except ε π) (s : ConcatMap ε ι α) : Signal ε ι → ConcatMap ε ι α
  | .next x =>
    match mapper x with
    | .ok _ => s.onPublishersNext
    | .error e => s.onError (.thrown e)
  | .error e => s.onError (.thrown e)
  | .complete => s.onPublishersComplete

def hearValues (s : ConcatMap ε ι α) : Signal ε α → ConcatMap ε ι α
  | .next a => s.onValuesNext a
  | .error e => s.onError (.thrown e)
  | .complete => s.onValuesComplete

def next (mapper : ι → Except ε π) (s : ConcatMap ε ι α) : ConcatMapEvent ε ι α → Option (ConcatMap ε ι α)
  | .request count => some (s.request count)
  | .cancel => some s.cancel
  | .publishers signal =>
    (s.publishers.send signal).map fun publishers => { s with publishers }.hearPublishers mapper signal
  | .values i signal =>
    (s.values[i]?.bind (·.send signal)).map fun source => { s with values := s.values.set i source }.hearValues signal
  | .returns =>
    match s.stack with
    | [] => none
    | frame :: stack => some ({ s with stack }.returnCall frame)

/-- Nothing fails once `ConcatMap` has failed. -/
def failsOnce (mapper : ι → Except ε π) (s : ConcatMap ε ι α) : ConcatMapEvent ε ι α → Bool
  | .publishers (.next x) => !s.failed || (mapper x).isOk
  | .publishers (.error _) | .values _ (.error _) => !s.failed
  | _ => true

variable {mapper : ι → Except ε π} {s s' : ConcatMap ε ι α}

/-- What tells whether `ConcatMap` has signalled the end: the three flags, whether the source and the values
publishers have ended, and the signals -/
inductive Ends : Bool → Bool → Bool → Bool → List Bool → List (Signal (MergeError ε) α) → Prop where
  | between {ended values} (xs : List α) : ended = false → (∀ b ∈ values, b = true) →
    Ends false false true ended values (xs.map .next)
  | inside {complete ended values} (before : List Bool) (xs : List α) : ended = complete → values = before ++ [false] →
    (∀ b ∈ before, b = true) → Ends false complete false ended values (xs.map .next)
  | completed {complete selfRef ended values} (xs : List α) : ended = true → (∀ b ∈ values, b = true) →
    Ends false complete selfRef ended values (xs.map .next ++ [.complete])
  | failed {complete selfRef ended values} (xs : List α) (e : MergeError ε) :
    Ends true complete selfRef ended values (xs.map .next ++ [.error e])

theorem map_modify_of_eq {β γ : Type*} {f : β → β} {g : β → γ} (h : ∀ b, g (f b) = g b) (i : Nat) (l : List β) :
    (l.modify i f).map g = l.map g := by
  induction l generalizing i with
  | nil => rw [modify_nil]
  | cons b l ih =>
    cases i with
    | zero => simp [h]
    | succ i => simp [ih]

theorem eq_length_of_last {before : List Bool} (hbefore : ∀ b ∈ before, b = true) {i : Nat}
    (hi : (before ++ [false])[i]? = some false) : i = before.length := by
  by_contra hne
  rcases Nat.lt_or_gt_of_ne hne with hlt | hgt
  · rw [getElem?_append_left hlt] at hi
    nomatch hbefore false (mem_of_getElem? hi)
  · rw [getElem?_eq_none (length_append ▸ hgt)] at hi
    nomatch hi

def Ended (s : ConcatMap ε ι α) : Prop :=
  Ends s.failed s.publishersComplete s.selfRef s.publishers.ended (s.values.map Upstream.ended) s.signals

namespace Ended

section
variable (h : Ended s)
include h

theorem modify (i : Nat) {f : Source ε α → Source ε α} (hf : ∀ u, (f u).ended = u.ended) :
    Ended { s with values := s.values.modify i f } := by
  change Ends _ _ _ _ ((s.values.modify i f).map Upstream.ended) _
  rw [map_modify_of_eq hf]
  exact h

theorem requestLoop : Ended s.requestLoop := by
  rw [ConcatMap.requestLoop]
  split
  · exact h
  · next i _ => exact h.modify i (f := (.request · _)) fun _ => rfl

theorem returnCall (frame : ConcatMapFrame) : Ended (s.returnCall frame) := by
  cases frame with
  | requesting i =>
    rw [ConcatMap.returnCall]
    split
    · exact h
    · exact requestLoop h
  | subscribing i => exact h.modify i (f := (.request · _)) fun _ => rfl
  | passing i => exact h

theorem hearPublishers {signal : Signal ε ι} {publishers : Source ε ι}
    (hfails : s.failsOnce mapper (.publishers signal) = true) (hsend : s.publishers.send signal = some publishers) :
    Ended ({ s with publishers }.hearPublishers mapper signal) := by
  have hrunning : s.publishers.ended = false := congrArg isSome (Upstream.outcome_of_send hsend)
  have hended := Upstream.ended_of_send hsend
  obtain ⟨failed, complete, requested, toBeRequested, subscription, selfRef, stack, source, values, asked, signals⟩ := s
  change Ends failed complete selfRef source.ended (values.map Upstream.ended) signals at h
  change source.ended = false at hrunning
  cases h with
  | between xs _ hvalues =>
    cases signal with
    | next x =>
      rw [ConcatMap.hearPublishers]
      cases mapper x with
      | ok p => exact .inside _ xs hended map_append hvalues
      | error e => exact .failed xs (.thrown e)
    | error e => exact .failed xs (.thrown e)
    | complete => exact .completed xs hended hvalues
  | inside before xs hcomplete hvalues hbefore =>
    cases signal with
    | next x =>
      rw [ConcatMap.hearPublishers]
      cases mapper x with
      | ok p => exact .failed xs _
      | error e => exact .failed xs (.thrown e)
    | error e => exact .failed xs (.thrown e)
    | complete => exact .inside before xs hended hvalues hbefore
  | completed xs hend => nomatch hend.symm.trans hrunning
  | failed xs e =>
    cases signal with
    | next x =>
      rw [failsOnce] at hfails
      rw [ConcatMap.hearPublishers]
      cases hx : mapper x with
      | ok p => exact .failed xs e
      | error e =>
        rw [hx] at hfails
        nomatch hfails
    | error e => nomatch hfails
    | complete => exact .failed xs e

theorem hearValues {i : Nat} {signal : Signal ε α} {u u' : Source ε α}
    (hfails : s.failsOnce mapper (.values i signal) = true) (hi : s.values[i]? = some u)
    (hsend : u.send signal = some u') : Ended ({ s with values := s.values.set i u' }.hearValues signal) := by
  have hrunning : u.ended = false := congrArg isSome (Upstream.outcome_of_send hsend)
  have hended := Upstream.ended_of_send hsend
  obtain ⟨failed, complete, requested, toBeRequested, subscription, selfRef, stack, source, values, asked, signals⟩ := s
  change Ends failed complete selfRef source.ended (values.map Upstream.ended) signals at h
  change values[i]? = some u at hi
  have hlive : (values.map Upstream.ended)[i]? = some false := by
    rw [getElem?_map, hi, map_some, hrunning]
  cases h with
  | between xs _ hvalues => nomatch hvalues false (mem_of_getElem? hlive)
  | completed xs hend hvalues => nomatch hvalues false (mem_of_getElem? hlive)
  | failed xs e =>
    cases signal with
    | next a => exact .failed xs e
    | error e => nomatch hfails
    | complete => exact .failed xs e
  | inside before xs hcomplete hvalues hbefore =>
    have hlast : i = before.length := eq_length_of_last hbefore (hvalues ▸ hlive)
    have hset : (values.set i u').map Upstream.ended = before ++ [u'.ended] := by
      rw [map_set, hvalues, hlast, set_append_right _ _ (Nat.le_refl _), Nat.sub_self]
      rfl
    rw [hended] at hset
    cases signal with
    | next a =>
      rw [ConcatMap.hearValues, onValuesNext, if_neg Bool.false_ne_true]
      split
      · exact .failed xs _
      · have hinside : Ends false complete false source.ended ((values.set i u').map Upstream.ended)
            ((xs ++ [a]).map .next : List (Signal (MergeError ε) α)) :=
          .inside before (xs ++ [a]) hcomplete hset hbefore
        rwa [map_append] at hinside
    | error e => exact .failed xs (.thrown e)
    | complete =>
      have hall : ∀ b ∈ (values.set i u').map Upstream.ended, b = true := by
        rw [hset]
        exact forall_mem_append.mpr ⟨hbefore, forall_mem_singleton.mpr rfl⟩
      cases complete with
      | true => exact .completed xs hcomplete hall
      | false => exact .between xs hcomplete hall

theorem next {event : ConcatMapEvent ε ι α} (hfails : s.failsOnce mapper event = true)
    (hnext : s.next mapper event = some s') : Ended s' := by
  cases event with
  | request count =>
    cases hnext
    exact requestLoop h
  | cancel =>
    cases hnext
    rw [ConcatMap.cancel]
    cases s.subscription with
    | none => exact h
    | some i => exact h.modify i fun _ => rfl
  | publishers signal =>
    obtain ⟨publishers, hsend, rfl⟩ := map_eq_some_iff.mp hnext
    exact h.hearPublishers hfails hsend
  | values i signal =>
    obtain ⟨u', hbind, rfl⟩ := map_eq_some_iff.mp hnext
    obtain ⟨u, hi, hsend⟩ := bind_eq_some_iff.mp hbind
    exact h.hearValues hfails hi hsend
  | returns =>
    rw [ConcatMap.next] at hnext
    split at hnext
    · nomatch hnext
    · next frame stack _ =>
      cases hnext
      have hpopped : Ended { s with stack } := h
      exact hpopped.returnCall frame

end

theorem start : Ended ({} : ConcatMap ε ι α) := .between [] rfl (forall_mem_nil _)

end Ended

/-- As long as nothing fails after a failure, the stream ends once. -/
theorem concatMap_ends_once {events : List (ConcatMapEvent ε ι α)}
    (hrun : runIf (next mapper) (failsOnce mapper) {} events = some s) : Signal.outcome s.signals.dropLast = none := by
  have hended : Ended s := runIf_invariant (fun hfails hnext h => h.next hfails hnext) .start hrun
  obtain ⟨failed, complete, requested, toBeRequested, subscription, selfRef, stack, source, values, asked, signals⟩ := s
  change Ends failed complete selfRef source.ended (values.map Upstream.ended) signals at hended
  cases hended with
  | between | inside => rw [← map_dropLast, Signal.outcome_map_next]
  | completed | failed => rw [dropLast_concat, Signal.outcome_map_next]

/-- A values publisher fails, and the source emits another element after that. -/
theorem concatMap_ends_once_of_failure :
    ∃ s : ConcatMap String Nat Nat, (s.signals = [.next 7, .error (.thrown "inner")] ∧ s.failed = true) ∧
      Signal.outcome s.signals.dropLast = none := by
  have hrun : runIf (next fun x => .ok x) (failsOnce fun x => .ok x) {} [.publishers (.next 0), .returns,
      .request ⟨1, by decide⟩, .values 0 (.next 7), .values 0 (.error "inner"), .publishers .complete] =
      some (_ : ConcatMap String Nat Nat) := rfl
  exact ⟨_, ⟨rfl, rfl⟩, concatMap_ends_once hrun⟩

/-- The source fails after a values publisher. -/
theorem concatMap_fails_twice :
    ∃ s : ConcatMap String Nat Nat, [.publishers (.next 0), .returns, .values 0 (.error "inner"),
        .publishers (.error "outer")].foldlM (next fun x => .ok x) {} = some s ∧
      s.signals = [.error (.thrown "inner"), .error (.thrown "outer")] ∧ Signal.outcome s.signals.dropLast ≠ none :=
  ⟨_, rfl, rfl, nofun⟩

end ConcatMap
end Shuriken.Rs
