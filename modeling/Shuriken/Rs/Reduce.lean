import Shuriken.Rs.Filter

/-!
# Folded streams

`rs/reduce.h`. Where the accumulated value is depends on which comes first: that the
source completes, that `Subscribe` returns or that an element is requested. A source
that lets go of the subscriber before `Subscribe` returns takes the value with it.
-/
namespace Shuriken.Rs
open Option

inductive ReduceFrame where
  /-- `Subscribe` on the source, before `TakeSubscription` -/
  | subscribing
  /-- `OnNext`, in `Emit` -/
  | emitting
  /-- `OnNext`, in `OnComplete` -/
  | completing
  deriving DecidableEq

/-- A `ReduceSubscriber` and a `ReduceSubscription` with all that takes part. -/
structure Reducing (ε α β : Type*) where
  /-- Whether the source has the subscriber when its `Subscribe` returns -/
  kept : Bool
  accumulator : β
  failed : Bool := false
  complete : Bool := false
  requested : Bool := false
  emitAccumulatedValue : Option β := none
  stack : List ReduceFrame := [.subscribing]
  source : Source ε α := {}
  /-- How many elements the subscriber has requested -/
  asked : Nat := 0
  signals : List (Signal ε β) := []

namespace Reducing
variable {ε α β : Type*}

def subscribed (s : Reducing ε α β) : Bool := .subscribing ∉ s.stack

def send (s : Reducing ε α β) (signal : Signal ε β) : Reducing ε α β := { s with signals := s.signals ++ [signal] }

def onNext (reducer : β → α → Except ε β) (s : Reducing ε α β) (a : α) : Reducing ε α β :=
  if s.failed then s
  else
    match reducer s.accumulator a with
    | .ok accumulator => { s with accumulator }
    | .error e =>
      { s with failed := true, source := if s.subscribed then s.source.cancel else s.source }.send (.error e)

def onComplete (s : Reducing ε α β) : Reducing ε α β :=
  if s.failed then s
  else if s.requested then { s with stack := .completing :: s.stack }.send (.next s.accumulator)
  else if s.subscribed then { s with emitAccumulatedValue := some s.accumulator }
  else { s with complete := true }

def hear (reducer : β → α → Except ε β) (s : Reducing ε α β) : Signal ε α → Reducing ε α β
  | .next a => s.onNext reducer a
  | .error e => s.send (.error e)
  | .complete => s.onComplete

def request (s : Reducing ε α β) (count : Count) : Reducing ε α β :=
  let s := { s with asked := s.asked + count.count }
  match s.emitAccumulatedValue with
  | some value => { s with stack := .emitting :: s.stack }.send (.next value)
  | none =>
    if count = 0 then s
    else { s with requested := s.requested || s.kept, source := s.source.request .unbounded }

def returnCall (s : Reducing ε α β) : ReduceFrame → Reducing ε α β
  | .subscribing =>
    if s.kept && s.complete then { s with emitAccumulatedValue := some s.accumulator } else s
  | .emitting => { s.send .complete with emitAccumulatedValue := none }
  | .completing => s.send .complete

/-- There is a subscription when `Subscribe` has returned. -/
def next (reducer : β → α → Except ε β) (s : Reducing ε α β) : OperatorEvent ε α → Option (Reducing ε α β)
  | .request count => if s.subscribed then some (s.request count) else none
  | .cancel => if s.subscribed then some { s with source := s.source.cancel } else none
  | .signal signal =>
    if s.kept || !s.subscribed then (s.source.send signal).map fun source => { s with source }.hear reducer signal
    else none
  | .returns =>
    match s.stack with
    | [] => none
    | frame :: stack => some ({ s with stack }.returnCall frame)

structure ReducesOnce (reducer : β → α → Except ε β) (initial : β) (s : Reducing ε α β) : Prop where
  value : ∀ b, s.source.emitted.foldlM reducer initial = .ok b → .complete ∈ s.source.sent → 0 < s.asked →
    s.stack = [] → s.signals = [.next b, .complete]
  silent : s.asked = 0 → Signal.items s.signals = []
  failed : (∃ e, s.source.emitted.foldlM reducer initial = .error e ∨ .error e ∈ s.source.sent) →
    ∃ e, s.signals = [.error e]

/-- The source does not fail after the reducer has thrown, and has the subscriber when `Subscribe` returns if it
has completed inside of it. When the accumulated value is all that is left, at least one element is requested, and
not inside of `OnNext` with that value. -/
def orderly (s : Reducing ε α β) : OperatorEvent ε α → Bool
  | .request count => s.emitAccumulatedValue.isNone || s.stack.isEmpty && count ≠ 0
  | .signal (.error _) => !s.failed
  | .returns => s.kept || !s.complete
  | _ => true

variable {reducer : β → α → Except ε β} {initial : β} {s s' : Reducing ε α β}

def Ending (signal : Signal ε α) (sent : List (Signal ε α)) : Prop := ∃ xs : List α, sent = xs.map .next ++ [signal]

theorem Ending.eq {signal signal' : Signal ε α} {sent : List (Signal ε α)} (h : Ending signal sent)
    (hmem : signal' ∈ sent) (hend : ∀ a, signal' ≠ .next a) : signal' = signal := by
  obtain ⟨xs, rfl⟩ := h
  rcases List.mem_append.mp hmem with hnext | hlast
  · obtain ⟨a, -, rfl⟩ := List.mem_map.mp hnext
    exact absurd rfl (hend a)
  · exact List.mem_singleton.mp hlast

/-- The flags of the subscriber, the emitter, the stack, the signals of the source, what has been requested and
what the subscriber has got -/
inductive Phase (kept : Bool) (value : β) : Bool → Bool → Bool → Option β → List ReduceFrame → List (Signal ε α) → Nat →
    List (Signal ε β) → Prop where
  | running {requested stack sent asked} : (requested = true ↔ kept = true ∧ 0 < asked) → Signal.outcome sent = none →
    stack = [] ∨ stack = [.subscribing] ∧ asked = 0 → Phase kept value false false requested none stack sent asked []
  | waiting {sent} : Ending .complete sent → Phase kept value false true false none [.subscribing] sent 0 []
  | holding {complete sent} : Ending .complete sent → Phase kept value false complete false (some value) [] sent 0 []
  | emitting {complete requested emitter frame sent asked} : Ending .complete sent → 0 < asked →
    emitter = none ∧ frame = .completing ∨ frame = .emitting →
    Phase kept value false complete requested emitter [frame] sent asked [.next value]
  | done {complete requested sent asked} : Ending .complete sent → 0 < asked →
    Phase kept value false complete requested none [] sent asked [.next value, .complete]
  | failed {failed requested stack sent asked} (e : ε) : failed = true ∨ Ending (.error e) sent →
    stack = [] ∨ stack = [.subscribing] → Phase kept value failed false requested none stack sent asked [.error e]

inductive Folds (reducer : β → α → Except ε β) (initial : β) : Bool → β → List α → Prop where
  | value {value xs} : xs.foldlM reducer initial = .ok value → Folds reducer initial false value xs
  | thrown {value xs e} : xs.foldlM reducer initial = .error e → Folds reducer initial true value xs

theorem Folds.next {value : β} {xs : List α} (h : Folds reducer initial true value xs) (ys : List α) :
    Folds reducer initial true value (xs ++ ys) := by
  cases h with
  | @thrown _ _ e h =>
    have happend : (xs ++ ys).foldlM reducer initial = .error e := by
      rw [List.foldlM_append, h]
      rfl
    exact .thrown happend

structure Reduced (reducer : β → α → Except ε β) (initial : β) (s : Reducing ε α β) : Prop where
  folds : Folds reducer initial s.failed s.accumulator (Signal.items s.source.sent)
  phase : Phase s.kept s.accumulator s.failed s.complete s.requested s.emitAccumulatedValue s.stack s.source.sent
    s.asked s.signals

namespace Reduced

section
variable (h : Reduced reducer initial s)
include h

theorem request {count : Count} (hsubscribed : s.subscribed = true)
    (horderly : s.orderly (.request count) = true) : Reduced reducer initial (s.request count) := by
  obtain ⟨hfold, hphase⟩ := h
  obtain ⟨kept, acc, failed, complete, requested, emitter, stack, ⟨demand, sent, cancelled⟩, asked, signals⟩ := s
  have hpositive (hsome : count ≠ 0) : 0 < asked + count.count :=
    Nat.add_pos_right asked (Nat.pos_of_ne_zero (Demand.eq_zero_iff.not.mp hsome))
  dsimp only at *
  rw [Reducing.request]
  cases hphase with
  | running hrequested hsent hstack =>
    dsimp only
    split
    · next hzero =>
      obtain rfl := hzero
      exact ⟨hfold, .running hrequested hsent hstack⟩
    · next hsome =>
      have hmarked : (requested || kept) = true ↔ kept = true ∧ 0 < asked + count.count := by
        rw [Bool.or_eq_true, hrequested]
        exact ⟨fun h => ⟨h.elim And.left id, hpositive hsome⟩, fun h => .inr h.1⟩
      refine ⟨hfold, .running hmarked hsent (.inl ?_)⟩
      rcases hstack with rfl | ⟨rfl, -⟩
      · rfl
      · nomatch hsubscribed
  | waiting => nomatch hsubscribed
  | holding hsent =>
    have hsome : count ≠ 0 := by simpa [orderly] using horderly
    exact ⟨hfold, .emitting hsent (hpositive hsome) (.inr rfl)⟩
  | @emitting _ _ emitter _ _ _ hsent hasked hemitter =>
    cases emitter with
    | some value => nomatch horderly
    | none =>
      dsimp only
      split
      · exact ⟨hfold, .emitting hsent (Nat.add_pos_left hasked _) hemitter⟩
      · exact ⟨hfold, .emitting hsent (Nat.add_pos_left hasked _) hemitter⟩
  | done hsent hasked =>
    dsimp only
    split
    · exact ⟨hfold, .done hsent (Nat.add_pos_left hasked _)⟩
    · exact ⟨hfold, .done hsent (Nat.add_pos_left hasked _)⟩
  | failed e herror hstack =>
    dsimp only
    split
    · exact ⟨hfold, .failed e herror hstack⟩
    · exact ⟨hfold, .failed e herror hstack⟩

theorem hear {signal : Signal ε α} {source : Source ε α} (hheard : (s.kept || !s.subscribed) = true)
    (horderly : s.orderly (.signal signal) = true) (hsend : s.source.send signal = some source) :
    Reduced reducer initial ({ s with source }.hear reducer signal) := by
  have hrunning := Upstream.outcome_of_send hsend
  have hsent := Upstream.sent_of_send hsend
  obtain ⟨hfold, hphase⟩ := h
  obtain ⟨kept, acc, failed, complete, requested, emitter, stack, ⟨demand, sent, cancelled⟩, asked, signals⟩ := s
  obtain ⟨demand, _, cancelled⟩ := source
  obtain rfl := hsent
  dsimp only at *
  have hsent {signal} (hend : ∀ a, signal ≠ .next a) : ¬ Ending signal sent := by
    rintro ⟨xs, rfl⟩
    obtain ⟨a, ha⟩ := Signal.next_of_mem hrunning List.mem_concat_self
    exact hend a ha
  have hending (signal : Signal ε α) : Ending signal (sent ++ [signal]) :=
    ⟨_, congrArg (· ++ [signal]) (Signal.eq_map_items hrunning)⟩
  cases hphase with
  | running hrequested _ hstack =>
    cases signal with
    | next a =>
      cases hfold with
      | value hvalue =>
        have happend : (Signal.items (sent ++ [.next a])).foldlM reducer initial = reducer acc a := by
          rw [Signal.items_append_next, List.foldlM_append, hvalue]
          exact bind_pure (m := Except ε) (reducer acc a)
        rw [Reducing.hear, onNext, if_neg Bool.false_ne_true]
        dsimp only
        split
        · next value hreducer =>
          refine ⟨.value (happend.trans hreducer), .running hrequested ?_ hstack⟩
          rw [Signal.outcome_append_singleton hrunning]
          rfl
        · next e hreducer =>
          have hthrown : Folds reducer initial true acc (Signal.items (sent ++ [.next a])) :=
            .thrown (happend.trans hreducer)
          rcases hstack with rfl | ⟨rfl, rfl⟩
          · exact ⟨hthrown, .failed e (.inl rfl) (.inl rfl)⟩
          · exact ⟨hthrown, .failed e (.inl rfl) (.inr rfl)⟩
    | error e =>
      have hfold' : Folds reducer initial false acc (Signal.items (sent ++ [.error e])) :=
        (Signal.items_append_error sent e).symm ▸ hfold
      exact ⟨hfold', .failed e (.inr (hending _)) (hstack.imp_right And.left)⟩
    | complete =>
      have hfold' : Folds reducer initial false acc (Signal.items (sent ++ [.complete])) :=
        (Signal.items_append_complete sent).symm ▸ hfold
      have hcomplete := hending .complete
      rcases hstack with rfl | ⟨rfl, rfl⟩
      · cases requested with
        | true => exact ⟨hfold', .emitting hcomplete (hrequested.mp rfl).2 (.inl ⟨rfl, rfl⟩)⟩
        | false =>
          obtain rfl : kept = true := by simpa [subscribed] using hheard
          obtain rfl : asked = 0 := Nat.eq_zero_of_not_pos fun hasked => nomatch hrequested.mpr ⟨rfl, hasked⟩
          exact ⟨hfold', .holding hcomplete⟩
      · cases requested with
        | true => nomatch (hrequested.mp rfl).2
        | false => exact ⟨hfold', .waiting hcomplete⟩
  | waiting hcomplete => exact absurd hcomplete (hsent nofun)
  | holding hcomplete => exact absurd hcomplete (hsent nofun)
  | emitting hcomplete => exact absurd hcomplete (hsent nofun)
  | done hcomplete => exact absurd hcomplete (hsent nofun)
  | failed e herror hstack =>
    cases failed with
    | false => exact absurd (herror.resolve_left nofun) (hsent nofun)
    | true =>
      have hstill := hfold.next (Signal.items [signal])
      rw [← Signal.items_append] at hstill
      cases signal with
      | next a => exact ⟨hstill, .failed e (.inl rfl) hstack⟩
      | error e => nomatch horderly
      | complete => exact ⟨hstill, .failed e (.inl rfl) hstack⟩

theorem returnCall {frame : ReduceFrame} {stack : List ReduceFrame} (horderly : s.orderly .returns = true)
    (hstack : s.stack = frame :: stack) : Reduced reducer initial ({ s with stack }.returnCall frame) := by
  obtain ⟨hfold, hphase⟩ := h
  obtain ⟨kept, acc, failed, complete, requested, emitter, _, source, asked, signals⟩ := s
  obtain rfl := hstack
  dsimp only at *
  cases hphase with
  | running hrequested hsent hstack =>
    obtain ⟨rfl, rfl⟩ : frame = .subscribing ∧ stack = [] := by simpa using hstack.resolve_left nofun |>.1
    rw [Reducing.returnCall, Bool.and_false, if_neg Bool.false_ne_true]
    exact ⟨hfold, .running hrequested hsent (.inl rfl)⟩
  | waiting hsent =>
    obtain rfl : kept = true := by simpa [orderly] using horderly
    exact ⟨hfold, .holding hsent⟩
  | emitting hsent hasked hemitter =>
    rcases hemitter with ⟨rfl, rfl⟩ | rfl
    · exact ⟨hfold, .done hsent hasked⟩
    · exact ⟨hfold, .done hsent hasked⟩
  | failed e herror hstack =>
    obtain ⟨rfl, rfl⟩ : frame = .subscribing ∧ stack = [] := by simpa using hstack
    rw [Reducing.returnCall, Bool.and_false, if_neg Bool.false_ne_true]
    exact ⟨hfold, .failed e herror (.inl rfl)⟩

theorem next {event : OperatorEvent ε α} (horderly : s.orderly event = true)
    (hnext : s.next reducer event = some s') : Reduced reducer initial s' := by
  cases event with
  | request count =>
    obtain ⟨hsubscribed, hnext⟩ := ite_none_right_eq_some.mp hnext
    cases hnext
    exact h.request hsubscribed horderly
  | cancel =>
    obtain ⟨-, hnext⟩ := ite_none_right_eq_some.mp hnext
    cases hnext
    exact ⟨h.folds, h.phase⟩
  | signal signal =>
    obtain ⟨hheard, hnext⟩ := ite_none_right_eq_some.mp hnext
    obtain ⟨source, hsend, rfl⟩ := map_eq_some_iff.mp hnext
    exact h.hear hheard horderly hsend
  | returns =>
    rw [Reducing.next] at hnext
    split at hnext
    · nomatch hnext
    · next hstack =>
      cases hnext
      exact h.returnCall horderly hstack

theorem reducesOnce : s.ReducesOnce reducer initial := by
  obtain ⟨hfold, hphase⟩ := h
  obtain ⟨kept, acc, failed, complete, requested, emitter, stack, ⟨demand, sent, cancelled⟩, asked, signals⟩ := s
  dsimp only at *
  have hvalue {b : β} (h : Folds reducer initial false b (Signal.items sent)) :
      (Signal.items sent).foldlM reducer initial = .ok b := by
    cases h with
    | value h => exact h
  have hcompleted (hcomplete : Ending .complete sent) (hfold : Folds reducer initial false acc (Signal.items sent)) :
      ¬ ∃ e, (Signal.items sent).foldlM reducer initial = .error e ∨ .error e ∈ sent := by
    rintro ⟨e, he | he⟩
    · nomatch (hvalue hfold).symm.trans he
    · nomatch hcomplete.eq he nofun
  cases hphase with
  | running hrequested hsent hstack =>
    have hnone {signal} (hend : ∀ a, signal ≠ .next a) : signal ∉ sent := fun hmem =>
      (Signal.next_of_mem hsent hmem).elim hend
    refine ⟨fun b _ hcomplete => absurd hcomplete (hnone nofun), fun _ => rfl, ?_⟩
    rintro ⟨e, he | he⟩
    · nomatch (hvalue hfold).symm.trans he
    · exact absurd he (hnone nofun)
  | waiting hsent => exact ⟨nofun, fun _ => rfl, fun h => absurd h (hcompleted hsent hfold)⟩
  | holding hsent => exact ⟨nofun, fun _ => rfl, fun h => absurd h (hcompleted hsent hfold)⟩
  | emitting hsent hasked =>
    exact ⟨nofun, fun h => absurd h (Nat.ne_of_gt hasked), fun h => absurd h (hcompleted hsent hfold)⟩
  | done hsent hasked =>
    refine ⟨fun b hb _ _ _ => ?_, fun h => absurd h (Nat.ne_of_gt hasked), fun h => absurd h (hcompleted hsent hfold)⟩
    cases (hvalue hfold).symm.trans hb
    rfl
  | failed e herror =>
    refine ⟨fun b hb hcomplete => ?_, fun _ => rfl, fun _ => ⟨e, rfl⟩⟩
    rcases herror with rfl | herror
    · cases hfold with
      | thrown h => nomatch h.symm.trans hb
    · nomatch herror.eq hcomplete nofun

end

end Reduced

theorem reduce_emits_once {kept : Bool} {events : List (OperatorEvent ε α)}
    (hrun : runIf (next reducer) orderly { kept, accumulator := initial } events = some s) :
    s.ReducesOnce reducer initial := by
  have hstart : Reduced reducer initial ({ kept, accumulator := initial } : Reducing ε α β) :=
    ⟨.value rfl, .running (by simp) rfl (.inr ⟨rfl, rfl⟩)⟩
  have hreduced : Reduced reducer initial s :=
    runIf_invariant (fun horderly hnext h => h.next horderly hnext) hstart hrun
  exact hreduced.reducesOnce

/-- The source completes before anything is requested. -/
theorem reduce_emits_once_of_late_request :
    ∃ s : Reducing Empty Nat Nat, (s.signals = [.next 5, .complete] ∧ s.asked = 2) ∧
      s.ReducesOnce (fun b a => .ok (b + a)) 5 := by
  have hrun : runIf (next fun b a => .ok (b + a)) orderly { kept := true, accumulator := 5 }
      [.signal .complete, .returns, .request ⟨2, by decide⟩, .returns] = some (_ : Reducing Empty Nat Nat) := rfl
  exact ⟨_, ⟨rfl, rfl⟩, reduce_emits_once hrun⟩

/-- The source fails after the reducer has thrown. -/
theorem reduce_fails_twice :
    ∃ s : Reducing Nat Nat Nat, [.returns, .request ⟨1, by decide⟩, .signal (.next 7), .signal (.error 2)].foldlM
        (next fun _ _ => .error 1) { kept := true, accumulator := 0 } = some s ∧
      s.signals = [.error 1, .error 2] ∧ ¬ s.ReducesOnce (fun _ _ => .error 1) 0 := by
  refine ⟨_, rfl, rfl, fun h => ?_⟩
  obtain ⟨e, he⟩ := h.failed ⟨1, .inl rfl⟩
  nomatch he

end Reducing
end Shuriken.Rs
