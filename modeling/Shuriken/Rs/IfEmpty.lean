import Shuriken.Lib.Except
import Shuriken.Lib.Signals

/-!
# A stream in place of an empty one

`rs/if_empty.h`. `Concat` subscribes to its second publisher when the first one has
completed. What that publisher goes by is a flag of the operator's result, which all
subscriptions share.
-/
namespace Shuriken.Rs
open Option Function

/-- A subscription to `IfEmpty(publisher)(source)`, by a subscriber that requests enough. -/
structure Replacing (ε α : Type*) where
  /-- What the source has signalled to it -/
  source : List (Signal ε α) := []
  /-- Whether `publisher` has been subscribed to, and what that has signalled to it -/
  switched : Bool := false
  publisher : List (Signal ε α) := []
  /-- What the subscriber has got -/
  signals : List (Signal ε α) := []

structure IfEmpty (ε α : Type*) where
  empty : Bool := true
  subscriptions : Nat → Replacing ε α := fun _ => {}

inductive IfEmptyEvent (ε α : Type*) where
  | source (i : Nat) (signal : Signal ε α)
  | publisher (i : Nat) (signal : Signal ε α)

variable {ε α : Type*}

namespace Replacing

/-- When the source completes, the subscriber goes over to `publisher` or to `Empty()`. -/
def onSource (empty : Bool) (sub : Replacing ε α) : Signal ε α → Replacing ε α
  | .complete =>
    if empty then { sub with source := sub.source ++ [.complete], switched := true }
    else { sub with source := sub.source ++ [.complete], signals := sub.signals ++ [.complete] }
  | signal => { sub with source := sub.source ++ [signal], signals := sub.signals ++ [signal] }

def emptyAfter (empty : Bool) : Signal ε α → Bool
  | .next _ => false
  | _ => empty

def onPublisher (sub : Replacing ε α) (signal : Signal ε α) : Replacing ε α :=
  { sub with publisher := sub.publisher ++ [signal], signals := sub.signals ++ [signal] }

/-- The subscriber gets what the source signals, unless that completes without an element. -/
structure JudgedAlone (sub : Replacing ε α) : Prop where
  kept : sub.source ≠ [.complete] → sub.signals = sub.source
  replaced : sub.source = [.complete] → sub.switched = true ∧ sub.signals = sub.publisher

/-- What the flag says of a subscription that it is right about -/
inductive Judged (empty : Bool) : Replacing ε α → Prop where
  | kept (signals : List (Signal ε α)) : signals ≠ [.complete] → (empty = true → Signal.items signals = []) →
    Judged empty ⟨signals, false, [], signals⟩
  | replaced (signals : List (Signal ε α)) : Judged empty ⟨[.complete], true, signals, signals⟩

variable {empty empty' : Bool} {sub : Replacing ε α}

section
variable (h : Judged empty sub)
include h

theorem Judged.mono (hempty : empty' = true → empty = true) : Judged empty' sub := by
  cases h with
  | kept signals hne hitems => exact .kept signals hne fun h => hitems (hempty h)
  | replaced signals => exact .replaced signals

theorem Judged.onSource {signal : Signal ε α} (hrunning : Signal.outcome sub.source = none)
    (hfirst : signal = .complete → sub.source = [] → empty = true) :
    Judged (emptyAfter empty signal) (sub.onSource empty signal) := by
  cases h with
  | replaced => nomatch hrunning
  | kept signals hne hitems =>
    have happend {signal : Signal ε α} (h : signals ++ [signal] = [.complete]) : signals = [] ∧ signal = .complete := by
      simpa [List.append_eq_singleton_iff, hne] using h
    cases signal with
    | next a => exact .kept _ (fun h => nomatch (happend h).2) fun hempty => nomatch hempty
    | error e =>
      refine .kept _ (fun h => nomatch (happend h).2) fun hempty => ?_
      rw [Signal.items_append_error, hitems hempty]
    | complete =>
      cases empty with
      | true =>
        have hnext : signals = (Signal.items signals).map .next := Signal.eq_map_items hrunning
        rw [hitems rfl] at hnext
        obtain rfl := hnext
        exact .replaced []
      | false => exact .kept _ (fun h => nomatch hfirst rfl (happend h).1) fun hempty => nomatch hempty

theorem Judged.onPublisher (hswitched : sub.switched = true) (signal : Signal ε α) :
    Judged empty (sub.onPublisher signal) := by
  cases h with
  | kept => nomatch hswitched
  | replaced signals => exact .replaced (signals ++ [signal])

theorem Judged.alone : sub.JudgedAlone := by
  cases h with
  | kept signals hne => exact ⟨fun _ => rfl, fun h => absurd h hne⟩
  | replaced signals => exact ⟨fun h => absurd rfl h, fun _ => ⟨rfl, rfl⟩⟩

end

end Replacing

namespace IfEmpty
open Replacing (Judged emptyAfter)

def next (s : IfEmpty ε α) : IfEmptyEvent ε α → Option (IfEmpty ε α)
  | .source i signal =>
    let sub := s.subscriptions i
    if (Signal.outcome sub.source).isNone then
      some ⟨emptyAfter s.empty signal, update s.subscriptions i (sub.onSource s.empty signal)⟩
    else none
  | .publisher i signal =>
    let sub := s.subscriptions i
    if sub.switched ∧ (Signal.outcome sub.publisher).isNone then
      some { s with subscriptions := update s.subscriptions i (sub.onPublisher signal) }
    else none

/-- A source that completes without an element does so before any subscriber has got one. -/
def undisturbed (s : IfEmpty ε α) : IfEmptyEvent ε α → Bool
  | .source i .complete => s.empty || !(s.subscriptions i).source.isEmpty
  | _ => true

variable {s s' : IfEmpty ε α}

theorem next_judged {event : IfEmptyEvent ε α} (hundisturbed : s.undisturbed event = true)
    (hnext : s.next event = some s') (h : ∀ i, Judged s.empty (s.subscriptions i)) :
    ∀ i, Judged s'.empty (s'.subscriptions i) := by
  cases event with
  | source i signal =>
    obtain ⟨hrunning, hnext⟩ := ite_none_right_eq_some.mp hnext
    cases hnext
    have hsource : Judged (emptyAfter s.empty signal) ((s.subscriptions i).onSource s.empty signal) := by
      refine (h i).onSource (isNone_iff_eq_none.mp hrunning) ?_
      rintro rfl hsource
      simpa [undisturbed, hsource] using hundisturbed
    refine (forall_update_iff _ _).mpr ⟨hsource, fun j _ => (h j).mono ?_⟩
    cases signal with
    | next a => nofun
    | error | complete => exact id
  | publisher i signal =>
    obtain ⟨⟨hswitched, -⟩, hnext⟩ := ite_none_right_eq_some.mp hnext
    cases hnext
    exact (forall_update_iff _ _).mpr ⟨(h i).onPublisher hswitched signal, fun j _ => h j⟩

theorem ifEmpty_judges_alone {events : List (IfEmptyEvent ε α)}
    (hrun : runIf next undisturbed {} events = some s) (i : Nat) : (s.subscriptions i).JudgedAlone := by
  have hjudged : ∀ i, Judged s.empty (s.subscriptions i) :=
    runIf_invariant next_judged (fun _ => .kept [] nofun fun _ => rfl) hrun
  exact (hjudged i).alone

/-- The source is empty for the first subscriber, and emits to the second one. -/
theorem ifEmpty_judges_alone_of_two : ∃ s : IfEmpty Empty Nat, ((s.subscriptions 0).signals = [.next 7, .complete] ∧
      (s.subscriptions 1).signals = [.next 1, .complete]) ∧ ∀ i, (s.subscriptions i).JudgedAlone := by
  have hrun : runIf next undisturbed {} [.source 0 .complete, .source 1 (.next 1), .publisher 0 (.next 7),
      .source 1 .complete, .publisher 0 .complete] = some (_ : IfEmpty Empty Nat) := rfl
  exact ⟨_, ⟨rfl, rfl⟩, ifEmpty_judges_alone hrun⟩

/-- The source emits to the first subscriber, and then is empty for the second one. -/
theorem ifEmpty_judges_together :
    ∃ s : IfEmpty Empty Nat, [.source 0 (.next 1), .source 1 .complete].foldlM next {} = some s ∧
      (s.subscriptions 1).signals = [.complete] ∧ ¬ (s.subscriptions 1).JudgedAlone :=
  ⟨_, rfl, rfl, fun h => nomatch (h.replaced rfl).1⟩

end IfEmpty
end Shuriken.Rs
