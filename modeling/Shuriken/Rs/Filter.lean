import Shuriken.Lib.Except
import Shuriken.Lib.Upstream
import Shuriken.Rs.ElementCount

/-!
# Filtered streams

`rs/filter.h`. Nothing follows a call of `OnNext` or `Request` in `FilterSubscriber`,
so that what happens before the call returns happens after it just as well.
-/
namespace Shuriken.Rs
open Option List

abbrev Source (ε α : Type*) : Type _ := Upstream (2 ^ 63 - 1) ε α

inductive OperatorEvent (ε α : Type*) where
  /-- The subscriber calls a method of its subscription. -/
  | request (count : Count)
  | cancel
  | signal (signal : Signal ε α)
  /-- The call that was made last returns. -/
  | returns

/-- A `FilterSubscriber` with all that takes part. -/
structure Filtering (ε α : Type*) where
  failed : Bool := false
  source : Source ε α := {}
  /-- How many elements the subscriber has requested -/
  requested : Nat := 0
  /-- What the subscriber has got -/
  signals : List (Signal ε α) := []

namespace Filtering
variable {ε α : Type*}

def delivered (s : Filtering ε α) : List α := Signal.items s.signals

def send (s : Filtering ε α) (signal : Signal ε α) : Filtering ε α := { s with signals := s.signals ++ [signal] }

def onNext (predicate : α → Except ε Bool) (s : Filtering ε α) (a : α) : Filtering ε α :=
  if s.failed then s
  else
    match predicate a with
    | .error e => { s with source := s.source.cancel, failed := true }.send (.error e)
    | .ok true => s.send (.next a)
    | .ok false => { s with source := s.source.request ⟨1, one_le_max⟩ }

def onEnd (s : Filtering ε α) (signal : Signal ε α) : Filtering ε α := if s.failed then s else s.send signal

def hear (predicate : α → Except ε Bool) (s : Filtering ε α) : Signal ε α → Filtering ε α
  | .next a => s.onNext predicate a
  | signal => s.onEnd signal

/-- The subscription is the one of the source. -/
def next (predicate : α → Except ε Bool) (s : Filtering ε α) : OperatorEvent ε α → Option (Filtering ε α)
  | .request count =>
    some { s with source := s.source.request count, requested := s.requested + count.count }
  | .cancel => some { s with source := s.source.cancel }
  | .signal signal => (s.source.send signal).map fun source => { s with source }.hear predicate signal
  | .returns => none

variable {predicate : α → Except ε Bool} {s s' : Filtering ε α} {failed : Bool} {sent signals : List (Signal ε α)}

def accepts (predicate : α → Except ε Bool) (a : α) : Bool := predicate a matches .ok true

def passes (predicate : α → Except ε Bool) : Signal ε α → Bool
  | .next a => accepts predicate a
  | _ => true

theorem items_filter_passes (sent : List (Signal ε α)) :
    Signal.items (sent.filter (passes predicate)) = (Signal.items sent).filter (accepts predicate) := by
  rw [Signal.items, Signal.items, filterMap_filter, filter_filterMap]
  congr 1
  funext signal
  cases signal with
  | next | error | complete => rfl

/-- What `FilterSubscriber` makes of the signals of the source -/
inductive Passed (predicate : α → Except ε Bool) : Bool → List (Signal ε α) → List (Signal ε α) → Prop where
  | running {sent : List (Signal ε α)} :
    (∀ a, .next a ∈ sent → ∀ e, predicate a ≠ .error e) → Passed predicate false sent (sent.filter (passes predicate))
  | failed {before : List α} {a : α} {e : ε} (after : List (Signal ε α)) : predicate a = .error e →
    Passed predicate true (before.map .next ++ .next a :: after)
      ((before.filter (accepts predicate)).map .next ++ [.error e])

theorem Passed.ignored (h : Passed predicate true sent signals) (signal : Signal ε α) :
    Passed predicate true (sent ++ [signal]) signals := by
  cases h with
  | failed after hthrow =>
    rw [append_assoc, cons_append]
    exact .failed (after ++ [signal]) hthrow

theorem Passed.append (h : Passed predicate false sent signals) {signal : Signal ε α}
    (hsignal : ∀ a, signal = .next a → ∀ e, predicate a ≠ .error e) :
    Passed predicate false (sent ++ [signal]) (signals ++ [signal].filter (passes predicate)) := by
  cases h with
  | running hok =>
    have happend : ∀ a, .next a ∈ sent ++ [signal] → ∀ e, predicate a ≠ .error e := by
      intro a ha
      rcases mem_append.mp ha with ha | ha
      · exact hok a ha
      · exact hsignal a (mem_singleton.mp ha).symm
    rw [← filter_append]
    exact .running happend

theorem Passed.throws (h : Passed predicate false sent signals) (hsent : Signal.outcome sent = none) {a : α} {e : ε}
    (ha : predicate a = .error e) : Passed predicate true (sent ++ [.next a]) (signals ++ [.error e]) := by
  cases h with
  | running hok =>
    have hmap := Signal.eq_map_items hsent
    rw [hmap, List.filter_map]
    exact .failed [] ha

theorem Passed.matching (h : Passed predicate failed sent signals) :
    ∃ taken, taken <+: Signal.items sent ∧ Signal.items signals = taken.filter (accepts predicate) := by
  cases h with
  | running _ => exact ⟨_, prefix_rfl, items_filter_passes sent⟩
  | @failed before a e after _ =>
    refine ⟨before, ?_, ?_⟩
    · rw [Signal.items_append, Signal.items_map_next]
      exact prefix_append _ _
    · rw [Signal.items_append_error, Signal.items_map_next]

theorem Passed.all (h : Passed predicate failed sent signals)
    (hok : ∀ a ∈ Signal.items sent, ∀ e, predicate a ≠ .error e) : signals = sent.filter (passes predicate) := by
  cases h with
  | running _ => rfl
  | @failed before b e after hb => exact absurd hb (hok b (Signal.mem_items.mpr (mem_append_right _ mem_cons_self)) e)

theorem Passed.thrown (h : Passed predicate failed sent signals) {a : α} (ha : a ∈ Signal.items sent) {e : ε}
    (hthrow : predicate a = .error e) :
    ∃ before b e after, Signal.items sent = before ++ b :: after ∧ predicate b = .error e ∧
      signals = (before.filter (accepts predicate)).map .next ++ [.error e] := by
  cases h with
  | running hok => exact absurd hthrow (hok a (Signal.mem_items.mp ha) e)
  | @failed before b e after hb =>
    refine ⟨before, b, e, Signal.items after, ?_, hb, rfl⟩
    rw [Signal.items_append, Signal.items_map_next]
    rfl

theorem delivered_send_next (s : Filtering ε α) (a : α) :
    (s.send (.next a)).delivered.length = s.delivered.length + 1 := by
  rw [delivered, send, Signal.items_append_next, length_append]
  rfl

theorem delivered_send_end {signal : Signal ε α} (hsignal : ∀ a, signal ≠ .next a) (s : Filtering ε α) :
    (s.send signal).delivered = s.delivered :=
  Signal.items_append_end hsignal

/-- The elements that were requested are counted by the source. -/
structure Counted (predicate : α → Except ε Bool) (s : Filtering ε α) : Prop where
  passed : Passed predicate s.failed s.source.sent s.signals
  cancels : s.failed = true → s.source.cancelled = true
  within : s.delivered.length ≤ s.requested ∨ 2 ^ 63 - 1 ≤ s.requested
  accounts : s.failed = false → s.source.demand.Accounts s.delivered.length s.requested

namespace Counted

section
variable (h : Counted predicate s)
include h

theorem request (count : Count) :
    Counted predicate { s with source := s.source.request count, requested := s.requested + count.count } where
  passed := h.passed
  cancels := h.cancels
  within := h.within.imp (Nat.le_trans · (Nat.le_add_right _ _)) (Nat.le_trans · (Nat.le_add_right _ _))
  accounts hfailed := (h.accounts hfailed).add count

theorem onNext {source : Source ε α} {a : α} (hsend : s.source.send (.next a) = some source) :
    Counted predicate ({ s with source }.onNext predicate a) := by
  obtain ⟨⟨hended, hdemand⟩, rfl⟩ := Upstream.send_next.mp hsend
  obtain ⟨failed, source, requested, signals⟩ := s
  obtain ⟨hpassed, hcancels, hwithin, haccounts⟩ := h
  cases failed with
  | true => exact ⟨hpassed.ignored (.next a), hcancels, hwithin, fun h => by cases h⟩
  | false =>
    have hsent := (haccounts rfl).pred hdemand
    rw [Filtering.onNext, if_neg Bool.false_ne_true]
    cases haccepts : predicate a with
    | error e =>
      have hrunning : Signal.outcome source.sent = none := by simpa [Upstream.ended] using hended
      refine ⟨hpassed.throws hrunning haccepts, fun _ => rfl, ?_, fun h => by cases h⟩
      rw [delivered_send_end (by simp)]
      exact hwithin
    | ok accepted =>
      have hsignal : ∀ b, (.next a : Signal ε α) = .next b → ∀ e, predicate b ≠ .error e := by
        intro b hb e he
        cases hb
        cases haccepts.symm.trans he
      have happend := hpassed.append hsignal
      rw [filter_singleton, passes, accepts, haccepts] at happend
      cases accepted with
      | true =>
        rw [← delivered_send_next] at hsent
        exact ⟨happend, hcancels, hsent.sent_le, fun _ => hsent⟩
      | false =>
        replace happend : Passed predicate false (source.sent ++ [.next a]) signals := by simpa using happend
        refine ⟨happend, hcancels, hwithin, fun _ => ?_⟩
        change (source.demand.pred + ⟨1, by decide⟩).Accounts _ _
        rw [Demand.pred_add_one rfl hdemand]
        exact haccounts rfl

theorem onEnd {source : Source ε α} {signal : Signal ε α} (hsignal : ∀ a, signal ≠ .next a)
    (hsend : s.source.send signal = some source) : Counted predicate ({ s with source }.onEnd signal) := by
  obtain ⟨-, rfl⟩ := (Upstream.send_of_end hsignal).mp hsend
  obtain ⟨failed, source, requested, signals⟩ := s
  obtain ⟨hpassed, hcancels, hwithin, haccounts⟩ := h
  cases failed with
  | true => exact ⟨hpassed.ignored signal, hcancels, hwithin, nofun⟩
  | false =>
    have happend := hpassed.append fun a ha => absurd ha (hsignal a)
    have hpasses : passes predicate signal = true := by
      cases signal with
      | next a => exact absurd rfl (hsignal a)
      | error | complete => rfl
    rw [filter_cons_of_pos hpasses] at happend
    rw [Filtering.onEnd, if_neg Bool.false_ne_true]
    refine ⟨happend, hcancels, ?_, fun _ => ?_⟩
    · rw [delivered_send_end hsignal]
      exact hwithin
    · rw [delivered_send_end hsignal]
      exact haccounts rfl

theorem next {event : OperatorEvent ε α} (hnext : s.next predicate event = some s') : Counted predicate s' := by
  cases event with
  | request count =>
    cases hnext
    exact h.request count
  | cancel =>
    cases hnext
    exact ⟨h.passed, fun _ => rfl, h.within, h.accounts⟩
  | signal signal =>
    obtain ⟨source, hsend, rfl⟩ := map_eq_some_iff.mp hnext
    cases signal with
    | next a => exact h.onNext hsend
    | error | complete => exact h.onEnd nofun hsend
  | returns => nomatch hnext

end

end Counted

structure KeepsDemand (predicate : α → Except ε Bool) (s : Filtering ε α) : Prop where
  matching : ∃ taken, taken <+: s.source.emitted ∧ s.delivered = taken.filter (accepts predicate)
  all : (∀ a ∈ s.source.emitted, ∀ e, predicate a ≠ .error e) → s.signals = s.source.sent.filter (passes predicate)
  within : s.delivered.length ≤ s.requested ∨ 2 ^ 63 - 1 ≤ s.requested
  owed : ¬ s.source.Owes → s.requested ≤ s.delivered.length ∨ s.source.ended = true ∨ s.source.cancelled = true
  thrown : ∀ a ∈ s.source.emitted, ∀ e, predicate a = .error e →
    ∃ before b e after, s.source.emitted = before ++ b :: after ∧ predicate b = .error e ∧
      s.signals = (before.filter (accepts predicate)).map .next ++ [.error e]

/-- A demand of `2 ^ 63 - 1` or more is unbounded, and an exception of the predicate cancels the source. -/
theorem filter_keeps_demand {events : List (OperatorEvent ε α)}
    (hrun : events.foldlM (Filtering.next predicate) {} = some s) : s.KeepsDemand predicate := by
  have hstart : Counted predicate ({} : Filtering ε α) := ⟨.running nofun, nofun, .inl (Nat.le_refl 0), fun _ => .zero⟩
  have hcounted : Counted predicate s := foldlM_invariant (fun _ _ _ _ hnext h => h.next hnext) hstart hrun
  refine ⟨hcounted.passed.matching, hcounted.passed.all, hcounted.within, fun howes => ?_, fun a ha e => hcounted.passed.thrown ha⟩
  by_contra hnone
  simp only [not_or, Bool.not_eq_true] at hnone
  obtain ⟨hmore, hended, hcancelled⟩ := hnone
  have hrunning : s.failed = false := by
    cases hfailed : s.failed with
    | false => rfl
    | true => nomatch (hcounted.cancels hfailed).symm.trans hcancelled
  have hdemand : s.source.demand = 0 := by
    by_contra hdemand
    exact howes ⟨hdemand, hended, hcancelled⟩
  rcases (hcounted.accounts hrunning).owed with howed | hunbounded
  · rw [hdemand] at howed
    exact hmore howed
  · nomatch hdemand.symm.trans hunbounded

/-- One even number is requested; the source is asked for another element in place of an odd one. -/
theorem filter_keeps_demand_of_even :
    ∃ s : Filtering Empty Nat, (s.delivered = [2] ∧ s.source.emitted = [1, 2] ∧ ¬ s.source.Owes) ∧
      s.KeepsDemand fun a => .ok (a % 2 == 0) := by
  have hrun : [OperatorEvent.request ⟨1, by decide⟩, .signal (.next 1), .signal (.next 2)].foldlM
      (Filtering.next fun a => (.ok (a % 2 == 0) : Except Empty Bool)) {} = some _ := rfl
  exact ⟨_, ⟨rfl, rfl, fun howes => howes.1 rfl⟩, filter_keeps_demand hrun⟩

end Filtering
end Shuriken.Rs
