import Shuriken.Rs.Filter

/-!
# The first elements of a stream

`rs/take.h`. `TakeSubscriber` counts an element when the call of `OnNext` with it
returns, so that it does not know of the last element while that call is under way.
When `Subscribe` has returned, the subscription is stored through `take_ref`, which is
null if the source has let go of the subscriber by then.
-/
namespace Shuriken.Rs
open Option

inductive TakeStage where
  /-- `Subscribe` on the source has not returned -/
  | subscribing
  | subscribed
  /-- `take_ref` was null -/
  | crashed
deriving DecidableEq

/-- A `TakeSubscriber` with all that takes part. The subscription is the one of the source. -/
structure Taking (ε α : Type*) where
  stage : TakeStage := .subscribing
  /-- Whether the source has the subscriber when its `Subscribe` returns -/
  kept : Bool := true
  count : Int
  cancelled : Bool := false
  /-- How many calls of `OnNext` have not returned -/
  depth : Nat := 0
  source : Source ε α := {}
  signals : List (Signal ε α) := []

namespace Taking
variable {ε α : Type*}

def delivered (s : Taking ε α) : List α := Signal.items s.signals

def send (s : Taking ε α) (signal : Signal ε α) : Taking ε α := { s with signals := s.signals ++ [signal] }

def afterNext (s : Taking ε α) : Taking ε α :=
  if s.count - 1 ≤ 0 then
    { s.send .complete with count := s.count - 1, source := s.source.cancel, cancelled := true }
  else { s with count := s.count - 1 }

def onNext (s : Taking ε α) (a : α) : Taking ε α :=
  if s.cancelled then s
  else if 0 < s.count then { s.send (.next a) with depth := s.depth + 1 }
  else s.afterNext

def onEnd (s : Taking ε α) (signal : Signal ε α) : Taking ε α := if s.cancelled then s else s.send signal

def hear (s : Taking ε α) : Signal ε α → Taking ε α
  | .next a => s.onNext a
  | signal => s.onEnd signal

/-- `Build`. If there is nothing to take, then there is no `TakeSubscriber` that signals could reach. -/
def build (n : Nat) (kept : Bool) : Taking ε α :=
  if n = 0 then { stage := .subscribed, kept, count := 0, cancelled := true, signals := [.complete] }
  else { kept, count := n }

def subscribed (s : Taking ε α) : Taking ε α := { s with stage := if s.kept then .subscribed else .crashed }

def next (s : Taking ε α) : OperatorEvent ε α → Option (Taking ε α)
  | .request count => if s.stage = .subscribed then some { s with source := s.source.request count } else none
  | .cancel => if s.stage = .subscribed then some { s with source := s.source.cancel } else none
  | .signal signal =>
    if s.stage = .crashed then none
    else (s.source.send signal).map fun source => { s with source }.hear signal
  | .returns =>
    if s.depth = 0 then if s.stage = .subscribing then some s.subscribed else none
    else some { s with depth := s.depth - 1 }.afterNext

structure TakesFirst (n : Nat) (s : Taking ε α) : Prop where
  runs : s.stage ≠ .crashed
  first : s.delivered <+: s.source.emitted
  length : s.delivered.length ≤ n
  completes : s.depth = 0 ∧ s.delivered.length = n ∨ .complete ∈ s.source.sent → .complete ∈ s.signals
  once : .complete ∈ s.signals → s.signals = s.delivered.map .next ++ [.complete]

/-- The source signals nothing while a call of `OnNext` with the last element is under way, and has the subscriber
when `Subscribe` returns. -/
def waits (n : Nat) (s : Taking ε α) : OperatorEvent ε α → Bool
  | .signal _ => s.depth == 0 || s.delivered.length < n
  | .returns => s.depth != 0 || s.kept
  | _ => true

variable {n : Nat} {s s' : Taking ε α}

/-- The fields of `TakeSubscriber`, and the signals that have come to it and from it -/
inductive Counts (n : Nat) : Int → Bool → Nat → List (Signal ε α) → List (Signal ε α) → Prop where
  | running {count : Int} {depth : Nat} (xs : List α) : count + xs.length = n + depth →
    (depth = 0 → xs.length < n) → xs.length ≤ n → Counts n count false depth (xs.map .next) (xs.map .next)
  | ended {count : Int} {depth : Nat} (xs : List α) {signal} : (∀ a, signal ≠ .next a) → count + xs.length = n + depth →
    xs.length < n → Counts n count false depth (xs.map .next ++ [signal]) (xs.map .next ++ [signal])
  | cancelled {count : Int} {sent} (xs : List α) : xs.length = n → xs.map .next <+: sent →
    Counts n count true 0 sent (xs.map .next ++ [.complete])

def Counted (n : Nat) (s : Taking ε α) : Prop := Counts n s.count s.cancelled s.depth s.source.sent s.signals

theorem counted_build (n : Nat) (kept : Bool) : Counted n (build n kept : Taking ε α) := by
  cases n with
  | zero => exact .cancelled [] rfl ⟨_, rfl⟩
  | succ n => exact .running [] rfl (fun _ => Nat.succ_pos n) (Nat.zero_le _)

namespace Counted

theorem hear (h : Counted n s) {signal : Signal ε α} {source : Source ε α} (hwaits : s.waits n (.signal signal) = true)
    (hsend : s.source.send signal = some source) : Counted n ({ s with source }.hear signal) := by
  have hended : Signal.outcome s.source.sent = none := Upstream.outcome_of_send hsend
  have hsent : source.sent = s.source.sent ++ [signal] := Upstream.sent_of_send hsend
  obtain ⟨stage, kept, count, cancelled, depth, ⟨demand, sent, asked⟩, signals⟩ := s
  obtain ⟨demand, _, asked⟩ := source
  obtain rfl := hsent
  change Counts n count cancelled depth sent signals at h
  cases h with
  | running xs hcount hidle hle =>
    have hless : xs.length < n := by
      simp only [waits, delivered, Signal.items_map_next, Bool.or_eq_true, beq_iff_eq, decide_eq_true_eq] at hwaits
      exact hwaits.elim hidle id
    cases signal with
    | next a =>
      have hrunning : Counts n count false (depth + 1) ((xs ++ [a]).map (.next : α → Signal ε α))
          ((xs ++ [a]).map .next) := by
        refine .running (xs ++ [a]) ?_ nofun ?_
        · rw [List.length_append, List.length_singleton]
          omega
        · rw [List.length_append, List.length_singleton]
          omega
      rw [Taking.hear, onNext, if_neg Bool.false_ne_true, if_pos (show 0 < count by omega)]
      rwa [List.map_append] at hrunning
    | error | complete => exact .ended xs nofun hcount hless
  | ended xs hend =>
    obtain ⟨a, ha⟩ := Signal.next_of_mem hended List.mem_concat_self
    exact absurd ha (hend a)
  | cancelled xs hall hfirst =>
    have hcancelled : Counts n count true 0 (sent ++ [signal]) (xs.map .next ++ [.complete]) :=
      .cancelled xs hall (hfirst.trans (List.prefix_append sent [signal]))
    cases signal with
    | next | error | complete => exact hcancelled

theorem afterNext (h : Counted n s) (hdepth : s.depth ≠ 0) : Counted n { s with depth := s.depth - 1 }.afterNext := by
  obtain ⟨stage, kept, count, cancelled, depth, ⟨demand, sent, asked⟩, signals⟩ := s
  change Counts n count cancelled depth sent signals at h
  change depth ≠ 0 at hdepth
  cases h with
  | running xs hcount hidle hle =>
    by_cases hlast : count - 1 ≤ 0
    · obtain rfl : depth = 1 := by omega
      rw [Taking.afterNext, if_pos hlast]
      exact .cancelled xs (by omega) List.prefix_rfl
    · rw [Taking.afterNext, if_neg hlast]
      exact .running xs (by simp only; omega) (by simp only; omega) hle
  | ended xs hend hcount hless =>
    rw [Taking.afterNext, if_neg (show ¬ count - 1 ≤ 0 by omega)]
    exact .ended xs hend (by simp only; omega) hless
  | cancelled => exact absurd rfl hdepth

theorem next (h : Counted n s) {event : OperatorEvent ε α} (hwaits : s.waits n event = true)
    (hnext : s.next event = some s') : Counted n s' := by
  cases event with
  | request count | cancel =>
    obtain ⟨-, hnext⟩ := ite_none_right_eq_some.mp hnext
    cases hnext
    exact h
  | signal signal =>
    obtain ⟨-, hnext⟩ := ite_none_left_eq_some.mp hnext
    obtain ⟨source, hsend, rfl⟩ := map_eq_some_iff.mp hnext
    exact h.hear hwaits hsend
  | returns =>
    rw [Taking.next] at hnext
    split at hnext
    · obtain ⟨-, hnext⟩ := ite_none_right_eq_some.mp hnext
      cases hnext
      exact h
    · next hdepth =>
      cases hnext
      exact h.afterNext hdepth

theorem takesFirst (h : Counted n s) (hruns : s.stage ≠ .crashed) : s.TakesFirst n := by
  obtain ⟨stage, kept, count, cancelled, depth, ⟨demand, sent, asked⟩, signals⟩ := s
  change Counts n count cancelled depth sent signals at h
  cases h with
  | running xs hcount hidle hle =>
    refine ⟨hruns, ?_, ?_, ?_, ?_⟩ <;> simp [delivered, Upstream.emitted]
    · exact hle
    · exact fun hdepth => Nat.ne_of_lt (hidle hdepth)
  | ended xs hend hcount hless =>
    refine ⟨hruns, ?_, ?_, ?_, ?_⟩ <;> simp [delivered, Upstream.emitted, Signal.items_append_end hend]
    · exact Nat.le_of_lt hless
    · rintro (⟨-, hall⟩ | hcomplete)
      · exact absurd hall (Nat.ne_of_lt hless)
      · exact hcomplete
    · exact fun hcomplete => hcomplete.symm
  | cancelled xs hall hfirst =>
    refine ⟨hruns, ?_, ?_, ?_, ?_⟩ <;> simp [delivered, Upstream.emitted]
    · exact Signal.items_map_next (ε := ε) xs ▸ hfirst.filterMap _
    · exact Nat.le_of_eq hall

end Counted

theorem stage_hear (s : Taking ε α) (signal : Signal ε α) : (s.hear signal).stage = s.stage := by
  cases signal with
  | next a => simp only [hear, onNext, afterNext, send, apply_ite stage, ite_self]
  | error | complete => simp only [hear, onEnd, send, apply_ite stage, ite_self]

theorem runs_next {event : OperatorEvent ε α} (hruns : s.stage ≠ .crashed) (hwaits : s.waits n event = true)
    (hnext : s.next event = some s') : s'.stage ≠ .crashed := by
  cases event with
  | request count | cancel =>
    obtain ⟨-, hnext⟩ := ite_none_right_eq_some.mp hnext
    cases hnext
    exact hruns
  | signal signal =>
    obtain ⟨-, hnext⟩ := ite_none_left_eq_some.mp hnext
    obtain ⟨source, -, rfl⟩ := map_eq_some_iff.mp hnext
    rwa [stage_hear]
  | returns =>
    rw [next] at hnext
    split at hnext
    · next hdepth =>
      obtain ⟨-, hnext⟩ := ite_none_right_eq_some.mp hnext
      cases hnext
      have hkept : s.kept = true := by simpa [waits, hdepth] using hwaits
      simp [subscribed, hkept]
    · cases hnext
      simpa only [afterNext, send, apply_ite stage, ite_self] using hruns

/-- As long as the source waits for the calls of `OnNext` when the last element has been delivered, and does not let
go of the subscriber in `Subscribe`, exactly the first elements are taken. -/
theorem take_delivers_first {kept : Bool} {events : List (OperatorEvent ε α)}
    (hrun : runIf next (waits n) (build n kept) events = some s) : s.TakesFirst n := by
  have hstart : (build n kept : Taking ε α).stage ≠ .crashed := by
    rw [build]
    split <;> simp
  have hcounted : Counted n s ∧ s.stage ≠ .crashed :=
    runIf_invariant (P := fun s => Counted n s ∧ s.stage ≠ .crashed)
      (fun hwaits hnext h => ⟨h.1.next hwaits hnext, runs_next h.2 hwaits hnext⟩) ⟨counted_build n kept, hstart⟩ hrun
  exact hcounted.1.takesFirst hcounted.2

/-- The second element comes inside of `OnNext` with the first one, and the source emits a third one. -/
theorem take_delivers_first_of_nested :
    ∃ s : Taking Empty Nat, (s.signals = [.next 1, .next 2, .complete] ∧ s.source.emitted = [1, 2, 3]) ∧
      s.TakesFirst 2 := by
  have hrun : runIf next (waits 2) (build 2 true) [.returns, .request ⟨3, by decide⟩, .signal (.next 1),
      .signal (.next 2), .returns, .returns, .signal (.next 3)] = some (_ : Taking Empty Nat) := rfl
  exact ⟨_, ⟨rfl, rfl⟩, take_delivers_first hrun⟩

/-- The second element comes inside of `OnNext` with the only one that is to be taken. -/
theorem take_delivers_too_many :
    ∃ s : Taking Empty Nat, [.returns, .request ⟨2, by decide⟩, .signal (.next 1), .signal (.next 2), .returns,
        .returns].foldlM next (build 1 true) = some s ∧ s.signals = [.next 1, .next 2, .complete, .complete] ∧
          ¬ s.TakesFirst 1 :=
  ⟨_, rfl, rfl, fun h => absurd h.length (by decide)⟩

end Taking
end Shuriken.Rs
