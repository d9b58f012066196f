import Shuriken.Lib.Emission

/-!
# A stream over time

A publisher produces its signals one after the other: any number of items, and then at most one signal that
ends the stream. While its subscription exists it passes each signal on.
-/

inductive Signal (ε α : Type*)
  | next (item : α)
  | error (e : ε)
  | complete
  deriving DecidableEq

namespace Signal
variable {ε α : Type*}

/-- The items and the end of a stream that has ended. -/
def outcome : List (Signal ε α) → Option (Emission ε α)
  | [] => none
  | .next a :: signals => (outcome signals).map fun rest => ⟨a :: rest.items, rest.failure⟩
  | .error e :: _ => some (.throw e)
  | .complete :: _ => some {}

def items (signals : List (Signal ε α)) : List α := signals.filterMap fun
    | .next a => some a
    | _ => none

/-- The stream that one more signal makes of one that has not ended. -/
def outcomeAfter (items : List α) : Signal ε α → Option (Emission ε α)
  | .next _ => none
  | .error e => some ⟨items, some e⟩
  | .complete => some ⟨items, none⟩

variable {signals : List (Signal ε α)}

theorem outcome_append_singleton (h : outcome signals = none) (s : Signal ε α) :
    outcome (signals ++ [s]) = outcomeAfter (items signals) s := by
  induction signals with
  | nil => cases s <;> rfl
  | cons first signals ih =>
    cases first with
    | next a =>
      rw [outcome, Option.map_eq_none_iff] at h
      rw [List.cons_append, outcome, ih h]
      cases s <;> rfl
    | error | complete => nomatch h

theorem items_of_outcomeAfter {s : Signal ε α} {e : Emission ε α} (h : outcomeAfter (items signals) s = some e) :
    e.items = items (signals ++ [s]) := by
  cases s with
  | next a => nomatch h
  | error err =>
    cases h
    simp [items]
  | complete =>
    cases h
    simp [items]

@[simp] theorem items_nil : items ([] : List (Signal ε α)) = [] := rfl

theorem mem_items {a : α} : a ∈ items signals ↔ .next a ∈ signals := by
  rw [items, List.mem_filterMap]
  constructor
  · rintro ⟨s, hs, ha⟩
    cases s with
    | next b => exact Option.some.inj ha ▸ hs
    | error | complete => nomatch ha
  · exact fun ha => ⟨_, ha, rfl⟩

theorem items_append (signals more : List (Signal ε α)) : items (signals ++ more) = items signals ++ items more :=
  List.filterMap_append

@[simp] theorem items_map_next (l : List α) : items (l.map (.next : α → Signal ε α)) = l := by
  rw [items, List.filterMap_map]
  exact List.filterMap_some

theorem eq_map_items (h : outcome signals = none) : signals = (items signals).map .next := by
  induction signals with
  | nil => rfl
  | cons first signals ih =>
    cases first with
    | next a => exact congrArg (.next a :: ·) (ih (Option.map_eq_none_iff.mp h))
    | error | complete => nomatch h

@[simp] theorem outcome_map_next (l : List α) : outcome (l.map (.next : α → Signal ε α)) = none := by
  induction l with
  | nil => rfl
  | cons a l ih => rw [List.map_cons, outcome, ih, Option.map_none]

theorem next_of_mem (h : outcome signals = none) {s : Signal ε α} (hs : s ∈ signals) : ∃ a, s = .next a := by
  rw [eq_map_items h] at hs
  obtain ⟨a, -, rfl⟩ := List.mem_map.mp hs
  exact ⟨a, rfl⟩

@[simp] theorem items_append_next (signals : List (Signal ε α)) (a : α) :
    items (signals ++ [.next a]) = items signals ++ [a] := by
  simp [items]

@[simp] theorem items_append_error (signals : List (Signal ε α)) (e : ε) :
    items (signals ++ [.error e]) = items signals := by
  simp [items]

@[simp] theorem items_append_complete (signals : List (Signal ε α)) :
    items (signals ++ [.complete]) = items signals := by
  simp [items]

theorem items_append_end {s : Signal ε α} (h : ∀ a, s ≠ .next a) : items (signals ++ [s]) = items signals := by
  cases s with
  | next a => exact absurd rfl (h a)
  | error e => exact items_append_error signals e
  | complete => exact items_append_complete signals

end Signal

structure Publisher (ε α : Type*) where
  subscribed : Bool := false
  produced : List (Signal ε α) := []
  /-- The subscription has been destroyed. -/
  cancelled : Bool := false
  stopped : Bool := false
  deriving DecidableEq

namespace Publisher
variable {ε α : Type*}

def outcome (p : Publisher ε α) : Option (Emission ε α) := Signal.outcome p.produced

def subscribe (p : Publisher ε α) : Publisher ε α := { p with subscribed := true }

def cancel (p : Publisher ε α) : Publisher ε α := { p with cancelled := true }

/-- No signal follows the one that ends the stream. -/
def produce (p : Publisher ε α) (s : Signal ε α) : Option (Publisher ε α) :=
  if p.subscribed && p.outcome.isNone then some { p with produced := p.produced ++ [s] } else none

def stop (p : Publisher ε α) : Option (Publisher ε α) :=
  if p.cancelled && p.outcome.isNone then some { p with stopped := true } else none

theorem produce_eq_some {p p' : Publisher ε α} {s : Signal ε α} : p.produce s = some p' ↔
      (p.subscribed = true ∧ p.outcome = none) ∧ { p with produced := p.produced ++ [s] } = p' := by
  rw [produce, Option.ite_none_right_eq_some, Bool.and_eq_true, Option.isNone_iff_eq_none, Option.some.injEq]

theorem stop_eq_some {p p' : Publisher ε α} :
    p.stop = some p' ↔ (p.cancelled = true ∧ p.outcome = none) ∧ { p with stopped := true } = p' := by
  rw [stop, Option.ite_none_right_eq_some, Bool.and_eq_true, Option.isNone_iff_eq_none, Option.some.injEq]

end Publisher

/-- The signals that a subscriber has received: all of them, unless some were missed, in which case the
end of the stream is one of these. -/
structure Received {ε α : Type*} (p : Publisher ε α) (missed : Prop) (heard : List (Signal ε α)) : Prop where
  all : ¬ missed → heard = p.produced
  missing : missed → Signal.outcome heard = none

namespace Received
variable {ε α : Type*} {p p' : Publisher ε α} {missed missed' : Prop} {heard : List (Signal ε α)}

theorem outcome_eq_none (h : Received p missed heard) (hp : p.outcome = none) : Signal.outcome heard = none := by
  by_cases hmissed : missed
  · exact h.missing hmissed
  · rw [h.all hmissed]
    exact hp

variable {s : Signal ε α}

section
variable (h : Received p missed heard)
include h

theorem hear (hmissed : ¬ missed) (hproduce : p.produce s = some p') : Received p' missed (heard ++ [s]) where
  all _ := by rw [h.all hmissed, ← (Publisher.produce_eq_some.mp hproduce).2]
  missing h := absurd h hmissed

theorem miss (hmissed : missed') (hproduce : p.produce s = some p') : Received p' missed' heard where
  all h := absurd hmissed h
  missing _ := h.outcome_eq_none (Publisher.produce_eq_some.mp hproduce).1.2

theorem stop (hmissed : missed') (hstop : p.stop = some p') : Received p' missed' heard where
  all h := absurd hmissed h
  missing _ := h.outcome_eq_none (Publisher.stop_eq_some.mp hstop).1.2

theorem subscribe : Received p.subscribe missed heard := ⟨h.all, h.missing⟩

theorem cancel : Received p.cancel missed heard := ⟨h.all, h.missing⟩

theorem outcome_eq {e : Emission ε α} (he : p.outcome = some e)
    (hmissed : ¬ missed) : Signal.outcome heard = some e := by
  rw [h.all hmissed]
  exact he

end

end Received
