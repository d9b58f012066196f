import Shuriken.Lib.Demand
import Shuriken.Lib.Signals

/-!
# A publisher that is asked for its elements

It emits no more elements than it was asked for, and nothing after the signal that
ends it. One that was cancelled may still go on for a while.
-/

structure Upstream (top : Nat) (ε α : Type*) where
  /-- What was requested and has not been emitted -/
  demand : Demand top := 0
  sent : List (Signal ε α) := []
  cancelled : Bool := false

namespace Upstream
variable {top : Nat} {ε α : Type*}

def emitted (u : Upstream top ε α) : List α := Signal.items u.sent

def ended (u : Upstream top ε α) : Bool := (Signal.outcome u.sent).isSome

def request (u : Upstream top ε α) (count : Demand top) : Upstream top ε α := { u with demand := u.demand + count }

def cancel (u : Upstream top ε α) : Upstream top ε α := { u with cancelled := true }

def send (u : Upstream top ε α) (signal : Signal ε α) : Option (Upstream top ε α) :=
  if u.ended then none
  else
    match signal with
    | .next _ => if u.demand = 0 then none else some { u with demand := u.demand.pred, sent := u.sent ++ [signal] }
    | _ => some { u with sent := u.sent ++ [signal] }

/-- More elements are to come, unless the publisher ends. -/
def Owes (u : Upstream top ε α) : Prop := u.demand ≠ 0 ∧ u.ended = false ∧ u.cancelled = false

variable {u u' : Upstream top ε α} {signal : Signal ε α}

theorem send_next {a : α} : u.send (.next a) = some u' ↔ (u.ended = false ∧ u.demand ≠ 0) ∧
      { u with demand := u.demand.pred, sent := u.sent ++ [.next a] } = u' := by
  rw [send]
  cases u.ended <;> simp

theorem send_of_end (h : ∀ a, signal ≠ .next a) :
    u.send signal = some u' ↔ u.ended = false ∧ { u with sent := u.sent ++ [signal] } = u' := by
  cases signal with
  | next a => exact absurd rfl (h a)
  | error e | complete =>
    unfold send
    cases u.ended <;> simp

section
variable (h : u.send signal = some u')
include h

theorem outcome_of_send : Signal.outcome u.sent = none := by
  cases hended : u.ended with
  | false => exact Option.not_isSome_iff_eq_none.mp (Bool.not_eq_true _ ▸ hended)
  | true =>
    unfold send at h
    rw [if_pos hended] at h
    nomatch h

theorem sent_of_send : u'.sent = u.sent ++ [signal] := by
  cases signal with
  | next a => rw [← (send_next.mp h).2]
  | error | complete => rw [← ((send_of_end nofun).mp h).2]

theorem ended_of_send : u'.ended = (Signal.outcomeAfter u.emitted signal).isSome := by
  rw [ended, sent_of_send h, Signal.outcome_append_singleton (outcome_of_send h)]
  rfl

end

end Upstream
