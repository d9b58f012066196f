import Shuriken.Rs.Merge

/-!
# How much a merged stream emits

A stream emits no more elements than were requested.
-/
namespace Shuriken.Rs.Merging
open Option

variable {n : Nat} {ε α : Type*} {s s' : Merging n ε α}

/-- A demand of `2 ^ 63 - 1` or more is unbounded. -/
def RespectsBackpressure (s : Merging n ε α) : Prop := s.delivered.length ≤ s.requested ∨ 2 ^ 63 - 1 ≤ s.requested

/-- A request that is made outside of other requests finds nothing in the buffer. -/
def FindsNoBuffer (s : Merging n ε α) : MergeEvent n ε α → Prop
  | .request _ => s.merge.finished = false → s.merge.requestedElementsBeingProcessed = 0 → s.merge.buffer = []
  | _ => True

instance (s : Merging n ε α) : (event : MergeEvent n ε α) → Decidable (s.FindsNoBuffer event)
  | .request _ => inferInstanceAs (Decidable (_ → _ → _))
  | .cancel | .next _ _ | .error _ _ | .complete _ | .returns => isTrue trivial

/-- Nothing is taken from the buffer, and what is outstanding was requested and not delivered. -/
structure Counted (s : Merging n ε α) : Prop where
  direct : .draining ∉ s.stack
  within : s.delivered.length + s.merge.outstanding.count ≤ s.requested ∨ 2 ^ 63 - 1 ≤ s.requested

namespace Counted

theorem subscribe : Counted (Merging.subscribe n : Merging n ε α) := by
  rw [Merging.subscribe]
  split
  · exact ⟨nofun, .inl (Nat.le_refl 0)⟩
  · exact ⟨nofun, .inl (Nat.le_refl 0)⟩

section
variable (h : Counted s)
include h

theorem sendOnComplete : Counted s.sendOnComplete where
  direct := h.direct
  within := by
    rw [Merging.sendOnComplete, delivered_send_complete]
    exact h.within

theorem maybeSendOnComplete : Counted s.maybeSendOnComplete := by
  rcases maybeSendOnComplete_cases s with ⟨-, -, -, hsend⟩ | ⟨-, hsend⟩
  · rw [hsend]
    exact h.sendOnComplete
  · rw [hsend]
    exact h

theorem endRequest : Counted s.endRequest := maybeSendOnComplete ⟨h.direct, h.within⟩

theorem requestLoop (sources : List (Fin n)) : Counted (s.requestLoop sources) := by
  rcases requestLoop_cases s sources with ⟨-, hloop⟩ | ⟨_, i, rest, -, -, hloop⟩
  · rw [hloop]
    exact h.endRequest
  · rw [hloop]
    exact ⟨fun hmem => h.direct (List.mem_of_ne_of_mem (by simp) hmem), h.within⟩

theorem drainLoop (hbuffer : s.merge.buffer = []) : Counted s.drainLoop := by
  rw [Merging.drainLoop, hbuffer]
  split
  · exact h.endRequest
  · exact h.requestLoop _

theorem request {count : Count} (hfinds : s.FindsNoBuffer (.request count)) : Counted (s.request count) := by
  have hwithin : s.delivered.length + s.merge.outstanding.count ≤ s.requested + count.count ∨
      2 ^ 63 - 1 ≤ s.requested + count.count := by
    have := h.within
    omega
  rw [Merging.request]
  split
  · exact ⟨h.direct, hwithin⟩
  · next hfinished =>
    simp only
    split
    · exact ⟨h.direct, hwithin⟩
    · next hnested =>
      have hidle : s.merge.requestedElementsBeingProcessed = 0 := not_not.mp hnested
      have hbegin : Counted (s.beginRequest count) := by
        refine ⟨h.direct, ?_⟩
        have := h.within
        simp only [beginRequest, addRequest, hidle, Demand.count_add, Demand.count_zero]
        change s.delivered.length + _ ≤ _ ∨ _
        omega
      exact hbegin.drainLoop (hfinds (Bool.eq_false_of_not_eq_true hfinished) hidle)

theorem onInnerSubscriptionError (e : MergeError ε) : Counted (s.onInnerSubscriptionError e) := by
  rw [Merging.onInnerSubscriptionError]
  split
  · exact h
  · refine ⟨h.direct, ?_⟩
    rw [delivered_send_error]
    exact h.within

theorem onInnerSubscriptionNext (i : Fin n) (element : α) : Counted (s.onInnerSubscriptionNext i element) := by
  rw [Merging.onInnerSubscriptionNext]
  split
  · exact h
  · split
    · exact h.onInnerSubscriptionError _
    · split
      · exact ⟨h.direct, h.within⟩
      · next hpos =>
        refine ⟨fun hmem => h.direct (List.mem_of_ne_of_mem (by simp) hmem), ?_⟩
        rw [deliver, delivered_send_next, List.length_append, List.length_singleton]
        change s.delivered.length + 1 + s.merge.outstanding.pred.count ≤ s.requested ∨ 2 ^ 63 - 1 ≤ s.requested
        have := h.within
        have := s.merge.outstanding.le_top
        rw [Demand.eq_zero_iff] at hpos
        rw [Demand.count_pred]
        split <;> omega

theorem pop {frame : MergeFrame n} {stack : List (MergeFrame n)} (hstack : s.stack = frame :: stack) :
    Counted { s with stack } :=
  ⟨fun hmem => h.direct (hstack ▸ List.mem_cons_of_mem frame hmem), h.within⟩

theorem setSource (i : Fin n) (source : MergeSource α) : Counted (s.setSource i source) :=
  ⟨h.direct, h.within⟩

theorem returnCall (hreturn : s.returnCall = some s') : Counted s' := by
  rw [Merging.returnCall] at hreturn
  split at hreturn
  · nomatch hreturn
  · next stack hstack => exact absurd (hstack ▸ List.mem_cons_self) h.direct
  · next rest stack hstack =>
    cases hreturn
    exact (h.pop hstack).requestLoop rest
  · next stack hstack =>
    cases hreturn
    exact h.pop hstack

theorem next {event : MergeEvent n ε α} (hfinds : s.FindsNoBuffer event)
    (hnext : s.next event = some s') : Counted s' := by
  cases event with
  | request count =>
    cases hnext
    exact h.request hfinds
  | cancel =>
    cases hnext
    exact ⟨h.direct, h.within⟩
  | next i element =>
    obtain ⟨source, -, rfl⟩ := map_eq_some_iff.mp hnext
    exact (h.setSource i source).onInnerSubscriptionNext i element
  | error i e =>
    obtain ⟨source, -, rfl⟩ := map_eq_some_iff.mp hnext
    exact (h.setSource i source).onInnerSubscriptionError _
  | complete i =>
    obtain ⟨source, -, rfl⟩ := map_eq_some_iff.mp hnext
    exact maybeSendOnComplete ⟨h.direct, h.within⟩
  | returns => exact h.returnCall hnext

end

end Counted

/-- Whatever the streams and the subscriber do: no more is delivered than was requested, as long as no
request that is made outside of other requests finds elements in the buffer. -/
theorem merge_respects_backpressure (hreaches : Reaches FindsNoBuffer s) : s.RespectsBackpressure := by
  have hcounted : Counted s := hreaches.invariant .subscribe fun hfinds hnext h => h.next hfinds hnext
  exact hcounted.within.imp (Nat.le_trans (Nat.le_add_right _ _)) id

def firstRequest : List (MergeEvent 2 Empty Nat) :=
  [.request ⟨1, one_le_max⟩, .next 0 1, .returns, .returns, .next 1 2, .returns]

theorem first_request_respects_backpressure :
    ∃ s : Merging 2 Empty Nat, (Reaches FindsNoBuffer s ∧ s.delivered = [1] ∧ s.merge.buffer = [2]) ∧
      s.RespectsBackpressure := by
  have hrun : ((subscribe 2).run FindsNoBuffer firstRequest).map (fun s => (s.delivered, s.merge.buffer)) =
      some ([1], [2]) := by
    decide
  obtain ⟨s, hs, hdelivered⟩ := map_eq_some_iff.mp hrun
  have hreaches : Reaches FindsNoBuffer s := reaches_of_run hs
  exact ⟨s, ⟨hreaches, Prod.mk.inj hdelivered⟩, merge_respects_backpressure hreaches⟩

/-- The second request takes the element from the buffer, and still counts it as outstanding when the
streams get the third request. -/
theorem merge_exceeds_request :
    ∃ s : Merging 2 Empty Nat, Reaches (fun _ _ => True) s ∧ s.delivered = [1, 2, 3, 4] ∧ s.requested = 3 := by
  have hrun : ((subscribe 2).run (fun _ _ => True) (firstRequest ++ [.request ⟨1, by decide⟩, .returns] ++
      [.request ⟨1, by decide⟩, .next 0 3, .returns, .returns, .next 1 4])).map
        (fun s : Merging 2 Empty Nat => (s.delivered, s.requested)) = some ([1, 2, 3, 4], 3) := by
    decide
  obtain ⟨s, hs, hdelivered⟩ := map_eq_some_iff.mp hrun
  exact ⟨s, reaches_of_run hs, Prod.mk.inj hdelivered⟩

end Shuriken.Rs.Merging
