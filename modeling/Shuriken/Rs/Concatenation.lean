import Shuriken.Rs.ConcatMap

/-!
# The demand of concatenated streams

What is requested of a values publisher is what has been requested of `ConcatMap`, as
far as the loop of `Request` has come to it.
-/
namespace Shuriken.Rs
open Option List Upstream

namespace ConcatMapFrame

def requesting? : ConcatMapFrame → Option Nat
  | .requesting i => some i
  | .subscribing _ | .passing _ => none

def isSubscribing : ConcatMapFrame → Bool
  | .requesting _ | .passing _ => false
  | .subscribing _ => true

end ConcatMapFrame

namespace ConcatMap
open ConcatMapFrame
variable {ε ι α π : Type*} {mapper : ι → π}

def delivered (s : ConcatMap ε ι α) : List α := Signal.items s.signals

/-- A call has not returned, or a publisher that was asked for something has not ended. -/
def Pending (s : ConcatMap ε ι α) : Prop := s.stack ≠ [] ∨ s.publishers.demand ≠ 0 ∧ s.publishers.ended = false ∨
    ∃ u ∈ s.values, u.demand ≠ 0 ∧ u.ended = false

structure Concatenates (s : ConcatMap ε ι α) : Prop where
  first : s.delivered = (s.values.map emitted).flatten
  order : ∀ u ∈ s.values.dropLast, u.ended = true
  within : s.delivered.length ≤ s.asked ∨ 2 ^ 63 - 1 ≤ s.asked
  all : ¬ s.Pending → s.asked ≤ s.delivered.length ∨ s.signals = s.delivered.map .next ++ [.complete] ∧
    s.publishers.ended = true ∧ ∀ u ∈ s.values, u.ended = true

/-- The publishers emit and complete. Nothing is requested before the first values publisher is subscribed to.
When one comes, the calls on the stack are to subscriptions that have been taken away: it would destroy the
current one. -/
def inTurn (s : ConcatMap ε ι α) : ConcatMapEvent ε ι α → Bool
  | .request _ => s.subscription.isSome || (s.stack.findSome? requesting?).isSome
  | .publishers (.next _) => s.stack.all fun frame => frame.requesting?.isSome
  | .cancel | .publishers (.error _) | .values _ (.error _) => false
  | _ => true

structure Amounts (requested toBeRequested : Count) (sent asked : Nat) : Prop where
  within : sent + requested.count + toBeRequested.count ≤ asked ∨ 2 ^ 63 - 1 ≤ asked
  owed : asked ≤ sent + requested.count + toBeRequested.count ∨ requested.count = 2 ^ 63 - 1 ∨
    toBeRequested.count = 2 ^ 63 - 1

namespace Amounts
variable {requested toBeRequested : Count} {sent asked : Nat}

section
variable (h : Amounts requested toBeRequested sent asked)
include h

theorem ask (count : Count) : Amounts requested (toBeRequested + count) sent (asked + count.count) := by
  obtain ⟨hwithin, howed⟩ := h
  constructor <;> rw [Demand.count_add] <;> omega

theorem pass : Amounts (requested + toBeRequested) 0 sent asked := by
  obtain ⟨hwithin, howed⟩ := h
  constructor <;> simp only [Demand.count_add, Demand.count_zero] <;> omega

theorem deliver (hsome : requested ≠ 0) : Amounts requested.pred toBeRequested (sent + 1) asked := by
  obtain ⟨hwithin, howed⟩ := h
  rw [Ne, Demand.eq_zero_iff] at hsome
  constructor <;> rw [Demand.count_pred] <;> split <;> omega

end

end Amounts

/-- The subscription, or the one that is put back, is that of the last publisher that has been subscribed to. -/
structure Held (subscription : Option Nat) (stack : List ConcatMapFrame) (n : Nat) : Prop where
  current : (subscription.or (stack.findSome? requesting?)).elim 0 (· + 1) + stack.countP isSubscribing = n
  one : stack.countP isSubscribing ≤ 1
  last : ∀ j, .subscribing j ∈ stack → j + 1 = n

namespace Held
variable {subscription : Option Nat} {stack : List ConcatMapFrame} {n i : Nat}

theorem take (h : Held (some i) stack n) : Held none (.requesting i :: stack) n where
  current := h.current
  one := h.one
  last j hj := h.last j (by simpa using hj)

theorem putBack (h : Held subscription (.requesting i :: stack) n) : Held (subscription.or (some i)) stack n where
  current := by
    cases subscription with
    | none | some => exact h.current
  one := h.one
  last j hj := h.last j (mem_cons_of_mem _ hj)

theorem subscribe (h : Held subscription stack n) (hnone : stack.countP isSubscribing = 0) :
    Held subscription (.subscribing n :: stack) (n + 1) where
  current := by
    rw [countP_cons_of_pos rfl]
    exact congrArg (· + 1) h.current
  one := by
    rw [countP_cons_of_pos rfl, hnone]
  last j hj := by
    rcases mem_cons.mp hj with hj | hj
    · obtain rfl := ConcatMapFrame.subscribing.inj hj
      rfl
    · exact absurd rfl (countP_eq_zero.mp hnone _ hj)

theorem subscribed (h : Held subscription (.subscribing i :: stack) n) : Held (some i) stack n := by
  have hone := h.one
  rw [countP_cons_of_pos rfl] at hone
  have hnone : stack.countP isSubscribing = 0 := Nat.le_zero.mp (Nat.le_of_succ_le_succ hone)
  refine ⟨?_, ?_, fun j hj => h.last j (mem_cons_of_mem _ hj)⟩
  · rw [hnone]
    exact h.last i mem_cons_self
  · rw [hnone]
    exact Nat.zero_le 1

theorem passing : Held subscription (.passing i :: stack) n ↔ Held subscription stack n := by
  constructor
  · rintro ⟨hcurrent, hone, hlast⟩
    exact ⟨hcurrent, hone, fun j hj => hlast j (mem_cons_of_mem _ hj)⟩
  · rintro ⟨hcurrent, hone, hlast⟩
    exact ⟨hcurrent, hone, fun j hj => hlast j (by simpa using hj)⟩

end Held

theorem countP_isSubscribing {stack : List ConcatMapFrame} (h : stack.all (fun frame => frame.requesting?.isSome)) :
    stack.countP isSubscribing = 0 := by
  refine countP_eq_zero.mpr fun frame hframe hsubscribing => ?_
  have hrequesting := all_eq_true.mp h frame hframe
  cases frame with
  | requesting => cases hsubscribing
  | subscribing | passing => cases hrequesting

variable {s s' : ConcatMap ε ι α}

/-- A values publisher that has not ended is the last one, and has this demand. -/
def Asked (values : List (Source ε α)) (demand : Count) : Prop :=
  ∀ (i : Nat) (u : Source ε α), values[i]? = some u → u.ended = false → i + 1 = values.length ∧ u.demand = demand

theorem Asked.request {values : List (Source ε α)} {demand : Count} (h : Asked values demand) (i : Nat)
    (count : Count) :
    Asked (values.modify i (.request · count)) (if i + 1 = values.length then demand + count else demand) := by
  intro k u hk hu
  rw [length_modify]
  rw [getElem?_modify] at hk
  obtain ⟨v, hv, hk⟩ := map_eq_some_iff.mp hk
  split at hk
  · next heq =>
    obtain rfl := hk
    obtain ⟨hlast, rfl⟩ := h k v hv hu
    rw [heq, if_pos hlast]
    exact ⟨hlast, rfl⟩
  · next hne =>
    obtain rfl := hk
    obtain ⟨hlast, hdemand⟩ := h k v hv hu
    rw [if_neg (by omega)]
    exact ⟨hlast, hdemand⟩

theorem Asked.set {values : List (Source ε α)} {demand demand' : Count} (h : Asked values demand) {i : Nat}
    (hi : i + 1 = values.length) {u : Source ε α} (hu : u.ended = false → u.demand = demand') :
    Asked (values.set i u) demand' := by
  intro k v hk hv
  rw [length_set]
  rw [getElem?_set] at hk
  split at hk
  · next heq =>
    obtain ⟨-, hk⟩ := ite_none_right_eq_some.mp hk
    cases hk
    exact ⟨heq ▸ hi, hu hv⟩
  · next hne =>
    have hlast := (h k v hk hv).1
    omega

theorem Asked.append {values : List (Source ε α)} (h : ∀ b ∈ values.map ended, b = true) (new : Source ε α) :
    Asked (values ++ [new]) new.demand := by
  intro k u hk hu
  rw [getElem?_append] at hk
  split at hk
  · nomatch (h _ (mem_map_of_mem (mem_of_getElem? hk))).symm.trans hu
  · rw [getElem?_singleton] at hk
    obtain ⟨hzero, hk⟩ := ite_none_right_eq_some.mp hk
    cases hk
    rw [length_append, length_singleton]
    exact ⟨by omega, rfl⟩

theorem flatten_request (i : Nat) (count : Count) (values : List (Source ε α)) :
    ((values.modify i (.request · count)).map emitted).flatten = (values.map emitted).flatten := by
  have hemitted (u : Source ε α) : (u.request count).emitted = u.emitted := rfl
  rw [map_modify_of_eq hemitted]

theorem flatten_set {values : List (Source ε α)} {i : Nat} {u u' : Source ε α} (hi : values[i]? = some u)
    (hlast : i + 1 = values.length) {signal : Signal ε α} (hsent : u'.sent = u.sent ++ [signal]) :
    ((values.set i u').map emitted).flatten =
      (values.map emitted).flatten ++ Signal.items [signal] := by
  obtain ⟨before, rfl⟩ : ∃ before, values = before ++ [u] := by
    have hu : u ∈ values.getLast? := by
      rw [getLast?_eq_getElem?, ← hlast]
      exact hi
    exact ⟨_, (dropLast_append_getLast? u hu).symm⟩
  obtain rfl : i = before.length := by simpa using hlast
  simp [emitted, hsent, Signal.items_append]

structure Flowing (s : ConcatMap ε ι α) : Prop where
  running : s.failed = false
  first : s.delivered = (s.values.map emitted).flatten
  amounts : Amounts s.requested s.toBeRequested s.delivered.length s.asked
  held : Held s.subscription s.stack s.values.length
  asked : Asked s.values (if s.stack.countP isSubscribing = 0 then s.requested else 0)
  asks : s.publishers.demand = if s.selfRef then ⟨1, by decide⟩ else 0

structure Flows (s : ConcatMap ε ι α) : Prop extends Flowing s where
  drained : s.toBeRequested ≠ 0 → (s.stack.findSome? requesting?).isSome = true

theorem Flowing.requestLoop (h : Flowing s)
    (hdrained : s.subscription = none → s.toBeRequested ≠ 0 → (s.stack.findSome? requesting?).isSome = true) :
    Flows s.requestLoop := by
  obtain ⟨hrunning, hfirst, hamounts, hheld, hasked, hasks⟩ := h
  obtain ⟨failed, complete, requested, toBe, _ | i, selfRef, stack, publishers, values, asked, signals⟩ := s
  · exact ⟨⟨hrunning, hfirst, hamounts, hheld, hasked, hasks⟩, hdrained rfl⟩
  · have hcurrent : i + 1 + stack.countP isSubscribing = values.length := hheld.current
    have hrequested : Asked (values.modify i (.request · toBe)) _ := hasked.request i toBe
    dsimp only at hrequested
    rw [← length_modify (.request · toBe) values i] at hheld
    refine ⟨⟨hrunning, hfirst.trans (flatten_request i toBe values).symm, hamounts.pass, hheld.take, ?_, hasks⟩,
      fun hne => absurd rfl hne⟩
    change Asked _ (if stack.countP isSubscribing = 0 then requested + toBe else 0)
    by_cases hnone : stack.countP isSubscribing = 0
    · rw [if_pos hnone, if_pos (by omega)] at hrequested
      rwa [if_pos hnone]
    · rw [if_neg hnone, if_neg (by omega)] at hrequested
      rwa [if_neg hnone]

namespace Flows

theorem request (h : Flows s) (count : Count) (hturn : s.inTurn (.request count) = true) : Flows (s.request count) := by
  obtain ⟨⟨hrunning, hfirst, hamounts, hheld, hasked, hasks⟩, -⟩ := h
  refine Flowing.requestLoop ⟨hrunning, hfirst, hamounts.ask count, hheld, hasked, hasks⟩ fun hnone _ => ?_
  change s.subscription = none at hnone
  rw [inTurn, hnone] at hturn
  exact hturn

theorem returnCall {frame : ConcatMapFrame} {stack : List ConcatMapFrame} (h : Flows s)
    (hstack : s.stack = frame :: stack) : Flows ({ s with stack }.returnCall frame) := by
  obtain ⟨⟨hrunning, hfirst, hamounts, hheld, hasked, hasks⟩, hdrained⟩ := h
  obtain ⟨failed, complete, requested, toBe, subscription, selfRef, _, publishers, values, asked, signals⟩ := s
  obtain rfl := hstack
  cases frame with
  | requesting i =>
    rw [ConcatMap.returnCall]
    split
    · next hzero =>
      exact ⟨⟨hrunning, hfirst, hamounts, hheld.putBack, hasked, hasks⟩, fun hne => absurd hzero hne⟩
    · refine Flowing.requestLoop ⟨hrunning, hfirst, hamounts, hheld.putBack, hasked, hasks⟩ fun hnone => ?_
      cases (or_eq_none_iff.mp hnone).2
  | subscribing i =>
    have hlast : i + 1 = values.length := hheld.last i mem_cons_self
    have hinstalled := hheld.subscribed
    have hcurrent : i + 1 + stack.countP isSubscribing = values.length := hinstalled.current
    have hrequested := hasked.request i requested
    rw [if_pos hlast, countP_cons_of_pos rfl, if_neg (Nat.succ_ne_zero _), Demand.zero_add] at hrequested
    rw [← length_modify (.request · requested) values i] at hinstalled
    refine ⟨⟨hrunning, hfirst.trans (flatten_request i requested values).symm, hamounts, Held.passing.mpr hinstalled,
      ?_, hasks⟩, hdrained⟩
    change Asked _ (if stack.countP isSubscribing = 0 then requested else 0)
    rw [if_pos (show stack.countP isSubscribing = 0 by omega)]
    exact hrequested
  | passing i => exact ⟨⟨hrunning, hfirst, hamounts, Held.passing.mp hheld, hasked, hasks⟩, hdrained⟩

theorem complete (h : Flows s) : Flows (s.send .complete) := by
  obtain ⟨⟨hrunning, hfirst, hamounts, hheld, hasked, hasks⟩, hdrained⟩ := h
  have hdelivered : (s.send .complete).delivered = s.delivered := Signal.items_append_complete s.signals
  refine ⟨⟨hrunning, hdelivered.trans hfirst, ?_, hheld, hasked, hasks⟩, hdrained⟩
  rw [hdelivered]
  exact hamounts

theorem hearPublishers (h : Flows s) (hended : Ended s) {signal : Signal ε ι} {publishers : Source ε ι}
    (hturn : s.inTurn (.publishers signal) = true) (hsend : s.publishers.send signal = some publishers) :
    Flows ({ s with publishers }.hearPublishers (fun x => .ok (mapper x)) signal) := by
  obtain ⟨⟨hrunning, hfirst, hamounts, hheld, hasked, hasks⟩, hdrained⟩ := h
  obtain ⟨failed, complete, requested, toBe, subscription, selfRef, stack, source, values, asked, signals⟩ := s
  obtain rfl : failed = false := hrunning
  cases signal with
  | next x =>
    obtain ⟨⟨-, hdemand⟩, rfl⟩ := send_next.mp hsend
    change source.demand = _ at hasks
    change source.demand ≠ 0 at hdemand
    cases selfRef with
    | false => exact absurd hasks hdemand
    | true =>
      have hnone : stack.countP isSubscribing = 0 := countP_isSubscribing hturn
      have hall : ∀ b ∈ values.map ended, b = true := by
        change Ends false complete true source.ended (values.map ended) signals at hended
        cases hended with
        | between xs _ hvalues => exact hvalues
        | completed xs _ hvalues => exact hvalues
      let new : Source ε α := {}
      have hlength : (values ++ [new]).length = values.length + 1 := length_append
      have hemitted : ((values ++ [new]).map emitted).flatten = (values.map emitted).flatten := by
        rw [map_append, flatten_append]
        exact append_nil _
      refine ⟨⟨rfl, hfirst.trans hemitted.symm, hamounts, hlength ▸ hheld.subscribe hnone, ?_, ?_⟩, hdrained⟩
      · change Asked (values ++ [new])
          (if (ConcatMapFrame.subscribing _ :: stack).countP isSubscribing = 0 then _ else 0)
        rw [countP_cons_of_pos rfl, if_neg (Nat.succ_ne_zero _)]
        exact .append hall new
      · change source.demand.pred = 0
        rw [hasks]
        rfl
  | error e => nomatch hturn
  | complete =>
    obtain ⟨-, rfl⟩ := (send_of_end nofun).mp hsend
    have hflows : Flows (⟨false, true, requested, toBe, subscription, selfRef, stack,
        { source with sent := source.sent ++ [.complete] }, values, asked, signals⟩ : ConcatMap ε ι α) :=
      ⟨⟨rfl, hfirst, hamounts, hheld, hasked, hasks⟩, hdrained⟩
    cases selfRef with
    | true => exact hflows.complete
    | false => exact hflows

theorem hearValues (h : Flows s) (hended : Ended s) {i : Nat} {signal : Signal ε α} {u u' : Source ε α}
    (hturn : s.inTurn (.values i signal) = true) (hi : s.values[i]? = some u)
    (hsend : u.send signal = some u') : Flows ({ s with values := s.values.set i u' }.hearValues signal) := by
  have hlive : u.ended = false := congrArg isSome (outcome_of_send hsend)
  have hover := ended_of_send hsend
  have hsent := sent_of_send hsend
  obtain ⟨⟨hrunning, hfirst, hamounts, hheld, hasked, hasks⟩, hdrained⟩ := h
  obtain ⟨hlast, hdemand⟩ := hasked i u hi hlive
  obtain ⟨failed, complete, requested, toBe, subscription, selfRef, stack, source, values, asked, signals⟩ := s
  obtain rfl : failed = false := hrunning
  dsimp only at *
  rw [← length_set (i := i) (a := u')] at hheld
  cases signal with
  | next a =>
    obtain ⟨⟨-, hsome⟩, rfl⟩ := send_next.mp hsend
    have hnone : stack.countP isSubscribing = 0 := by
      by_contra hne
      rw [if_neg hne] at hdemand
      exact hsome hdemand
    rw [if_pos hnone] at hdemand
    rw [hdemand] at hsome
    rw [ConcatMap.hearValues, onValuesNext, if_neg Bool.false_ne_true, if_neg hsome]
    refine ⟨⟨rfl, ?_, ?_, hheld, ?_, hasks⟩, hdrained⟩
    · have happend := congrArg (· ++ [a]) hfirst
      exact (Signal.items_append signals [.next a]).trans (happend.trans (flatten_set hi hlast hsent).symm)
    · change Amounts requested.pred toBe (Signal.items (signals ++ [.next a])).length asked
      rw [Signal.items_append_next, length_append]
      exact hamounts.deliver hsome
    · change Asked _ (if stack.countP isSubscribing = 0 then requested.pred else 0)
      rw [if_pos hnone]
      exact hasked.set hlast fun _ => congrArg Demand.pred hdemand
  | error e => cases hturn
  | complete =>
    obtain ⟨-, rfl⟩ := (send_of_end (by simp)).mp hsend
    have hflows : Flows (⟨false, complete, requested, toBe, subscription, selfRef, stack, source,
        values.set i { u with sent := u.sent ++ [.complete] }, asked, signals⟩ : ConcatMap ε ι α) := by
      have hsame := (flatten_set hi hlast hsent).trans (append_nil _)
      refine ⟨⟨rfl, hfirst.trans hsame.symm, hamounts, hheld, ?_, hasks⟩, hdrained⟩
      exact hasked.set hlast fun hu => by cases hover.symm.trans hu
    cases complete with
    | true => exact hflows.complete
    | false =>
      have hself : selfRef = false := by
        have hmem : false ∈ values.map ended := hlive ▸ mem_map_of_mem (mem_of_getElem? hi)
        change Ends false false selfRef source.ended (values.map ended) signals at hended
        cases hended with
        | between xs _ hvalues => cases hvalues false hmem
        | inside => rfl
        | completed xs _ hvalues => cases hvalues false hmem
      obtain ⟨⟨_, hfirst, hamounts, hheld, hasked, hasks⟩, hdrained⟩ := hflows
      refine ⟨⟨rfl, hfirst, hamounts, hheld, hasked, ?_⟩, hdrained⟩
      change source.demand + ⟨1, by decide⟩ = ⟨1, by decide⟩
      change source.demand = _ at hasks
      rw [hasks, hself]
      exact Demand.zero_add _

end Flows

/-- As long as the publishers come and are asked in turn, the streams are concatenated. -/
theorem concatMap_keeps_demand {events : List (ConcatMapEvent ε ι α)}
    (hrun : runIf (next fun x => .ok (mapper x)) inTurn {} events = some s) : s.Concatenates := by
  have hstart : Flows ({} : ConcatMap ε ι α) :=
    ⟨⟨rfl, rfl, ⟨.inl (Nat.le_refl 0), .inl (Nat.le_refl 0)⟩, ⟨rfl, Nat.zero_le 1, by simp⟩, by simp [Asked], rfl⟩,
      fun h => absurd rfl h⟩
  have hflows : Ended s ∧ Flows s := by
    refine runIf_invariant (P := fun s => Ended s ∧ Flows s) (fun {s event s'} hturn hnext h => ?_)
      ⟨.start, hstart⟩ hrun
    obtain ⟨hended, hflows⟩ := h
    have hfails : s.failsOnce (fun x => .ok (mapper x)) event = true := by
      rw [failsOnce.eq_def, hflows.running]
      split <;> rfl
    refine ⟨hended.next hfails hnext, ?_⟩
    cases event with
    | request count =>
      cases hnext
      exact hflows.request count hturn
    | cancel => cases hturn
    | publishers signal =>
      obtain ⟨publishers, hsend, rfl⟩ := map_eq_some_iff.mp hnext
      exact hflows.hearPublishers hended hturn hsend
    | values i signal =>
      obtain ⟨u', hbind, rfl⟩ := map_eq_some_iff.mp hnext
      obtain ⟨u, hi, hsend⟩ := bind_eq_some_iff.mp hbind
      exact hflows.hearValues hended hturn hi hsend
    | returns =>
      rw [ConcatMap.next] at hnext
      split at hnext
      · cases hnext
      · next hstack =>
        cases hnext
        exact hflows.returnCall hstack
  obtain ⟨hended, ⟨hrunning, hfirst, ⟨hwithin, howed⟩, hheld, hasked, hasks⟩, hdrained⟩ := hflows
  obtain ⟨failed, complete, requested, toBe, subscription, selfRef, stack, source, values, asked, signals⟩ := s
  obtain rfl : failed = false := hrunning
  refine ⟨hfirst, ?_, ?_, fun hpending => ?_⟩
  · intro u hu
    obtain ⟨i, hi⟩ := mem_iff_getElem?.mp hu
    rw [getElem?_dropLast] at hi
    obtain ⟨hless, hi⟩ := ite_none_right_eq_some.mp hi
    by_contra hlive
    have hlast := (hasked i u hi (Bool.not_eq_true _ ▸ hlive)).1
    dsimp only at *
    omega
  · exact hwithin.imp_left fun h => by omega
  · simp only [Pending, not_or, not_exists, not_and, not_not] at hpending
    obtain ⟨rfl, hpublishers, hvalues⟩ := hpending
    change Ends false complete selfRef source.ended (values.map ended) signals at hended
    cases hended with
    | between xs hopen _ => exact absurd hopen (hpublishers fun h => by cases hasks.symm.trans h)
    | inside before xs _ hends =>
      left
      have hlive : false ∈ values.map ended := by
        rw [hends]
        exact mem_append_right before mem_cons_self
      obtain ⟨u, hu, hu'⟩ := mem_map.mp hlive
      obtain ⟨i, hi⟩ := mem_iff_getElem?.mp hu
      have hrequested : u.demand = requested := (hasked i u hi hu').2
      have hzero : requested = 0 := by
        by_contra hsome
        exact hvalues u hu (hrequested ▸ hsome) hu'
      have hpassed : toBe = 0 := by
        by_contra hsome
        cases hdrained hsome
      rw [hzero, hpassed] at howed
      exact howed.resolve_right (by simp)
    | completed xs hover hends =>
      right
      refine ⟨?_, hover, fun u hu => hends _ (mem_map_of_mem hu)⟩
      rw [delivered, Signal.items_append_complete, Signal.items_map_next]

/-- The second publisher comes inside of `Request` on the first one, which asks for an element that is left. -/
theorem concatMap_keeps_demand_of_two :
    ∃ s : ConcatMap Empty Nat Nat, (s.signals = [.next 7, .next 8, .complete] ∧ s.asked = 2) ∧ s.Concatenates := by
  have hrun : runIf (next fun x => .ok x) inTurn {} [.publishers (.next 0), .returns, .returns, .request ⟨2, by decide⟩,
      .values 0 (.next 7), .values 0 .complete, .publishers (.next 1), .returns, .values 1 (.next 8),
      .values 1 .complete, .publishers .complete, .returns, .returns] = some (_ : ConcatMap Empty Nat Nat) := rfl
  exact ⟨_, ⟨rfl, rfl⟩, concatMap_keeps_demand hrun⟩

/-- An element is requested before there is a values publisher to request it of. -/
theorem concatMap_loses_demand :
    ∃ s : ConcatMap Empty Nat Nat, [.request ⟨1, by decide⟩, .publishers (.next 0), .returns, .returns].foldlM
        (next fun x => .ok x) {} = some s ∧ s.signals = [] ∧ ¬ s.Concatenates := by
  refine ⟨_, rfl, rfl, fun h => ?_⟩
  refine (h.all ?_).elim (by decide) fun hcompleted => nomatch hcompleted.1
  rintro (hstack | ⟨hdemand, -⟩ | ⟨u, hu, hdemand, -⟩)
  · exact hstack rfl
  · exact hdemand rfl
  · obtain rfl := mem_singleton.mp hu
    exact hdemand rfl

end ConcatMap
end Shuriken.Rs
