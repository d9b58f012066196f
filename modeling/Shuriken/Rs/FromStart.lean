import Shuriken.Rs.Filter

/-!
# Streams of given values

`rs/from.h` and `rs/start.h`. A call of `Request` that finds another one under way
leaves the elements to that one.
-/
namespace Shuriken.Rs
open Option List

/-- `FromSubscription` and `StartSubscription` -/
inductive Creator where
  | ofFrom
  | ofStart
  deriving DecidableEq

inductive Call where
  | onNext
  | onComplete
  deriving DecidableEq

structure Creating (α : Type*) where
  /-- What `it_` or `at_` has not passed -/
  rest : List α
  /-- Whether `Cancel` has been called, which `StartSubscription` does not keep. -/
  cancelled : Bool := false
  outstanding : Count := 0
  /-- The calls of the subscriber that have not returned, the last one first -/
  calls : List Call := []
  requested : Nat := 0
  signals : List (Signal Empty α) := []

namespace Creating
variable {α : Type*}

def delivered (s : Creating α) : List α := Signal.items s.signals

def send (s : Creating α) (call : Call) (signal : Signal Empty α) : Creating α :=
  { s with calls := call :: s.calls, signals := s.signals ++ [signal] }

def loop (creator : Creator) (s : Creating α) : Creating α :=
  if creator = .ofFrom ∧ s.cancelled = true ∨ s.outstanding = 0 then s
  else
    match s.rest with
    | [] => s
    | a :: rest => { s with rest }.send .onNext (.next a)

def request (creator : Creator) (s : Creating α) (count : Count) : Creating α :=
  let s' := { s with outstanding := s.outstanding + count, requested := s.requested + count.count }
  if s.outstanding = 0 then s'.loop creator else s'

def cancel (creator : Creator) (s : Creating α) : Creating α :=
  { s with cancelled := true, rest := if creator = .ofFrom then s.rest else [] }

/-- What follows the call. After `OnComplete` a count of zero is decremented, which nothing depends on. -/
def afterCall (creator : Creator) (s : Creating α) : Call → Creating α
  | .onNext =>
    match s.rest with
    | [] => { s with outstanding := if creator = Creator.ofFrom then 0 else s.outstanding }.send .onComplete .complete
    | _ :: _ => { s with outstanding := s.outstanding.pred }.loop creator
  | .onComplete => { s with outstanding := s.outstanding.pred }.loop creator

def build (values : List α) : Creating α := { rest := values, signals := if values.isEmpty then [.complete] else [] }

def next (creator : Creator) (s : Creating α) : OperatorEvent Empty α → Option (Creating α)
  | .request count => some (s.request creator count)
  | .cancel => some (s.cancel creator)
  | .signal _ => none
  | .returns =>
    match s.calls with
    | [] => none
    | call :: calls => some ({ s with calls }.afterCall creator call)

structure Truthful (values : List α) (s : Creating α) : Prop where
  first : s.delivered <+: values
  within : s.delivered.length ≤ s.requested ∨ 2 ^ 63 - 1 ≤ s.requested
  all : s.calls = [] → s.cancelled = false → min values.length s.requested ≤ s.delivered.length
  nested : s.calls.length ≤ 1
  completes : .onNext ∉ s.calls → s.delivered = values → .complete ∈ s.signals
  once : .complete ∈ s.signals → s.signals = values.map .next ++ [.complete]

/-- `Start` is not cancelled inside of `OnNext` with an element that is not the last one. -/
def finishes (creator : Creator) (s : Creating α) : OperatorEvent Empty α → Bool
  | .cancel => creator = .ofFrom || s.rest.isEmpty || .onNext ∉ s.calls
  | _ => true

inductive Emits (values : List α) (creator : Creator) :
    List α → Bool → Count → List Call → Nat → List (Signal Empty α) → Prop where
  | waiting {rest requested} (xs : List α) : xs ++ rest = values → rest ≠ [] →
    (0 : Count).Accounts xs.length requested → Emits values creator rest false 0 [] requested (xs.map .next)
  | cancelled {rest outstanding requested} (xs : List α) : xs <+: values → xs ≠ values →
    creator = .ofFrom ∨ rest = [] → xs.length ≤ requested ∨ 2 ^ 63 - 1 ≤ requested →
    Emits values creator rest true outstanding [] requested (xs.map .next)
  | emitting {rest cancelled} {outstanding : Count} {requested} (xs : List α) (a : α) : xs ++ a :: rest = values →
    (cancelled = true → creator = .ofFrom ∨ rest = []) → outstanding ≠ 0 → outstanding.Accounts xs.length requested →
    Emits values creator rest cancelled outstanding [.onNext] requested ((xs ++ [a]).map .next)
  | completed {cancelled outstanding calls requested} : calls = [] ∨ calls = [.onComplete] →
    values.length ≤ requested ∨ 2 ^ 63 - 1 ≤ requested →
    Emits values creator [] cancelled outstanding calls requested (values.map .next ++ [.complete])

def Emitted (values : List α) (creator : Creator) (s : Creating α) : Prop :=
  Emits values creator s.rest s.cancelled s.outstanding s.calls s.requested s.signals

variable {values rest : List α} {creator : Creator} {s s' : Creating α} {cancelled : Bool} {requested : Nat}
  {outstanding : Count}

theorem emitted_build (values : List α) (creator : Creator) : Emitted values creator (build values) := by
  cases values with
  | nil => exact .completed (.inl rfl) (.inl (Nat.le_refl 0))
  | cons a values => exact .waiting [] rfl (cons_ne_nil a values) .zero

theorem loop_eq_self (h : s.cancelled = true ∧ creator = .ofFrom ∨ s.rest = []) : s.loop creator = s := by
  rw [loop]
  rcases h with ⟨hcancelled, hcreator⟩ | hrest
  · rw [if_pos (.inl ⟨hcreator, hcancelled⟩)]
  · rw [hrest]
    exact ite_self s

theorem emitted_loop {xs : List α} (hxs : xs ++ rest = values) (hrest : rest ≠ [])
    (hcancelled : cancelled = true → creator = .ofFrom) (haccounts : outstanding.Accounts xs.length requested) :
    Emitted values creator (loop creator ⟨rest, cancelled, outstanding, [], requested, xs.map .next⟩) := by
  obtain ⟨a, rest, rfl⟩ := exists_cons_of_ne_nil hrest
  cases cancelled with
  | true =>
    have hne : xs ≠ values := by
      rw [← hxs]
      simp
    rw [loop_eq_self (.inl ⟨rfl, hcancelled rfl⟩)]
    exact .cancelled xs (hxs ▸ prefix_append _ _) hne (.inl (hcancelled rfl)) haccounts.sent_le
  | false =>
    rw [loop]
    by_cases hnone : outstanding = 0
    · obtain rfl := hnone
      rw [if_pos (.inr rfl)]
      exact .waiting xs hxs hrest haccounts
    · have hemitting : Emits values creator rest false outstanding [.onNext] requested ((xs ++ [a]).map .next) :=
        .emitting xs a hxs nofun hnone haccounts
      rw [if_neg (by simpa using hnone)]
      rwa [map_append] at hemitting

namespace Emitted

section
variable (h : Emitted values creator s)
include h

theorem request (count : Count) : Emitted values creator (s.request creator count) := by
  obtain ⟨rest, cancelled, outstanding, calls, requested, signals⟩ := s
  change Emits values creator rest cancelled outstanding calls requested signals at h
  have hmore {k : Nat} (hk : k ≤ requested ∨ 2 ^ 63 - 1 ≤ requested) :
      k ≤ requested + count.count ∨ 2 ^ 63 - 1 ≤ requested + count.count := by
    omega
  cases h with
  | waiting xs hxs hrest haccounts =>
    rw [Creating.request, if_pos rfl]
    exact emitted_loop hxs hrest nofun (haccounts.add count)
  | cancelled xs hfirst hne hstop hwithin =>
    rw [Creating.request, loop_eq_self (hstop.imp_left fun h => ⟨rfl, h⟩), ite_self]
    exact .cancelled xs hfirst hne hstop (hmore hwithin)
  | emitting xs a hxs hstop hsome haccounts =>
    rw [Creating.request, if_neg hsome]
    refine .emitting xs a hxs hstop ?_ (haccounts.add count)
    rw [Ne, Demand.eq_zero_iff] at hsome ⊢
    simp only [Demand.count_add]
    omega
  | completed hcalls hwithin =>
    rw [Creating.request, loop_eq_self (.inr rfl), ite_self]
    exact .completed hcalls (hmore hwithin)

theorem cancel (hfinishes : s.finishes creator .cancel = true) : Emitted values creator (s.cancel creator) := by
  obtain ⟨rest, cancelled, outstanding, calls, requested, signals⟩ := s
  change Emits values creator rest cancelled outstanding calls requested signals at h
  change Emits values creator (if creator = .ofFrom then rest else []) true outstanding calls requested signals
  have hstop : creator = .ofFrom ∨ (if creator = .ofFrom then rest else []) = [] := by
    by_cases hfrom : creator = .ofFrom
    · exact .inl hfrom
    · exact .inr (if_neg hfrom)
  cases h with
  | waiting xs hxs hrest haccounts =>
    have hne : xs ≠ values := fun h => hrest (self_eq_append_right.mp (h.trans hxs.symm))
    exact .cancelled xs (hxs ▸ prefix_append _ _) hne hstop haccounts.sent_le
  | cancelled xs hfirst hne _ hwithin => exact .cancelled xs hfirst hne hstop hwithin
  | emitting xs a hxs _ hsome haccounts =>
    have hrest : creator = .ofFrom ∨ rest = [] := by simpa [finishes] using hfinishes
    have hkept : (if creator = .ofFrom then rest else []) = rest :=
      hrest.elim (fun hfrom => if_pos hfrom) fun hnil => hnil ▸ ite_self rest
    rw [hkept]
    exact .emitting xs a hxs (fun _ => hrest) hsome haccounts
  | completed hcalls hwithin =>
    rw [ite_self]
    exact .completed hcalls hwithin

theorem returns (hnext : s.next creator .returns = some s') : Emitted values creator s' := by
  obtain ⟨rest, cancelled, outstanding, calls, requested, signals⟩ := s
  change Emits values creator rest cancelled outstanding calls requested signals at h
  cases h with
  | waiting | cancelled => nomatch hnext
  | emitting xs a hxs hstop hsome haccounts =>
    cases hnext
    have hpred : outstanding.pred.Accounts (xs ++ [a]).length requested := by
      rw [length_append]
      exact haccounts.pred hsome
    cases rest with
    | nil =>
      obtain rfl := hxs
      exact .completed (.inr rfl) hpred.sent_le
    | cons b rest =>
      refine emitted_loop (by simpa using hxs) (cons_ne_nil b rest) (fun hcancelled => ?_) hpred
      exact (hstop hcancelled).resolve_right (cons_ne_nil b rest)
  | completed hcalls hwithin =>
    rcases hcalls with rfl | rfl
    · nomatch hnext
    · cases hnext
      rw [afterCall, loop_eq_self (.inr rfl)]
      exact .completed (.inl rfl) hwithin

theorem next {event : OperatorEvent Empty α}
    (hfinishes : s.finishes creator event = true) (hnext : s.next creator event = some s') :
    Emitted values creator s' := by
  cases event with
  | request count =>
    cases hnext
    exact h.request count
  | cancel =>
    cases hnext
    exact h.cancel hfinishes
  | signal signal => nomatch hnext
  | returns => exact h.returns hnext

theorem truthful : s.Truthful values := by
  obtain ⟨rest, cancelled, outstanding, calls, requested, signals⟩ := s
  change Emits values creator rest cancelled outstanding calls requested signals at h
  cases h with
  | waiting xs hxs hrest haccounts =>
    obtain rfl := hxs
    have howed : requested ≤ xs.length := haccounts.owed.resolve_right nofun
    constructor <;> simp [delivered, hrest]
    · exact haccounts.sent_le
    · omega
  | cancelled xs hfirst hne hstop hwithin =>
    constructor <;> simp [delivered, hne]
    · exact hfirst
    · exact hwithin
  | emitting xs a hxs hstop hsome haccounts =>
    obtain rfl := hxs
    constructor <;> simp [delivered]
    · simpa using (haccounts.pred hsome).sent_le
  | completed hcalls hwithin =>
    have hnested : calls.length ≤ 1 := by
      rcases hcalls with rfl | rfl
      · exact Nat.zero_le 1
      · exact Nat.le_refl 1
    have hall : Signal.items (values.map .next ++ [.complete] : List (Signal Empty α)) = values := by simp
    refine ⟨⟨[], (append_nil _).trans hall⟩, ?_, fun _ _ => ?_, hnested, fun _ _ => mem_concat_self, fun _ => rfl⟩
    · rw [delivered, hall]
      exact hwithin
    · rw [delivered, hall]
      exact Nat.min_le_left _ _

end

end Emitted

/-- A demand of `2 ^ 63 - 1` or more is unbounded. -/
theorem values_delivered {events : List (OperatorEvent Empty α)}
    (hrun : runIf (next creator) (finishes creator) (build values) events = some s) : s.Truthful values := by
  have hemitted : Emitted values creator s :=
    runIf_invariant (fun hfinishes hnext h => h.next hfinishes hnext) (emitted_build values creator) hrun
  exact hemitted.truthful

/-- The second element is requested inside of `OnNext` with the first one, and `Start` is cancelled inside of
`OnNext` with the last one. -/
theorem values_delivered_of_nested :
    ∃ s : Creating Nat, (s.signals = [.next 1, .next 2, .complete] ∧ s.calls = []) ∧ s.Truthful [1, 2] := by
  have hrun : runIf (next .ofStart) (finishes .ofStart) (build [1, 2]) [.request ⟨1, by decide⟩,
      .request ⟨1, by decide⟩, .returns, .cancel, .returns, .returns] = some (_ : Creating Nat) := rfl
  exact ⟨_, ⟨rfl, rfl⟩, values_delivered hrun⟩

/-- `Start` is cancelled inside of `OnNext` with the first element. -/
theorem start_completes_early :
    ∃ s : Creating Nat, [.request ⟨2, by decide⟩, .cancel, .returns, .returns].foldlM (next .ofStart) (build [1, 2]) =
        some s ∧ s.signals = [.next 1, .complete] ∧ ¬ s.Truthful [1, 2] :=
  ⟨_, rfl, rfl, fun h => nomatch h.once (mem_cons_of_mem _ mem_cons_self)⟩

end Creating
end Shuriken.Rs
