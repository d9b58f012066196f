import Shuriken.Rs.Merge
import Mathlib.Data.Fintype.Card

/-!
# What a merged stream still owes

Streams that emit the elements of finite lists and then complete are merged. When nothing is going on any
more, either all that was requested has been delivered, or all elements have been.
-/
namespace Shuriken.Rs
open Option Function List

theorem flatMap_update_perm {ι α : Type*} [DecidableEq ι] {l : List ι} (hl : l.Nodup) {i : ι} (hi : i ∈ l)
    (f : ι → List α) (a : α) : (l.flatMap (update f i (f i ++ [a]))).Perm (l.flatMap f ++ [a]) := by
  induction l with
  | nil => nomatch hi
  | cons j l ih =>
    obtain ⟨hj, hl⟩ := nodup_cons.mp hl
    rw [flatMap_cons, flatMap_cons, append_assoc]
    rcases mem_cons.mp hi with rfl | hi
    · have hrest : l.flatMap (update f i (f i ++ [a])) = l.flatMap f := by
        refine flatMap_congr fun k hk => update_of_ne ?_ _ _
        rintro rfl
        exact hj hk
      rw [update_self, hrest, append_assoc]
      exact perm_append_comm.append_left _
    · have hne : j ≠ i := by
        rintro rfl
        exact hj hi
      rw [update_of_ne hne]
      exact (ih hl hi).append_left _

namespace Merging
variable {n : Nat} {ε α : Type*} {s s' : Merging n ε α} {lists : Fin n → List α}

def InsideOnNext (s : Merging n ε α) : Prop := s.stack.head? = some .delivering ∨ s.stack.head? = some .draining

/-- Each stream emits a list and completes. The subscriber requests elements at first, and then
inside of `OnNext`. -/
def Feeds (lists : Fin n → List α) (s : Merging n ε α) : MergeEvent n ε α → Prop
  | .request count => count ≠ 0 ∧ (s.requested = 0 ∨ s.InsideOnNext)
  | .cancel => False
  | .next i element => (s.sources i).emitted ++ [element] <+: lists i
  | .error _ _ => False
  | .complete i => (s.sources i).emitted = lists i
  | .returns => True

instance [DecidableEq α] (s : Merging n ε α) : (event : MergeEvent n ε α) → Decidable (s.Feeds lists event)
  | .request _ => inferInstanceAs (Decidable (_ ∧ (_ ∨ (_ ∨ _))))
  | .next _ _ => inferInstanceAs (Decidable (_ <+: _))
  | .complete _ => inferInstanceAs (Decidable (_ = _))
  | .cancel | .error _ _ => isFalse id
  | .returns => isTrue trivial

/-- No call has to return, and no stream owes anything. -/
def Idle (s : Merging n ε α) : Prop := s.stack = [] ∧ ∀ i, ¬ (s.sources i).Owes

instance (s : Merging n ε α) : Decidable s.Idle := inferInstanceAs (Decidable (_ ∧ ∀ _, ¬ _))

def AllDelivered (lists : Fin n → List α) (s : Merging n ε α) : Prop :=
  s.delivered.Perm ((finRange n).flatMap lists) ∧ .complete ∈ s.signals

/-- A request is made outside of other requests, when all that was requested before has been delivered
and nothing is in the buffer, or when the demand is unbounded already. -/
def FindsNothingLeft (s : Merging n ε α) : MergeEvent n ε α → Prop
  | .request _ =>
    s.merge.outstanding = .unbounded ∨
      s.merge.requestedElementsBeingProcessed = 0 ∧ s.merge.outstanding = 0 ∧ s.merge.buffer = []
  | _ => True

instance (s : Merging n ε α) : (event : MergeEvent n ε α) → Decidable (s.FindsNothingLeft event)
  | .request _ => inferInstanceAs (Decidable (_ ∨ (_ ∧ _ ∧ _)))
  | .cancel | .next _ _ | .error _ _ | .complete _ | .returns => isTrue trivial

structure Accounts (lists : Fin n → List α) (s : Merging n ε α) : Prop where
  demand : ∀ i, (s.sources i).ended = false → (s.sources i).demand = s.merge.subscriptions i
  counted : s.merge.finished = true ∨ s.merge.outstanding = .unbounded ∨
    s.delivered.length + s.merge.outstanding.count = s.requested
  buffered : s.merge.buffer ≠ [] → s.merge.outstanding = 0
  elements : (s.delivered ++ s.merge.buffer).Perm ((finRange n).flatMap fun i => (s.sources i).emitted)
  ended : ∀ i, (s.sources i).ended = true → (s.sources i).emitted = lists i
  remaining : s.merge.remainingSubscriptions = (Finset.univ.filter fun i => (s.sources i).ended = false).card

/-- What does not depend on the calls that have not returned -/
structure Settles (lists : Fin n → List α) (s : Merging n ε α) : Prop extends Accounts lists s where
  finishes : s.merge.remainingSubscriptions = 0 → s.merge.buffer = [] → s.merge.finished = true
  finished : s.merge.finished = true → s.merge.remainingSubscriptions = 0 ∧ s.merge.buffer = [] ∧ .complete ∈ s.signals

/-- A stream that has not ended owes all that is outstanding, or it is going to be asked for that. -/
def Covered (s : Merging n ε α) (rest : List (Fin n)) : Prop := ∀ i, (s.sources i).ended = false →
    s.merge.outstanding.count ≤ (s.merge.subscriptions i).count ∨
      s.merge.outstanding.count ≤ s.merge.requestedElementsBeingProcessed.count ∧ i ∈ rest

def loops (stack : List (MergeFrame n)) : List (List (Fin n)) := stack.filterMap fun
    | .requesting rest => some rest
    | _ => none

/-- There is at most one loop. -/
structure Kept (lists : Fin n → List α) (s : Merging n ε α) : Prop extends Settles lists s where
  direct : .draining ∉ s.stack
  covered : s.merge.requestedElementsBeingProcessed = 0 ∧ loops s.stack = [] ∧ s.Covered [] ∨
    s.merge.requestedElementsBeingProcessed ≠ 0 ∧ ∃ rest, loops s.stack = [rest] ∧ s.Covered rest

namespace Accounts

theorem remaining_eq_zero_iff (h : Accounts lists s) :
    s.merge.remainingSubscriptions = 0 ↔ ∀ i, (s.sources i).ended = true := by
  rw [h.remaining, Finset.card_eq_zero, Finset.filter_eq_empty_iff]
  simp

theorem start : Accounts lists ({} : Merging n ε α) where
  demand _ _ := rfl
  counted := .inr (.inr rfl)
  buffered := nofun
  elements := by
    change ([] : List α).Perm _
    simp
  ended := nofun
  remaining := by simp

theorem maybeSendOnComplete (h : Accounts lists s) (hfinished : s.merge.finished = false) :
    Settles lists s.maybeSendOnComplete := by
  rcases maybeSendOnComplete_cases s with ⟨-, hremaining, hbuffer, hsend⟩ | ⟨hfinishes, hsend⟩
  · rw [hsend]
    refine ⟨⟨h.demand, .inl rfl, h.buffered, ?_, h.ended, h.remaining⟩, fun _ _ => rfl, fun _ => ?_⟩
    · rw [sendOnComplete, delivered_send_complete]
      exact h.elements
    · exact ⟨hremaining, hbuffer, mem_append_right _ (mem_singleton_self _)⟩
  · rw [hsend]
    exact ⟨h, hfinishes, fun h => absurd (hfinished.symm.trans h) Bool.false_ne_true⟩

theorem requestFrom (h : Accounts lists s) (i : Fin n) (rest : List (Fin n)) :
    Accounts lists (s.requestFrom i rest) := by
  have hended : ∀ j, ((s.requestFrom i rest).sources j).ended = (s.sources j).ended := by
    intro j
    by_cases hj : j = i
    · subst hj
      simp [Merging.requestFrom]
    · simp [Merging.requestFrom, hj]
  have hemitted : ∀ j, ((s.requestFrom i rest).sources j).emitted = (s.sources j).emitted := by
    intro j
    by_cases hj : j = i
    · subst hj
      simp [Merging.requestFrom]
    · simp [Merging.requestFrom, hj]
  refine ⟨fun j hj => ?_, h.counted, h.buffered, ?_, fun j => ?_, ?_⟩
  · rw [hended] at hj
    by_cases hji : j = i
    · subst hji
      simp [Merging.requestFrom, MergeSource.request, hj, h.demand j hj]
    · simp [Merging.requestFrom, hji, h.demand j hj]
  · simp only [hemitted]
    exact h.elements
  · rw [hended, hemitted]
    exact h.ended j
  · simp only [hended]
    exact h.remaining

end Accounts

namespace Settles

theorem finished_eq_false (h : Settles lists s) {i : Fin n} (hi : (s.sources i).ended = false) :
    s.merge.finished = false := by
  refine Bool.eq_false_of_not_eq_true fun hfinished => ?_
  exact Bool.false_ne_true (hi.symm.trans (h.remaining_eq_zero_iff.mp (h.finished hfinished).1 i))

theorem subscribe : Settles lists (Merging.subscribe n : Merging n ε α) := by
  rw [Merging.subscribe]
  split
  · next hn =>
    subst hn
    exact Accounts.start.maybeSendOnComplete rfl
  · next hn => exact ⟨.start, fun h => absurd h hn, nofun⟩

section
variable (h : Settles lists s)
include h

theorem setStack (stack : List (MergeFrame n)) : Settles lists { s with stack } :=
  ⟨⟨h.demand, h.counted, h.buffered, h.elements, h.ended, h.remaining⟩, h.finishes, h.finished⟩

theorem requestFrom (i : Fin n) (rest : List (Fin n)) : Settles lists (s.requestFrom i rest) :=
  ⟨h.toAccounts.requestFrom i rest, h.finishes, h.finished⟩

theorem endRequest_eq : s.endRequest = { s with merge.requestedElementsBeingProcessed := 0 } := by
  rcases maybeSendOnComplete_cases { s with merge.requestedElementsBeingProcessed := 0 } with
    ⟨hfinished, hremaining, hbuffer, -⟩ | ⟨-, hsend⟩
  · exact absurd (hfinished.symm.trans (h.finishes hremaining hbuffer)) Bool.false_ne_true
  · exact hsend

theorem allDelivered (hfinished : s.merge.finished = true) : s.AllDelivered lists := by
  obtain ⟨hremaining, hbuffer, hcomplete⟩ := h.finished hfinished
  have hended := h.remaining_eq_zero_iff.mp hremaining
  have helements := h.elements
  rw [hbuffer, append_nil, flatMap_congr fun i _ => h.ended i (hended i)] at helements
  exact ⟨helements, hcomplete⟩

theorem buffer_eq_nil (hpos : s.merge.outstanding ≠ 0) : s.merge.buffer = [] := by
  by_contra hbuffer
  exact hpos (h.buffered hbuffer)

end

end Settles

theorem Covered.skip {skipped rest : List (Fin n)} (h : s.Covered (skipped ++ rest))
    (hskipped : ∀ i ∈ skipped, s.toRequest i = 0) : s.Covered rest := by
  intro i hi
  rcases h i hi with hcovered | ⟨hle, hmem⟩
  · exact .inl hcovered
  · rcases mem_append.mp hmem with hmem | hmem
    · exact .inl (hle.trans (Demand.count_le_of_sub_eq_zero (hskipped i hmem)))
    · exact .inr ⟨hle, hmem⟩

theorem Covered.requestFrom {i : Fin n} {rest : List (Fin n)} (h : s.Covered (i :: rest)) :
    (s.requestFrom i rest).Covered rest := by
  intro j hj
  by_cases hji : j = i
  · subst hji
    have hended : (s.sources j).ended = false := by simpa [Merging.requestFrom] using hj
    left
    have hraise := Demand.le_count_add_sub (s.merge.subscriptions j) s.merge.requestedElementsBeingProcessed
    have hadd := Demand.count_add (s.merge.subscriptions j) (s.toRequest j)
    have htop := (s.merge.subscriptions j).le_top
    simp only [Merging.requestFrom, update_self]
    rcases h j hended with hcovered | ⟨hle, -⟩
    · omega
    · exact hle.trans hraise
  · have hended : (s.sources j).ended = false := by simpa [Merging.requestFrom, hji] using hj
    rcases h j hended with hcovered | ⟨hle, hmem⟩
    · left
      simpa [Merging.requestFrom, hji] using hcovered
    · exact .inr ⟨hle, mem_of_ne_of_mem hji hmem⟩

theorem Settles.requestLoop (h : Settles lists s) (hdirect : .draining ∉ s.stack)
    (hbeing : s.merge.requestedElementsBeingProcessed ≠ 0) (hloops : loops s.stack = []) {sources : List (Fin n)}
    (hcovered : s.Covered sources) : Kept lists (s.requestLoop sources) := by
  rcases requestLoop_cases s sources with ⟨hnone, hloop⟩ | ⟨skipped, i, rest, rfl, hskipped, hloop⟩
  · rw [hloop, h.endRequest_eq]
    have hall : s.Covered [] := Covered.skip (by rwa [append_nil]) hnone
    refine ⟨⟨⟨h.demand, h.counted, h.buffered, h.elements, h.ended, h.remaining⟩, h.finishes, h.finished⟩, hdirect,
      .inl ⟨rfl, hloops, fun i hi => .inl ?_⟩⟩
    exact (hall i hi).resolve_right fun hmem => nomatch hmem.2
  · rw [hloop]
    refine ⟨h.requestFrom i rest, fun hmem => hdirect (mem_of_ne_of_mem (by simp) hmem), .inr ⟨hbeing, rest, ?_, ?_⟩⟩
    · exact congrArg (rest :: ·) hloops
    · exact (hcovered.skip hskipped).requestFrom

theorem drainLoop_of_buffer_eq_nil (hbeing : s.merge.requestedElementsBeingProcessed ≠ 0)
    (hbuffer : s.merge.buffer = []) : s.drainLoop = s.requestLoop (finRange n) := by
  rw [drainLoop, if_neg hbeing, hbuffer]

namespace Kept

theorem covered_imp {t : Merging n ε α} (h : Kept lists s)
    (hbeing : t.merge.requestedElementsBeingProcessed = s.merge.requestedElementsBeingProcessed)
    (hloops : loops t.stack = loops s.stack) (hcovered : ∀ rest, s.Covered rest → t.Covered rest) :
    t.merge.requestedElementsBeingProcessed = 0 ∧ loops t.stack = [] ∧ t.Covered [] ∨
      t.merge.requestedElementsBeingProcessed ≠ 0 ∧ ∃ rest, loops t.stack = [rest] ∧ t.Covered rest := by
  rw [hbeing, hloops]
  refine h.covered.imp ?_ ?_
  · rintro ⟨hidle, hnone, hcov⟩
    exact ⟨hidle, hnone, hcovered [] hcov⟩
  · rintro ⟨hrunning, rest, hrest, hcov⟩
    exact ⟨hrunning, rest, hrest, hcovered rest hcov⟩

theorem subscribe : Kept lists (Merging.subscribe n : Merging n ε α) := by
  refine ⟨.subscribe, ?_, .inl ?_⟩
  · rw [Merging.subscribe]
    split <;> nofun
  · rw [Merging.subscribe]
    split
    · exact ⟨rfl, rfl, fun _ _ => .inl (Nat.zero_le _)⟩
    · exact ⟨rfl, rfl, fun _ _ => .inl (Nat.zero_le _)⟩

theorem addRequest (h : Kept lists s) (hunbounded : s.merge.outstanding = .unbounded)
    (hnested : s.merge.requestedElementsBeingProcessed ≠ 0) (count : Count) : Kept lists (s.addRequest count) := by
  obtain ⟨-, rest, hloops, hcovered⟩ := h.covered.resolve_left fun hidle => hnested hidle.1
  have hle : s.merge.requestedElementsBeingProcessed.count ≤
      (s.addRequest count).merge.requestedElementsBeingProcessed.count := by
    have := s.merge.requestedElementsBeingProcessed.le_top
    rw [Merging.addRequest, Demand.count_add]
    omega
  refine ⟨⟨⟨h.demand, .inr (.inl hunbounded), h.buffered, h.elements, h.ended, h.remaining⟩, h.finishes, h.finished⟩,
    h.direct, .inr ⟨fun hzero => hnested ?_, rest, hloops, fun i hi => ?_⟩⟩
  · rw [Demand.eq_zero_iff] at hzero ⊢
    omega
  · exact (hcovered i hi).imp_right fun hpending => ⟨hpending.1.trans hle, hpending.2⟩

variable {count : Count} {source : MergeSource α}

section
variable (h : Kept lists s)
include h

theorem beginRequest (hfinished : s.merge.finished = false)
    (hidle : s.merge.requestedElementsBeingProcessed = 0) (hcount : count ≠ 0)
    (hfinds : s.FindsNothingLeft (.request count)) : Kept lists (s.beginRequest count).drainLoop := by
  obtain ⟨-, hloops, hcovered⟩ := h.covered.resolve_right fun hrunning => hrunning.1 hidle
  have hle := count.le_top
  have hbeing : (s.beginRequest count).merge.requestedElementsBeingProcessed.count = count.count := by
    simp only [Merging.beginRequest, Merging.addRequest, hidle, Demand.count_add, Demand.count_zero]
    omega
  have hsum : (s.beginRequest count).merge.outstanding.count =
      min (s.merge.outstanding.count + count.count) (2 ^ 63 - 1) := by
    rw [← hbeing]
    exact Demand.count_add _ _
  have hpositive : (s.beginRequest count).merge.requestedElementsBeingProcessed ≠ 0 := by
    rw [ne_eq, Demand.eq_zero_iff] at hcount ⊢
    omega
  have hbuffer : s.merge.buffer = [] := by
    rcases hfinds with hunbounded | ⟨-, -, hbuffer⟩
    · exact h.buffer_eq_nil (by rw [hunbounded]; decide)
    · exact hbuffer
  have hcounted : (s.beginRequest count).merge.outstanding = .unbounded ∨
      s.delivered.length + (s.beginRequest count).merge.outstanding.count = s.requested + count.count := by
    have hcounted := h.counted.resolve_left (Bool.not_eq_true _ ▸ hfinished)
    rw [FindsNothingLeft] at hfinds
    rw [Demand.eq_unbounded_iff] at hcounted hfinds ⊢
    rw [Demand.eq_zero_iff, Demand.eq_zero_iff] at hfinds
    omega
  have hpending : (s.beginRequest count).Covered (finRange n) := by
    intro i hi
    have hsubscription : (s.beginRequest count).merge.subscriptions i = s.merge.subscriptions i := rfl
    have hcovered := (hcovered i hi).resolve_right fun hmem => nomatch hmem.2
    rw [FindsNothingLeft, Demand.eq_unbounded_iff, Demand.eq_zero_iff, Demand.eq_zero_iff] at hfinds
    rw [hsubscription, hbeing, hsum]
    refine Or.imp_right (fun hle => ⟨hle, mem_finRange i⟩) ?_
    omega
  have hsettles : Settles lists (s.beginRequest count) :=
    ⟨⟨h.demand, .inr hcounted, fun hne => absurd hbuffer hne, h.elements, h.ended, h.remaining⟩, h.finishes, h.finished⟩
  rw [drainLoop_of_buffer_eq_nil hpositive hbuffer]
  exact hsettles.requestLoop h.direct hpositive hloops hpending

theorem request (hcount : count ≠ 0) (hfinds : s.FindsNothingLeft (.request count)) : Kept lists (s.request count) := by
  rw [Merging.request]
  split
  · next hfinished =>
    exact ⟨⟨⟨h.demand, .inl hfinished, h.buffered, h.elements, h.ended, h.remaining⟩, h.finishes, h.finished⟩,
      h.direct, h.covered⟩
  · next hfinished =>
    simp only
    split
    · next hnested => exact h.addRequest (hfinds.resolve_right fun hidle => hnested hidle.1) hnested count
    · next hnested =>
      exact h.beginRequest (Bool.eq_false_of_not_eq_true hfinished) (not_not.mp hnested) hcount hfinds

/-- A stream emits an element. -/
theorem emit {i : Fin n} {element : α} (hemit : (s.sources i).emit element = some source) :
    Kept lists ((s.setSource i source).onInnerSubscriptionNext i element) := by
  rw [MergeSource.emit, ite_none_left_eq_some, not_or, Bool.not_eq_true, some.injEq] at hemit
  obtain ⟨⟨hunended, hdemand⟩, rfl⟩ := hemit
  have hfinished : s.merge.finished = false := h.finished_eq_false hunended
  rw [h.demand i hunended] at hdemand
  set source : MergeSource α :=
    { s.sources i with demand := (s.sources i).demand.pred, emitted := (s.sources i).emitted ++ [element] } with hsource
  have hended : ∀ j, (update s.sources i source j).ended = (s.sources j).ended := by
    intro j
    by_cases hj : j = i
    · subst hj
      simp [hsource]
    · simp [hj]
  have hdemands : ∀ j, (update s.sources i source j).ended = false → (update s.sources i source j).demand =
        update s.merge.subscriptions i (s.merge.subscriptions i).pred j := by
    intro j hj
    rw [hended] at hj
    by_cases hji : j = i
    · subst hji
      simp [hsource, h.demand j hj]
    · simp [hji, h.demand j hj]
  have hemitted : ((finRange n).flatMap fun j => (update s.sources i source j).emitted).Perm
      (s.delivered ++ s.merge.buffer ++ [element]) := by
    have hupdate : (fun j => (update s.sources i source j).emitted) =
        update (fun j => (s.sources j).emitted) i ((s.sources i).emitted ++ [element]) := by
      funext j
      exact apply_update (fun _ source => source.emitted) s.sources i source j
    rw [hupdate]
    exact (flatMap_update_perm (nodup_finRange n) (mem_finRange i) _ element).trans
      (h.elements.symm.append_right [element])
  have hlists : ∀ j, (update s.sources i source j).ended = true → (update s.sources i source j).emitted = lists j := by
    intro j hj
    have hji : j ≠ i := by
      rintro rfl
      rw [hended, hunended] at hj
      nomatch hj
    rw [update_of_ne hji] at hj ⊢
    exact h.ended j hj
  have hremaining : s.merge.remainingSubscriptions =
      (Finset.univ.filter fun j => (update s.sources i source j).ended = false).card := by
    simp only [hended]
    exact h.remaining
  have hgoing : s.merge.remainingSubscriptions ≠ 0 := by
    intro hzero
    exact Bool.false_ne_true (hunended.symm.trans (h.remaining_eq_zero_iff.mp hzero i))
  rw [onInnerSubscriptionNext, setSource_merge, if_neg (Bool.not_eq_true _ ▸ hfinished), if_neg hdemand]
  split
  · next hzero =>
    refine ⟨⟨⟨hdemands, h.counted, fun _ => hzero, ?_, hlists, hremaining⟩, fun hnone => absurd hnone hgoing,
      fun hdone => absurd (hfinished.symm.trans hdone) Bool.false_ne_true⟩, h.direct, h.covered_imp rfl rfl ?_⟩
    · exact (append_assoc _ _ _ ▸ hemitted).symm
    · intro rest _ j _
      exact .inl (Demand.eq_zero_iff.mp hzero ▸ Nat.zero_le _)
  · next hpositive =>
    have hbuffer : s.merge.buffer = [] := h.buffer_eq_nil hpositive
    refine ⟨⟨⟨hdemands, .inr ?_, fun hne => absurd hbuffer hne, ?_, hlists, hremaining⟩,
      fun hnone => absurd hnone hgoing, fun hdone => absurd (hfinished.symm.trans hdone) Bool.false_ne_true⟩,
      fun hmem => h.direct (mem_of_ne_of_mem (by simp) hmem), h.covered_imp rfl rfl ?_⟩
    · have hcounted := h.counted.resolve_left (Bool.not_eq_true _ ▸ hfinished)
      have hpred := Demand.count_pred s.merge.outstanding
      rw [Demand.eq_zero_iff] at hpositive
      rw [Demand.eq_unbounded_iff] at hcounted ⊢
      rw [deliver, delivered_send_next, length_append, length_singleton]
      change s.merge.outstanding.pred.count = _ ∨ s.delivered.length + 1 + s.merge.outstanding.pred.count = s.requested
      split at hpred <;> omega
    · rw [deliver, delivered_send_next]
      rw [hbuffer, append_nil] at hemitted
      change (s.delivered ++ [element] ++ s.merge.buffer).Perm _
      rw [hbuffer, append_nil]
      exact hemitted.symm
    · intro rest hcovered j hj
      have hle := Demand.count_pred_le s.merge.outstanding
      refine (hcovered j ((hended j).symm.trans hj)).imp ?_ fun hpending => ⟨hle.trans hpending.1, hpending.2⟩
      intro hcov
      change s.merge.outstanding.pred.count ≤ (update s.merge.subscriptions i (s.merge.subscriptions i).pred j).count
      by_cases hji : j = i
      · subst hji
        rw [update_self]
        exact Demand.pred_le_pred hcov
      · rw [update_of_ne hji]
        exact hle.trans hcov

/-- A stream completes. -/
theorem complete {i : Fin n} (hall : (s.sources i).emitted = lists i)
    (hfinish : (s.sources i).finish = some source) : Kept lists (s.setSource i source).onInnerSubscriptionComplete := by
  obtain ⟨hended, rfl⟩ := MergeSource.finish_eq_some.mp hfinish
  have hemitted : ∀ j, (update s.sources i { s.sources i with ended := true } j).emitted = (s.sources j).emitted := by
    intro j
    by_cases hj : j = i
    · subst hj
      simp
    · simp [hj]
  have hother : ∀ j, (update s.sources i { s.sources i with ended := true } j).ended = false ↔
      j ≠ i ∧ (s.sources j).ended = false := by
    intro j
    by_cases hj : j = i
    · subst hj
      simp
    · simp [hj]
  have haccounts : Accounts lists (s.setSource i { s.sources i with ended := true }).decrementRemaining := by
    refine ⟨fun j hj => ?_, h.counted, h.buffered, ?_, fun j hj => ?_, ?_⟩
    · obtain ⟨hji, hj⟩ := (hother j).mp hj
      simp only [decrementRemaining, setSource, update_of_ne hji]
      exact h.demand j hj
    · simp only [decrementRemaining, setSource, hemitted]
      exact h.elements
    · simp only [decrementRemaining, setSource, hemitted]
      by_cases hji : j = i
      · exact hji ▸ hall
      · exact h.ended j (by simpa [decrementRemaining, setSource, hji] using hj)
    · have hfilter : (Finset.univ.filter fun j => j ≠ i ∧ (s.sources j).ended = false) =
          (Finset.univ.filter fun j => (s.sources j).ended = false).erase i := by
        ext j
        simp
      simp only [decrementRemaining, setSource, hother]
      rw [hfilter, Finset.card_erase_of_mem (by simpa using hended), h.remaining]
  have hcovered : ∀ rest, s.Covered rest →
      (s.setSource i { s.sources i with ended := true }).decrementRemaining.Covered rest := by
    intro rest hcovered j hj
    exact hcovered j ((hother j).mp hj).2
  have hsettles := haccounts.maybeSendOnComplete (h.finished_eq_false hended)
  rw [onInnerSubscriptionComplete]
  rcases maybeSendOnComplete_cases (s.setSource i { s.sources i with ended := true }).decrementRemaining with
    ⟨-, -, -, hsend⟩ | ⟨-, hsend⟩
  · rw [hsend] at hsettles ⊢
    exact ⟨hsettles, h.direct, h.covered_imp rfl rfl hcovered⟩
  · rw [hsend] at hsettles ⊢
    exact ⟨hsettles, h.direct, h.covered_imp rfl rfl hcovered⟩

theorem returnCall (hreturn : s.returnCall = some s') : Kept lists s' := by
  rw [Merging.returnCall] at hreturn
  split at hreturn
  · nomatch hreturn
  · next stack hstack => exact absurd (hstack ▸ mem_cons_self) h.direct
  · next rest stack hstack =>
    cases hreturn
    have hcovered := h.covered
    rw [hstack] at hcovered
    obtain ⟨hbeing, _, hloops, hcovered⟩ := hcovered.resolve_left fun hidle => nomatch hidle.2.1
    obtain ⟨rfl, hnone⟩ := cons.inj hloops
    refine (h.setStack stack).requestLoop (fun hmem => ?_) hbeing hnone hcovered
    exact h.direct (hstack ▸ mem_cons_of_mem _ hmem)
  · next stack hstack =>
    cases hreturn
    have hcovered := h.covered
    rw [hstack] at hcovered
    refine ⟨h.setStack stack, fun hmem => ?_, hcovered⟩
    exact h.direct (hstack ▸ mem_cons_of_mem _ hmem)

theorem next {event : MergeEvent n ε α} (hfeeds : s.Feeds lists event)
    (hfinds : s.FindsNothingLeft event) (hnext : s.next event = some s') : Kept lists s' := by
  cases event with
  | request count =>
    cases hnext
    exact h.request hfeeds.1 hfinds
  | cancel => exact hfeeds.elim
  | next i element =>
    obtain ⟨source, hemit, rfl⟩ := map_eq_some_iff.mp hnext
    exact h.emit hemit
  | error i e => exact hfeeds.elim
  | complete i =>
    obtain ⟨source, hfinish, rfl⟩ := map_eq_some_iff.mp hnext
    exact h.complete hfeeds hfinish
  | returns => exact h.returnCall hnext

end

end Kept

/-- Streams that emit finite lists are merged: when nothing is going on any more, all that was requested
has been delivered, or all elements have been and the end has been told. Requests are to be made when
nothing is left of earlier ones. -/
theorem merge_loses_no_demand (hreaches : Reaches (fun s event => s.Feeds lists event ∧ s.FindsNothingLeft event) s)
    (hidle : s.Idle) : s.delivered.length = s.requested ∨ s.AllDelivered lists := by
  have h : Kept lists s := hreaches.invariant .subscribe fun hallowed hnext h => h.next hallowed.1 hallowed.2 hnext
  have hcovered : s.Covered [] := by
    rcases h.covered with ⟨-, -, hcovered⟩ | ⟨-, rest, hloops, -⟩
    · exact hcovered
    · rw [hidle.1] at hloops
      nomatch hloops
  have hzero : ∀ i, (s.sources i).ended = false → s.merge.outstanding = 0 := by
    intro i hi
    have hle := (hcovered i hi).resolve_right fun hmem => nomatch hmem.2
    have hdemand : (s.sources i).demand = 0 := not_not.mp fun hne => hidle.2 i ⟨hi, hne⟩
    rw [← h.demand i hi, hdemand] at hle
    exact Demand.eq_zero_iff.mpr (Nat.le_zero.mp hle)
  by_cases hfinished : s.merge.finished = true
  · exact .inr (h.allDelivered hfinished)
  · by_cases houtstanding : s.merge.outstanding = 0
    · have hcounted := h.counted.resolve_left hfinished
      rw [houtstanding] at hcounted
      exact .inl (hcounted.resolve_left (by decide))
    · -- all streams have ended, and nothing is buffered
      have hremaining : s.merge.remainingSubscriptions = 0 := h.remaining_eq_zero_iff.mpr fun i =>
        Bool.eq_true_of_not_eq_false fun hi => houtstanding (hzero i hi)
      exact absurd (h.finishes hremaining (h.buffer_eq_nil houtstanding)) hfinished

/-- Two streams of one element each, which they emit when they have been asked for it. The subscriber
requests the next element inside of `OnNext`. -/
theorem merge_loses_no_demand_of_two : ∃ s : Merging 2 Empty Nat,
      (Reaches (fun s event => s.Feeds (fun i => [i.val]) event ∧ s.FindsNothingLeft event) s ∧ s.Idle ∧
        s.delivered = [0, 1] ∧ s.requested = 3) ∧
      (s.delivered.length = s.requested ∨ s.AllDelivered fun i => [i.val]) := by
  have hrun : ((subscribe 2).run (fun s event => s.Feeds (fun i => [i.val]) event ∧ s.FindsNothingLeft event)
      [.request ⟨1, by decide⟩, .returns, .returns, .next 0 0, .request ⟨1, by decide⟩, .returns, .returns, .complete 0,
        .next 1 1, .request ⟨1, by decide⟩, .returns, .returns, .complete 1]).map
        (fun s : Merging 2 Empty Nat => (decide s.Idle, s.delivered, s.requested)) = some (true, [0, 1], 3) := by
    decide
  obtain ⟨s, hs, hstate⟩ := map_eq_some_iff.mp hrun
  simp only [Prod.mk.injEq, decide_eq_true_eq] at hstate
  have hreaches := reaches_of_run hs
  exact ⟨s, ⟨hreaches, hstate⟩, merge_loses_no_demand hreaches hstate.1⟩

/-- A stream emits as soon as it is asked. What is requested inside of `OnNext` is never requested of it. -/
theorem merge_loses_request :
    ∃ s : Merging 1 Empty Nat, Reaches (Feeds fun _ => [1, 2]) s ∧ s.Idle ∧ s.signals = [.next 1] ∧
      s.requested = 2 := by
  have hrun : ((subscribe 1).run (Feeds fun _ => [1, 2])
      [.request ⟨1, by decide⟩, .next 0 1, .request ⟨1, by decide⟩, .returns, .returns]).map
        (fun s : Merging 1 Empty Nat => (decide s.Idle, s.signals, s.requested)) = some (true, [.next 1], 2) := by
    decide
  obtain ⟨s, hs, hstate⟩ := map_eq_some_iff.mp hrun
  simp only [Prod.mk.injEq, decide_eq_true_eq] at hstate
  exact ⟨s, reaches_of_run hs, hstate⟩

end Merging
end Shuriken.Rs
