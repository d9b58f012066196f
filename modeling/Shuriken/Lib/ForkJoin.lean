import Mathlib.Data.Fintype.BigOperators
import Shuriken.Lib.Except

/-!
# Fork and join

Threads that share numbered jobs by an atomic counter: each takes the next number
until there is no job with it. When all threads have been joined every job was
done exactly once, whichever way the threads were scheduled.
-/
namespace ForkJoin
open Option Function List

inductive Worker where
  /-- About to increment the counter. -/
  | asking
  | holds (job : Nat)
  | done
  deriving DecidableEq

structure State (k : Nat) (σ : Type) where
  next : Nat := 0
  workers : Fin k → Worker := fun _ => .asking
  shared : σ
  /-- The jobs that were done and by whom, in order. -/
  processed : List (Fin k × Nat) := []

section
variable {k : Nat} {σ : Type} (jobs : Nat) (work : Fin k → Nat → σ → σ)

namespace State

def take (st : State k σ) (i : Fin k) : State k σ := { st with
    next := st.next + 1
    workers := update st.workers i (if st.next < jobs then .holds st.next else .done) }

def finish (st : State k σ) (i : Fin k) (job : Nat) : State k σ := { st with
    workers := update st.workers i .asking
    shared := work i job st.shared
    processed := st.processed ++ [(i, job)] }

def step (st : State k σ) (i : Fin k) : Option (State k σ) :=
  match st.workers i with
  | .asking => some (st.take jobs i)
  | .holds job => some (st.finish work i job)
  | .done => none

def run (st : State k σ) (schedule : List (Fin k)) : Option (State k σ) := schedule.foldlM (step jobs work) st

def Joined (st : State k σ) : Prop := ∀ i, st.workers i = .done

instance (st : State k σ) : Decidable st.Joined := inferInstanceAs (Decidable (∀ i, st.workers i = .done))

end State

/-- What the threads leave when they have been joined, for a schedule that ends them all. -/
def outcome (schedule : List (Fin k)) (s : σ) : Option σ :=
  ((State.mk 0 (fun _ => .asking) s []).run jobs work schedule).bind fun st =>
    if st.Joined then some st.shared else none

/-- Each number that was given out is held by one thread or was processed once. -/
structure State.Inv (s : σ) (st : State k σ) : Prop where
  shared : st.shared = st.processed.foldl (fun s p => work p.1 p.2 s) s
  processed : ∀ t ∈ st.processed.map Prod.snd, t < jobs ∧ t < st.next
  nodup : (st.processed.map Prod.snd).Nodup
  held : ∀ i t, st.workers i = .holds t → t < jobs ∧ t < st.next ∧ t ∉ st.processed.map Prod.snd
  unique : ∀ i j t, st.workers i = .holds t → st.workers j = .holds t → i = j
  covered : ∀ t < st.next, t < jobs → t ∈ st.processed.map Prod.snd ∨ ∃ i, st.workers i = .holds t
  done : ∀ i, st.workers i = .done → jobs ≤ st.next

variable {jobs work}

namespace State
variable {s : σ} {st st' : State k σ} {i : Fin k}

theorem Inv.initial : (State.mk 0 (fun _ => .asking) s [] : State k σ).Inv jobs work s where
  shared := rfl
  processed := nofun
  nodup := nodup_nil
  held _ _ h := nomatch h
  unique _ _ _ h := nomatch h
  covered t h := absurd h (Nat.not_lt_zero t)
  done _ h := nomatch h

theorem workers_take (st : State k σ) (i j : Fin k) :
    (st.take jobs i).workers j = if j = i then (if st.next < jobs then .holds st.next else .done) else st.workers j :=
  update_apply ..

theorem Inv.take (h : st.Inv jobs work s) (hi : st.workers i = .asking) : (st.take jobs i).Inv jobs work s where
  shared := h.shared
  processed t ht := ⟨(h.processed t ht).1, Nat.lt_succ_of_lt (h.processed t ht).2⟩
  nodup := h.nodup
  held j t hj := by
    rw [workers_take] at hj
    split at hj
    · split at hj
      · next hlt =>
        obtain rfl := Worker.holds.inj hj
        exact ⟨hlt, Nat.lt_succ_self _, fun hmem => absurd (h.processed _ hmem).2 (lt_irrefl _)⟩
      · nomatch hj
    · obtain ⟨hlt, hnext, hnew⟩ := h.held j t hj
      exact ⟨hlt, Nat.lt_succ_of_lt hnext, hnew⟩
  unique j₁ j₂ t h₁ h₂ := by
    have hfresh : ∀ j, st.workers j ≠ .holds st.next := fun j hj =>
      absurd (h.held j _ hj).2.1 (lt_irrefl _)
    rw [workers_take] at h₁ h₂
    split at h₁ <;> split at h₂
    · next h₁' h₂' => exact h₁'.trans h₂'.symm
    · split at h₁
      · exact absurd (Worker.holds.inj h₁ ▸ h₂) (hfresh j₂)
      · nomatch h₁
    · split at h₂
      · exact absurd (Worker.holds.inj h₂ ▸ h₁) (hfresh j₁)
      · nomatch h₂
    · exact h.unique j₁ j₂ t h₁ h₂
  covered t ht hjobs := by
    rcases Nat.lt_succ_iff_lt_or_eq.mp ht with hlt | rfl
    · refine (h.covered t hlt hjobs).imp_right fun ⟨j, hj⟩ => ⟨j, ?_⟩
      have hne : j ≠ i := by
        rintro rfl
        nomatch hi.symm.trans hj
      rw [workers_take, if_neg hne, hj]
    · exact .inr ⟨i, by rw [workers_take, if_pos rfl, if_pos hjobs]⟩
  done j hj := by
    rw [workers_take] at hj
    split at hj
    · split at hj
      · nomatch hj
      · next hge => exact (Nat.le_of_not_lt hge).trans (Nat.le_succ _)
    · exact (h.done j hj).trans (Nat.le_succ _)

theorem workers_finish (st : State k σ) (i j : Fin k) (job : Nat) :
    (st.finish work i job).workers j = if j = i then .asking else st.workers j :=
  update_apply ..

theorem Inv.finish {job : Nat} (h : st.Inv jobs work s) (hi : st.workers i = .holds job) :
    (st.finish work i job).Inv jobs work s := by
  obtain ⟨hjob, hnext, hnew⟩ := h.held i job hi
  have hmem : ∀ t, t ∈ (st.finish work i job).processed.map Prod.snd ↔ t ∈ st.processed.map Prod.snd ∨ t = job := by
    simp [State.finish, or_comm]
  have hworkers : ∀ j t, (st.finish work i job).workers j = .holds t ↔ j ≠ i ∧ st.workers j = .holds t := by
    intro j t
    rw [workers_finish]
    split
    · next hj => exact iff_of_false nofun fun h => h.1 hj
    · next hj => exact (and_iff_right hj).symm
  refine ⟨?_, fun t ht => ?_, ?_, fun j t hj => ?_, fun j₁ j₂ t h₁ h₂ => ?_, fun t ht hlt => ?_, fun j hj => ?_⟩
  · rw [State.finish, foldl_append, ← h.shared]
    rfl
  · rcases (hmem t).mp ht with hold | rfl
    · exact h.processed t hold
    · exact ⟨hjob, hnext⟩
  · rw [State.finish, map_append]
    refine nodup_append.mpr ⟨h.nodup, nodup_singleton _, fun t ht t' ht' heq => hnew ?_⟩
    obtain rfl : t' = job := mem_singleton.mp ht'
    exact heq ▸ ht
  · obtain ⟨hne, hj⟩ := (hworkers j t).mp hj
    obtain ⟨hlt, hbelow, hnot⟩ := h.held j t hj
    refine ⟨hlt, hbelow, fun ht => ((hmem t).mp ht).elim hnot fun heq => ?_⟩
    exact hne (h.unique j i t hj (heq ▸ hi))
  · exact h.unique j₁ j₂ t ((hworkers j₁ t).mp h₁).2 ((hworkers j₂ t).mp h₂).2
  · rcases h.covered t ht hlt with hold | ⟨j, hj⟩
    · exact .inl ((hmem t).mpr (.inl hold))
    · by_cases hji : j = i
      · exact .inl ((hmem t).mpr (.inr (Worker.holds.inj (hj.symm.trans (hji ▸ hi)))))
      · exact .inr ⟨j, (hworkers j t).mpr ⟨hji, hj⟩⟩
  · rw [workers_finish] at hj
    split at hj
    · nomatch hj
    · exact h.done j hj

theorem Inv.step (h : st.Inv jobs work s) (hstep : st.step jobs work i = some st') : st'.Inv jobs work s := by
  rw [State.step] at hstep
  split at hstep
  · next hi => exact some.inj hstep ▸ h.take hi
  · next hi => exact some.inj hstep ▸ h.finish hi
  · nomatch hstep

theorem Inv.perm (h : st.Inv jobs work s) (hjoined : st.Joined) (hk : 0 < k) :
    (st.processed.map Prod.snd).Perm (range jobs) := by
  refine (perm_ext_iff_of_nodup h.nodup nodup_range).mpr fun t => ?_
  rw [mem_range]
  refine ⟨fun ht => (h.processed t ht).1, fun ht => ?_⟩
  have hnext := h.done ⟨0, hk⟩ (hjoined ⟨0, hk⟩)
  rcases h.covered t (ht.trans_le hnext) ht with hmem | ⟨i, hi⟩
  · exact hmem
  · nomatch (hjoined i).symm.trans hi

end State

/-- What the threads leave is what the jobs leave when they are done one after the other, each
once, in some order. -/
theorem outcome_eq_some {schedule : List (Fin k)} {s s' : σ} (hk : 0 < k) (h : outcome jobs work schedule s = some s') :
    ∃ processed : List (Fin k × Nat), (processed.map Prod.snd).Perm (range jobs) ∧
      s' = processed.foldl (fun s p => work p.1 p.2 s) s := by
  rw [outcome] at h
  obtain ⟨st, hrun, h⟩ := bind_eq_some_iff.mp h
  split at h
  · next hjoined =>
    have hinv : st.Inv jobs work s := foldlM_invariant (fun _ _ _ _ hstep h => h.step hstep) .initial hrun
    exact ⟨st.processed, hinv.perm hjoined hk, (some.inj h).symm.trans hinv.shared⟩
  · nomatch h

theorem exists_processed_iff {α : Type} {xs : List α} {processed : List (Fin k × Nat)}
    (hperm : (processed.map Prod.snd).Perm (range xs.length)) {p : α → Prop} :
    (∃ q ∈ processed, ∃ x, xs[q.2]? = some x ∧ p x) ↔ ∃ x ∈ xs, p x := by
  constructor
  · rintro ⟨q, -, x, hx, hp⟩
    exact ⟨x, mem_of_getElem? hx, hp⟩
  · rintro ⟨x, hmem, hp⟩
    obtain ⟨t, hlt, rfl⟩ := mem_iff_getElem.mp hmem
    obtain ⟨q, hq, rfl⟩ := mem_map.mp (hperm.mem_iff.mpr (mem_range.mpr hlt))
    exact ⟨q, hq, _, getElem?_eq_getElem hlt, hp⟩

def Worker.steps : Worker → Nat
  | .asking => 1
  | .holds _ => 2
  | .done => 0

@[simp] theorem Worker.steps_asking : Worker.asking.steps = 1 := rfl

@[simp] theorem Worker.steps_holds (job : Nat) : (Worker.holds job).steps = 2 := rfl

@[simp] theorem Worker.steps_done : Worker.done.steps = 0 := rfl

def State.remaining (jobs : Nat) (st : State k σ) : Nat := ∑ i, (st.workers i).steps + 2 * (jobs - st.next)

namespace State
variable {st st' : State k σ} {i : Fin k}

theorem sum_steps_update (workers : Fin k → Worker) (i : Fin k) (worker : Worker) :
    ∑ j, (update workers i worker j).steps + (workers i).steps = ∑ j, (workers j).steps + worker.steps := by
  rw [← Finset.add_sum_erase _ _ (Finset.mem_univ i), ← Finset.add_sum_erase _ _ (Finset.mem_univ i),
    update_self, Finset.sum_congr rfl fun j hj =>
      congrArg Worker.steps (update_of_ne (Finset.ne_of_mem_erase hj) worker workers)]
  omega

theorem remaining_step (hstep : st.step jobs work i = some st') : st'.remaining jobs + 1 = st.remaining jobs := by
  rw [State.step] at hstep
  split at hstep
  · next hi =>
    cases hstep
    by_cases hlt : st.next < jobs
    · have hsum := sum_steps_update st.workers i (.holds st.next)
      rw [hi, Worker.steps_asking, Worker.steps_holds] at hsum
      simp only [remaining, State.take, if_pos hlt]
      omega
    · have hsum := sum_steps_update st.workers i .done
      rw [hi, Worker.steps_asking, Worker.steps_done] at hsum
      simp only [remaining, State.take, if_neg hlt]
      omega
  · next job hi =>
    cases hstep
    have hsum := sum_steps_update st.workers i .asking
    rw [hi, Worker.steps_asking, Worker.steps_holds] at hsum
    simp only [remaining, State.finish]
    omega
  · nomatch hstep

end State

theorem exists_joined (st : State k σ) : ∃ schedule st', st.run jobs work schedule = some st' ∧ st'.Joined := by
  by_cases hjoined : st.Joined
  · exact ⟨[], st, rfl, hjoined⟩
  · obtain ⟨i, hi⟩ := not_forall.mp hjoined
    obtain ⟨st₁, hstep⟩ : ∃ st₁, st.step jobs work i = some st₁ := by
      rw [State.step]
      cases hworker : st.workers i with
      | asking | holds => exact ⟨_, rfl⟩
      | done => exact absurd hworker hi
    have hdecreases := State.remaining_step hstep
    obtain ⟨schedule, st', hrun, hjoined'⟩ := exists_joined st₁
    refine ⟨i :: schedule, st', ?_, hjoined'⟩
    rw [State.run, foldlM_cons, hstep]
    exact hrun
termination_by st.remaining jobs
decreasing_by omega

theorem outcome_total (s : σ) : ∃ schedule s', outcome jobs work schedule s = some s' := by
  obtain ⟨schedule, st, hrun, hjoined⟩ := @exists_joined k σ jobs work (State.mk 0 (fun _ => .asking) s [])
  exact ⟨schedule, st.shared, by rw [outcome, hrun, bind_some, if_pos hjoined]⟩

end
end ForkJoin
