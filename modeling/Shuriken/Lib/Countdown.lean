import Mathlib.Data.Fintype.EquivFin

/-!
# Counting down to readiness

A scheduler that keeps for each task the number of tasks it still waits for.
-/
namespace Countdown
open Function List

variable {ι : Type*} [DecidableEq ι]

/-- Counts down for each task of the list in turn, and notes those that come to zero. It fails
when a counter is zero already. -/
def countdown : List ι → (ι → Nat) → Option ((ι → Nat) × List ι)
  | [], counter => some (counter, [])
  | i :: waiting, counter =>
    if counter i = 0 then none
    else
      (countdown waiting (update counter i (counter i - 1))).map fun result =>
        (result.1, if counter i = 1 then i :: result.2 else result.2)

theorem countdown_spec {waiting : List ι} {counter : ι → Nat} (h : ∀ i, waiting.count i ≤ counter i) :
    ∃ ready, countdown waiting counter = some (fun i => counter i - waiting.count i, ready) ∧
      ready.Nodup ∧ ∀ i, i ∈ ready ↔ i ∈ waiting ∧ counter i = waiting.count i := by
  induction waiting generalizing counter with
  | nil => exact ⟨[], rfl, nodup_nil, by simp⟩
  | cons i waiting ih =>
    have hi : waiting.count i + 1 ≤ counter i := by simpa only [count_cons_self] using h i
    have hcount : ∀ j, j ≠ i → (i :: waiting).count j = waiting.count j := fun j hj => count_cons_of_ne hj.symm
    have hrest : ∀ j, waiting.count j ≤ update counter i (counter i - 1) j := by
      intro j
      by_cases hj : j = i
      · subst hj
        rw [update_self]
        omega
      · rw [update_of_ne hj, ← hcount j hj]
        exact h j
    obtain ⟨ready, hready, hnodup, hmem⟩ := ih hrest
    have hcounter : (fun j => update counter i (counter i - 1) j - waiting.count j) =
        fun j => counter j - (i :: waiting).count j := by
      funext j
      by_cases hj : j = i
      · subst hj
        rw [update_self, count_cons_self]
        omega
      · rw [update_of_ne hj, hcount j hj]
    have hself : i ∈ ready ↔ i ∈ waiting ∧ counter i = waiting.count i + 1 := by
      rw [hmem, update_self]
      exact and_congr_right fun _ => by omega
    have hother : ∀ j, j ≠ i → (j ∈ ready ↔ j ∈ waiting ∧ counter j = waiting.count j) := by
      intro j hj
      rw [hmem, update_of_ne hj]
    refine ⟨if counter i = 1 then i :: ready else ready, ?_, ?_, fun j => ?_⟩
    · rw [countdown, if_neg (by omega), hready, Option.map_some, hcounter]
    · split
      · -- a counter that was one does not occur in the rest
        refine nodup_cons.mpr ⟨fun hi' => ?_, hnodup⟩
        obtain ⟨hin, heq⟩ := hself.mp hi'
        have := count_pos_iff.mpr hin
        omega
      · exact hnodup
    · by_cases hj : j = i
      · subst hj
        rw [count_cons_self]
        split
        · simp only [mem_cons, true_or, true_and, true_iff]
          omega
        · rw [hself]
          refine ⟨fun ⟨hin, heq⟩ => ⟨mem_cons_of_mem _ hin, heq⟩, fun ⟨_, heq⟩ => ⟨?_, heq⟩⟩
          exact count_pos_iff.mp (by omega)
      · rw [hcount j hj]
        split
        · rw [mem_cons, mem_cons, hother j hj]
          simp only [hj, false_or]
        · rw [mem_cons, hother j hj]
          simp only [hj, false_or]

/-- The number of tasks, with multiplicity, that a task waits for. -/
def pending (edges : ι → List ι) (done : List ι) (i : ι) : Nat := (edges i).countP (· ∉ done)

theorem pending_nil (edges : ι → List ι) (i : ι) : pending edges [] i = (edges i).length := by
  rw [pending, countP_eq_length]
  exact fun _ _ => by simp

variable {done : List ι}

theorem pending_eq_zero {edges : ι → List ι} {i : ι} : pending edges done i = 0 ↔ ∀ j ∈ edges i, j ∈ done := by
  simp [pending, countP_eq_zero]

theorem pending_concat (edges : ι → List ι) {s : ι} (hs : s ∉ done) (i : ι) :
    pending edges (done ++ [s]) i + (edges i).count s = pending edges done i := by
  unfold pending
  induction edges i with
  | nil => rfl
  | cons j js ih =>
    simp only [mem_append, mem_singleton] at ih ⊢
    by_cases hj : j = s
    · subst hj
      simp only [countP_cons, count_cons_self, or_true, not_true_eq_false, decide_false,
        Bool.false_eq_true, if_false, hs, not_false_eq_true, decide_true, if_true]
      omega
    · simp only [countP_cons, count_cons_of_ne hj, hj, or_false]
      omega

omit [DecidableEq ι] in
/-- In a finite graph without cycles, a property that passes from the targets of the edges of a
task to the task holds for all tasks. -/
theorem forall_of_acyclic [Finite ι] {edge : ι → ι → Prop} (hacyclic : ∀ i, ¬ Relation.TransGen edge i i)
    {p : ι → Prop} (hstep : ∀ i, (∀ j, edge i j → p j) → p i) (i : ι) : p i := by
  have htrans : IsTrans ι (swap (Relation.TransGen edge)) := ⟨fun _ _ _ hab hbc => hbc.trans hab⟩
  have hirrefl : Std.Irrefl (swap (Relation.TransGen edge)) := ⟨hacyclic⟩
  have hwf : WellFounded (swap (Relation.TransGen edge)) := Finite.wellFounded_of_trans_of_irrefl _
  induction i using hwf.induction with
  | _ i ih => exact hstep i fun j hj => ih j (.single hj)

end Countdown
