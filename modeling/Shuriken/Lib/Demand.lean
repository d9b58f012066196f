/-!
# Demand

How many elements may be sent: a number up to a top, which stands for any number.
What is added to the top or taken from it is not counted.
-/

structure Demand (top : Nat) where
  count : Nat
  le_top : count ≤ top
  deriving DecidableEq

namespace Demand
variable {top : Nat} {a b : Demand top}

@[ext] theorem ext (h : a.count = b.count) : a = b := by
  cases a
  cases b
  congr

def unbounded : Demand top := ⟨top, Nat.le_refl top⟩

instance : Zero (Demand top) := ⟨⟨0, Nat.zero_le top⟩⟩

instance : Add (Demand top) := ⟨fun a b => if h : a.count + b.count ≤ top then ⟨a.count + b.count, h⟩ else unbounded⟩

/-- What is missing in `b`, if anything. -/
instance : Sub (Demand top) :=
  ⟨fun a b => if a = unbounded then unbounded else ⟨a.count - b.count, Nat.le_trans (Nat.sub_le _ _) a.le_top⟩⟩

def pred (a : Demand top) : Demand top :=
  if a = unbounded then unbounded else ⟨a.count - 1, Nat.le_trans (Nat.sub_le _ _) a.le_top⟩

@[simp] theorem count_unbounded : (unbounded : Demand top).count = top := rfl

@[simp] theorem count_zero : (0 : Demand top).count = 0 := rfl

theorem eq_unbounded_iff : a = unbounded ↔ a.count = top := ⟨fun h => h ▸ rfl, fun h => ext h⟩

theorem eq_zero_iff : a = 0 ↔ a.count = 0 := ⟨fun h => h ▸ rfl, fun h => ext h⟩

theorem count_add (a b : Demand top) : (a + b).count = min (a.count + b.count) top := by
  change (dite _ _ _ : Demand top).count = _
  split
  · next h => exact (Nat.min_eq_left h).symm
  · next h => exact (Nat.min_eq_right (Nat.le_of_not_le h)).symm

theorem zero_add (a : Demand top) : 0 + a = a := by
  ext
  rw [count_add, count_zero, Nat.zero_add, Nat.min_eq_left a.le_top]

theorem count_sub (a b : Demand top) : (a - b).count = if a.count = top then top else a.count - b.count := by
  change (ite _ _ _ : Demand top).count = _
  simp only [eq_unbounded_iff]
  split <;> rfl

theorem count_pred (a : Demand top) : a.pred.count = if a.count = top then top else a.count - 1 := by
  rw [pred]
  simp only [eq_unbounded_iff]
  split <;> rfl

theorem count_pred_le (a : Demand top) : a.pred.count ≤ a.count := by
  rw [count_pred]
  split
  · next h => exact Nat.le_of_eq h.symm
  · exact Nat.sub_le _ _

theorem pred_add_one {one : Demand top} (hone : one.count = 1) (ha : a ≠ 0) : a.pred + one = a := by
  have hle := a.le_top
  rw [Ne, eq_zero_iff] at ha
  ext
  rw [count_add, count_pred, hone]
  split <;> omega

theorem pred_le_pred (h : a.count ≤ b.count) : a.pred.count ≤ b.pred.count := by
  have ha := a.le_top
  have hb := b.le_top
  rw [count_pred, count_pred]
  split <;> split <;> omega

theorem le_count_add_sub (a b : Demand top) : b.count ≤ (a + (b - a)).count := by
  have ha := a.le_top
  have hb := b.le_top
  rw [count_add, count_sub]
  split <;> omega

theorem count_le_of_sub_eq_zero (h : b - a = 0) : b.count ≤ a.count := by
  rw [eq_zero_iff, count_sub] at h
  split at h <;> omega

/-- What was sent and what may still be sent make up what was requested, as far as that is counted. -/
structure Accounts (a : Demand top) (sent requested : Nat) : Prop where
  within : sent + a.count ≤ requested ∨ top ≤ requested
  owed : requested ≤ sent + a.count ∨ a = unbounded

namespace Accounts
variable {sent requested : Nat}

theorem zero : (0 : Demand top).Accounts 0 0 := ⟨.inl (Nat.le_refl 0), .inl (Nat.le_refl 0)⟩

section
variable (h : a.Accounts sent requested)
include h

theorem sent_le : sent ≤ requested ∨ top ≤ requested :=
  h.within.imp (Nat.le_trans (Nat.le_add_right _ _)) id

theorem add (b : Demand top) : (a + b).Accounts sent (requested + b.count) := by
  have hle := a.le_top
  obtain ⟨hwithin, howed⟩ := h
  rw [eq_unbounded_iff] at howed
  constructor
  · rw [count_add]
    omega
  · rw [eq_unbounded_iff, count_add]
    omega

theorem pred (ha : a ≠ 0) : a.pred.Accounts (sent + 1) requested := by
  have hle := a.le_top
  have hpred := count_pred a
  obtain ⟨hwithin, howed⟩ := h
  rw [Ne, eq_zero_iff] at ha
  rw [eq_unbounded_iff] at howed
  constructor
  · split at hpred <;> omega
  · rw [eq_unbounded_iff]
    split at hpred <;> omega

end

end Accounts
end Demand
