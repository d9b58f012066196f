/-!
# Binary search

The loop of a lower bound search over the positions of a list. In a list in
which the elements to skip come first, it ends at the first element that is not
to be skipped.
-/
namespace LowerBound

section
variable {α : Type} (before : α → Bool) (xs : List α)

/-- The search among `len` elements from the position `first` on. Each round leaves fewer elements,
and the first argument bounds the rounds. -/
def search : Nat → Nat → Nat → Nat
  | 0, first, _ => first
  | rounds + 1, first, len =>
    if len = 0 then first
    else
      let half := len / 2
      match xs[first + half]? with
      | none => first
      | some x =>
        if before x then search rounds (first + half + 1) (len - half - 1) else search rounds first half

def lowerBound : Nat := search before xs xs.length 0 xs.length

end

section
variable {α : Type} {before : α → Bool} {xs : List α}

/-- The elements up to a position are skipped, and those from the position on are not. -/
structure Splits (before : α → Bool) (xs : List α) (first len : Nat) : Prop where
  bound : first + len ≤ xs.length
  low : ∀ i x, i < first → xs[i]? = some x → before x = true
  high : ∀ i x, first + len ≤ i → xs[i]? = some x → before x = false

theorem Splits.skip {first len half : Nat} {x : α} (h : Splits before xs first len)
    (hsorted : xs.Pairwise fun x y => before y = true → before x = true) (hhalf : half < len)
    (hx : xs[first + half]? = some x) (hbefore : before x = true) :
    Splits before xs (first + half + 1) (len - half - 1) := by
  refine ⟨by have := h.bound; omega, fun i y hi hy => ?_, fun i y hi => h.high i y (by omega)⟩
  rcases Nat.lt_or_eq_of_le (Nat.le_of_lt_succ hi) with hlt | rfl
  · obtain ⟨hil, rfl⟩ := List.getElem?_eq_some_iff.mp hy
    obtain ⟨hxl, rfl⟩ := List.getElem?_eq_some_iff.mp hx
    exact List.pairwise_iff_getElem.mp hsorted i (first + half) hil hxl hlt hbefore
  · rw [hx] at hy
    exact Option.some.inj hy ▸ hbefore

theorem Splits.stop {first len half : Nat} {x : α} (h : Splits before xs first len)
    (hsorted : xs.Pairwise fun x y => before y = true → before x = true) (hhalf : half < len)
    (hx : xs[first + half]? = some x) (hbefore : before x = false) : Splits before xs first half := by
  refine ⟨by have := h.bound; omega, h.low, fun i y hi hy => ?_⟩
  rcases Nat.lt_or_eq_of_le hi with hlt | rfl
  · obtain ⟨hil, rfl⟩ := List.getElem?_eq_some_iff.mp hy
    obtain ⟨hxl, rfl⟩ := List.getElem?_eq_some_iff.mp hx
    refine Bool.eq_false_iff.mpr fun hy => ?_
    exact Bool.eq_false_iff.mp hbefore (List.pairwise_iff_getElem.mp hsorted (first + half) i hxl hil hlt hy)
  · rw [hx] at hy
    exact Option.some.inj hy ▸ hbefore

theorem search_splits (hsorted : xs.Pairwise fun x y => before y = true → before x = true)
    {rounds first len : Nat} (hrounds : len ≤ rounds) (h : Splits before xs first len) :
    Splits before xs (search before xs rounds first len) 0 := by
  induction rounds generalizing first len with
  | zero =>
    obtain rfl := Nat.le_zero.mp hrounds
    exact h
  | succ rounds ih =>
    rw [search]
    split
    · next hzero =>
      subst hzero
      exact h
    · next hpos =>
      have hhalf : len / 2 < len := Nat.div_lt_self (Nat.pos_of_ne_zero hpos) Nat.one_lt_two
      have hbound : first + len / 2 < xs.length := by
        have := h.bound
        omega
      simp only [List.getElem?_eq_getElem hbound]
      cases hbefore : before (xs[first + len / 2]) with
      | true =>
        rw [if_pos rfl]
        exact ih (by omega) (h.skip hsorted hhalf (List.getElem?_eq_getElem hbound) hbefore)
      | false =>
        rw [if_neg Bool.false_ne_true]
        exact ih (by omega) (h.stop hsorted hhalf (List.getElem?_eq_getElem hbound) hbefore)

theorem getElem?_lowerBound (hsorted : xs.Pairwise fun x y => before y = true → before x = true) :
    xs[lowerBound before xs]? = xs.find? (!before ·) := by
  have hsplits : Splits before xs (lowerBound before xs) 0 := by
    refine search_splits hsorted (Nat.le_refl _)
      ⟨Nat.le_of_eq (Nat.zero_add _), fun i x hi => absurd hi (Nat.not_lt_zero i), ?_⟩
    intro i x hi hx
    rw [Nat.zero_add] at hi
    exact absurd (List.getElem?_eq_some_iff.mp hx).1 (Nat.not_lt.mpr hi)
  cases hx : xs[lowerBound before xs]? with
  | none =>
    refine (List.find?_eq_none.mpr fun y hy => ?_).symm
    obtain ⟨i, hi, rfl⟩ := List.getElem_of_mem hy
    have hlow := hsplits.low i _ (Nat.lt_of_lt_of_le hi (List.getElem?_eq_none_iff.mp hx)) (List.getElem?_eq_getElem hi)
    rw [hlow]
    exact Bool.false_ne_true
  | some x =>
    refine (List.find?_eq_some_iff_getElem.mpr ?_).symm
    have hnot := hsplits.high _ x (Nat.le_refl _) hx
    obtain ⟨hlt, hget⟩ := List.getElem?_eq_some_iff.mp hx
    refine ⟨by rw [hnot]; rfl, _, hlt, hget, fun j hj => ?_⟩
    rw [hsplits.low j _ hj (List.getElem?_eq_getElem (Nat.lt_trans hj hlt))]
    rfl

end
end LowerBound
