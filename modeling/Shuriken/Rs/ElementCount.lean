import Shuriken.Lib.Demand
import Mathlib.Algebra.Order.BigOperators.Group.List
import Mathlib.Algebra.Ring.Int.Defs

/-!
# Counts of elements

The arithmetic of `rs/element_count.h`, compared with that of the integers. The counts of
the requests of a subscriber are not negative. As long as they are not, it is the arithmetic
of a demand.
-/
namespace Shuriken.Rs

/-- The largest count stands for any number of elements. -/
abbrev ElementCount : Type := Int64

def ElementCount.unbounded : ElementCount := Int64.maxValue

def elementCountAdd (a b : ElementCount) : Except String ElementCount :=
  if 0 < b ∧ Int64.maxValue - b < a then .ok .unbounded
  else if b < 0 then
    if a = .unbounded then .ok .unbounded
    else if a < Int64.minValue - b then .error "Negative integer overflow"
    else .ok (a + b)
  else .ok (a + b)

def elementCountSubtract (a b : ElementCount) : Except String ElementCount :=
  if b < 0 ∧ Int64.maxValue + b < a then .ok .unbounded
  else if 0 < b then
    if a = .unbounded then .ok .unbounded
    else if a < Int64.minValue + b then .error "Negative integer overflow"
    else .ok (a - b)
  else .ok (a - b)

/-- The decrement of a count that is not the smallest one. -/
def ElementCount.decrement (count : ElementCount) : ElementCount :=
  if count = .unbounded then count else count - 1

/-- The prefix operator `--` -/
def predecrement (count : ElementCount) : Except String ElementCount :=
  if count = Int64.minValue then .error "Cannot decrement the smallest possible value" else .ok count.decrement

/-- A `long long` operation that has no value when it overflows. -/
def noOverflow (x : Int) : Option ElementCount :=
  if -2 ^ 63 ≤ x ∧ x < 2 ^ 63 then some (Int64.ofInt x) else none

/-- `ElementCountAdd` of `a` and `c`, and `ElementCountSubtract` of `a` and `-c`, by way of the given
operations on `long long`. -/
def elementCountSum (op : Int → Option ElementCount) (a : ElementCount) (c : Int) :
    Option (Except String ElementCount) :=
  if 0 < c then
    (op (Int64.maxValue.toInt - c)).bind fun limit =>
      if limit < a then some (.ok .unbounded) else (op (a.toInt + c)).map .ok
  else if c < 0 then
    if a = .unbounded then some (.ok .unbounded)
    else (op (Int64.minValue.toInt - c)).bind fun limit =>
      if a < limit then some (.error "Negative integer overflow") else (op (a.toInt + c)).map .ok
  else (op (a.toInt + c)).map .ok

/-- The integer `x` as a count -/
def saturate (x : Int) : Except String ElementCount :=
  if x < -2 ^ 63 then .error "Negative integer overflow"
  else if 2 ^ 63 ≤ x then .ok .unbounded
  else .ok (Int64.ofInt x)

section Laws

variable {a b : ElementCount}

theorem eq_unbounded_iff : a = .unbounded ↔ a.toInt = 2 ^ 63 - 1 := Int64.toInt_inj.symm

theorem toInt_ofInt {x : Int} (h : -2 ^ 63 ≤ x) (h' : x < 2 ^ 63) : (Int64.ofInt x).toInt = x :=
  Int64.toInt_ofInt_of_le h h'

theorem elementCountSum_eq {op : Int → Option ElementCount} {c : Int}
    (hop : ∀ x, -2 ^ 63 ≤ x → x < 2 ^ 63 → op x = some (Int64.ofInt x)) (h : -2 ^ 63 ≤ c) (h' : c ≤ 2 ^ 63) :
    elementCountSum op a c =
      some (if a = .unbounded ∧ c < 0 then .ok .unbounded else saturate (a.toInt + c)) := by
  have hle := a.le_toInt
  have hlt := a.toInt_lt
  have hmax : Int64.maxValue.toInt = 2 ^ 63 - 1 := rfl
  have hmin : Int64.minValue.toInt = -2 ^ 63 := rfl
  rw [elementCountSum, saturate, hmax, hmin]
  rcases Int.lt_trichotomy 0 c with hc | rfl | hc
  · rw [if_pos hc, hop _ (by omega) (by omega), if_neg (by omega), if_neg (by omega)]
    simp only [Option.bind_some, Int64.lt_iff_toInt_lt, toInt_ofInt (x := 2 ^ 63 - 1 - c) (by omega) (by omega)]
    split
    · rw [if_pos (by omega)]
    · rw [if_neg (by omega), hop _ (by omega) (by omega)]
      rfl
  · rw [if_neg (by omega), if_neg (by omega), if_neg (by omega), if_neg (by omega), if_neg (by omega),
      hop _ (by omega) (by omega)]
    rfl
  · rw [if_neg (by omega), if_pos hc, hop (-2 ^ 63 - c) (by omega) (by omega)]
    simp only [Option.bind_some, Int64.lt_iff_toInt_lt, toInt_ofInt (x := -2 ^ 63 - c) (by omega) (by omega)]
    by_cases ha : a = .unbounded
    · rw [if_pos ha, if_pos ⟨ha, hc⟩]
    · rw [if_neg ha, if_neg fun (h : a = .unbounded ∧ c < 0) => ha h.1]
      split
      · rw [if_pos (by omega)]
      · rw [if_neg (by omega), if_neg (by omega), hop _ (by omega) (by omega)]
        rfl

theorem elementCountSum_add :
    elementCountSum (fun x => some (Int64.ofInt x)) a b.toInt = some (elementCountAdd a b) := by
  have hpos : 0 < b.toInt ↔ 0 < b := (Int64.lt_iff_toInt_lt (x := 0)).symm
  have hneg : b.toInt < 0 ↔ b < 0 := (Int64.lt_iff_toInt_lt (y := 0)).symm
  simp only [elementCountSum, elementCountAdd, Option.bind_some, Option.map_some, apply_ite some]
  simp only [hpos, hneg, Int64.ofInt_sub, Int64.ofInt_add, Int64.ofInt_toInt]
  by_cases hb : 0 < b
  · simp [hb, Int64.lt_asymm hb]
  · simp [hb]

theorem elementCountSum_subtract :
    elementCountSum (fun x => some (Int64.ofInt x)) a (-b.toInt) = some (elementCountSubtract a b) := by
  have hpos : 0 < -b.toInt ↔ b < 0 := Int.neg_pos.trans (Int64.lt_iff_toInt_lt (y := 0)).symm
  have hneg : -b.toInt < 0 ↔ 0 < b := Int.neg_neg_iff_pos.trans (Int64.lt_iff_toInt_lt (x := 0)).symm
  simp only [elementCountSum, elementCountSubtract, Option.bind_some, Option.map_some, apply_ite some]
  simp only [hpos, hneg, Int.sub_neg, ← Int.sub_eq_add_neg, Int64.ofInt_sub, Int64.ofInt_add, Int64.ofInt_toInt]
  by_cases hb : b < 0
  · simp [hb, Int64.lt_asymm hb]
  · simp [hb]

theorem elementCountAdd_eq_saturate : elementCountAdd a b =
      if a = .unbounded ∧ b.toInt < 0 then .ok .unbounded else saturate (a.toInt + b.toInt) := by
  have := b.toInt_lt
  exact Option.some.inj (elementCountSum_add.symm.trans (elementCountSum_eq (fun _ _ _ => rfl) b.le_toInt (by omega)))

theorem elementCountSubtract_eq_saturate : elementCountSubtract a b =
      if a = .unbounded ∧ -b.toInt < 0 then .ok .unbounded else saturate (a.toInt - b.toInt) := by
  have := b.toInt_lt
  have := b.le_toInt
  exact Option.some.inj (elementCountSum_subtract.symm.trans
    (elementCountSum_eq (fun _ _ _ => rfl) (by omega) (by omega)))

theorem elementCountAdd_of_nonneg (h : 0 ≤ b) :
    elementCountAdd a b = .ok (Int64.ofInt (min (a.toInt + b.toInt) (2 ^ 63 - 1))) := by
  have := a.le_toInt
  have hb : 0 ≤ b.toInt := (Int64.le_iff_toInt_le (x := 0)).mp h
  rw [elementCountAdd_eq_saturate, if_neg (by omega), saturate, if_neg (by omega)]
  split
  · rw [min_eq_right (by omega)]
    rfl
  · rw [min_eq_left (by omega)]

/-- Requests are added up, up to the unbounded count. -/
theorem foldlM_elementCountAdd {requests : List ElementCount} (h : ∀ count ∈ requests, 0 ≤ count) :
    requests.foldlM elementCountAdd a =
      .ok (Int64.ofInt (min (a.toInt + (requests.map Int64.toInt).sum) (2 ^ 63 - 1))) := by
  induction requests generalizing a with
  | nil =>
    have := a.toInt_lt
    rw [List.map_nil, List.sum_nil, add_zero, min_eq_left (by omega), Int64.ofInt_toInt]
    rfl
  | cons count requests ih =>
    have hcount : 0 ≤ count.toInt := (Int64.le_iff_toInt_le (x := 0)).mp (h count List.mem_cons_self)
    have hsum : 0 ≤ (requests.map Int64.toInt).sum := by
      refine List.sum_nonneg fun x hx => ?_
      obtain ⟨later, hlater, rfl⟩ := List.mem_map.mp hx
      exact (Int64.le_iff_toInt_le (x := 0)).mp (h later (List.mem_cons_of_mem _ hlater))
    have := a.le_toInt
    rw [List.foldlM_cons, elementCountAdd_of_nonneg (h count List.mem_cons_self)]
    change requests.foldlM elementCountAdd _ = _
    rw [ih fun later hlater => h later (List.mem_cons_of_mem _ hlater), toInt_ofInt (by omega) (by omega),
      List.map_cons, List.sum_cons]
    congr 2
    omega

theorem saturate_eq_unbounded_iff {x : Int} : saturate x = .ok .unbounded ↔ 2 ^ 63 - 1 ≤ x := by
  rw [saturate]
  split
  · exact iff_of_false nofun (by omega)
  · split
    · exact iff_of_true rfl (by omega)
    · rw [Except.ok.injEq, eq_unbounded_iff, toInt_ofInt (by omega) (by omega)]
      omega

/-- The counts are added and subtracted like integers that are cut off at the unbounded count,
except that the right operand of an addition does not stay unbounded when the left one is
negative. -/
theorem element_count_laws (a b : ElementCount) : (elementCountSum noOverflow a b.toInt = some (elementCountAdd a b) ∧
      elementCountSum noOverflow a (-b.toInt) = some (elementCountSubtract a b)) ∧
    (elementCountAdd a b = elementCountAdd b a ↔ ¬ (a < 0 ∧ b = .unbounded) ∧ ¬ (b < 0 ∧ a = .unbounded)) ∧
    (a = .unbounded ∨ b = .unbounded → (elementCountAdd a b = .ok .unbounded ↔ ¬ (a < 0 ∧ b = .unbounded))) ∧
    (a = .unbounded → elementCountSubtract a b = .ok .unbounded) ∧
    (a ≠ .unbounded → (b ≠ .unbounded → elementCountAdd a b = saturate (a.toInt + b.toInt)) ∧
      elementCountSubtract a b = saturate (a.toInt - b.toInt)) ∧
    (∀ requests requests' : List ElementCount, (∀ count ∈ requests, 0 ≤ count) → requests.Perm requests' →
      requests.foldlM elementCountAdd a = requests'.foldlM elementCountAdd a) ∧
    predecrement .unbounded = .ok .unbounded := by
  have hle := b.le_toInt
  have hlt := b.toInt_lt
  have hop : ∀ x, -2 ^ 63 ≤ x → x < 2 ^ 63 → noOverflow x = some (Int64.ofInt x) := fun x h h' => if_pos ⟨h, h'⟩
  have hneg (c : ElementCount) : c < 0 ↔ c.toInt < 0 := Int64.lt_iff_toInt_lt (y := 0)
  refine ⟨⟨?_, ?_⟩, ?_, ?_, ?_, fun ha => ⟨fun _ => ?_, ?_⟩, ?_, rfl⟩
  · rw [elementCountSum_eq hop hle (by omega), elementCountAdd_eq_saturate]
  · rw [elementCountSum_eq hop (by omega) (by omega), elementCountSubtract_eq_saturate]
    rfl
  · rw [elementCountAdd_eq_saturate, elementCountAdd_eq_saturate, hneg, hneg, Int.add_comm b.toInt]
    by_cases hleft : a = .unbounded ∧ b.toInt < 0
    · have ha := eq_unbounded_iff.mp hleft.1
      rw [if_pos hleft, if_neg (by omega), eq_comm, saturate_eq_unbounded_iff]
      exact iff_of_false (by omega) fun h => h.2 hleft.symm
    · rw [if_neg hleft]
      by_cases hright : b = .unbounded ∧ a.toInt < 0
      · have hb := eq_unbounded_iff.mp hright.1
        rw [if_pos hright, saturate_eq_unbounded_iff]
        exact iff_of_false (by omega) fun h => h.1 hright.symm
      · rw [if_neg hright]
        exact iff_of_true rfl ⟨fun h => hright h.symm, fun h => hleft h.symm⟩
  · intro h
    rw [elementCountAdd_eq_saturate, hneg]
    simp only [eq_unbounded_iff] at h ⊢
    split
    · exact iff_of_true rfl (by omega)
    · rw [saturate_eq_unbounded_iff]
      omega
  · intro ha
    rw [elementCountSubtract_eq_saturate]
    split
    · rfl
    · next hpos =>
      have := eq_unbounded_iff.mp ha
      have : ¬ -b.toInt < 0 := fun h => hpos ⟨ha, h⟩
      exact saturate_eq_unbounded_iff.mpr (by omega)
  · rw [elementCountAdd_eq_saturate, if_neg fun h => ha h.1]
  · rw [elementCountSubtract_eq_saturate, if_neg fun h => ha h.1]
  · intro requests requests' h hperm
    rw [foldlM_elementCountAdd h, foldlM_elementCountAdd fun count hcount => h count (hperm.mem_iff.mpr hcount),
      (hperm.map _).sum_eq]

theorem unbounded_is_lost : elementCountAdd (-1) .unbounded = .ok (Int64.maxValue - 1) ∧
    elementCountAdd .unbounded (-1) = .ok .unbounded := by
  decide

end Laws

/-- The demand that a count stands for, up to the largest `long long`. -/
abbrev Count : Type := Demand (2 ^ 63 - 1)

theorem one_le_max : 1 ≤ 2 ^ 63 - 1 := by decide

def Count.toElementCount (a : Count) : ElementCount := Int64.ofNat a.count

variable (a b : Count)

theorem toInt_toElementCount : (Count.toElementCount a).toInt = a.count := by
  have := a.le_top
  exact Int64.toInt_ofNat_of_lt (by omega)

theorem toElementCount_eq_unbounded_iff : Count.toElementCount a = .unbounded ↔ a.count = 2 ^ 63 - 1 := by
  rw [← Int64.toInt_inj, toInt_toElementCount]
  change (a.count : Int) = 2 ^ 63 - 1 ↔ _
  omega

/-- A difference of counts that are not negative, as far as it is positive -/
theorem elementCountSubtract_eq : ∃ d, elementCountSubtract a.toElementCount b.toElementCount = .ok d ∧
      (0 < d ↔ a - b ≠ 0) ∧ (0 < d → d = Count.toElementCount (a - b)) := by
  have ha := a.le_top
  have hb := b.le_top
  have hpos (d : ElementCount) : 0 < d ↔ 0 < d.toInt := Int64.lt_iff_toInt_lt (x := 0)
  simp only [hpos, ne_eq, Demand.eq_zero_iff, ← Int64.toInt_inj, toInt_toElementCount, Demand.count_sub]
  rw [elementCountSubtract_eq_saturate]
  simp only [toElementCount_eq_unbounded_iff, toInt_toElementCount]
  by_cases htop : a.count = 2 ^ 63 - 1 ∧ -(b.count : Int) < 0
  · have hmax : (ElementCount.unbounded).toInt = 2 ^ 63 - 1 := rfl
    refine ⟨.unbounded, if_pos htop, ?_⟩
    rw [hmax, if_pos htop.1]
    omega
  · rw [if_neg htop, saturate, if_neg (by omega), if_neg (by omega)]
    refine ⟨_, rfl, ?_⟩
    rw [toInt_ofInt (by omega) (by omega)]
    split <;> omega

/-- `ElementCount`s that are not negative are demand. -/
theorem element_counts_are_demand :
    elementCountAdd a.toElementCount b.toElementCount = .ok (Count.toElementCount (a + b)) ∧
    (∃ d, elementCountSubtract a.toElementCount b.toElementCount = .ok d ∧ (0 < d ↔ a - b ≠ 0) ∧
      (0 < d → d = Count.toElementCount (a - b))) ∧
    (a ≠ 0 → a.toElementCount.decrement = Count.toElementCount a.pred) := by
  refine ⟨?_, elementCountSubtract_eq a b, fun h => ?_⟩
  · have hb : 0 ≤ b.toElementCount := by
      rw [Int64.le_iff_toInt_le, toInt_toElementCount]
      exact Int.natCast_nonneg _
    rw [elementCountAdd_of_nonneg hb, toInt_toElementCount, toInt_toElementCount, Count.toElementCount,
      Demand.count_add, ← Int64.ofInt_eq_ofNat]
    congr 2
    omega
  · have ha := a.le_top
    rw [ne_eq, Demand.eq_zero_iff] at h
    have hpred : (a.toElementCount - 1).toInt = a.count - 1 := by
      rw [Int64.toInt_sub, toInt_toElementCount]
      change ((a.count : Int) - 1).bmod (2 ^ 64) = _
      exact Int.bmod_eq_of_le (by omega) (by omega)
    rw [ElementCount.decrement, ← Int64.toInt_inj, toInt_toElementCount, Demand.count_pred]
    simp only [toElementCount_eq_unbounded_iff]
    split
    · next htop => rw [toInt_toElementCount, htop]
    · rw [hpred]
      omega

end Shuriken.Rs
