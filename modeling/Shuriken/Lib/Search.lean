import Shuriken.Lib.Countdown

/-!
# Depth-first search

What searches of a finite graph have in common: a loop that ends at the first
answer, marks that bound the depth, and graphs without cycles.
-/
namespace Search
open Function List

section
variable {σ α ρ : Type}

def firstSome (f : σ → α → σ × Option ρ) : σ → List α → σ × Option ρ
  | s, [] => (s, none)
  | s, x :: xs =>
    match f s x with
    | (s, some r) => (s, some r)
    | (s, none) => firstSome f s xs

/-- What a call did, without an answer or with one. -/
def Outcome (Q : σ → Prop) (A : ρ → σ → Prop) : σ × Option ρ → Prop
  | (s, none) => Q s
  | (s, some r) => A r s

theorem Outcome.imp {Q Q' : σ → Prop} {A A' : ρ → σ → Prop} {result : σ × Option ρ} (h : Outcome Q A result)
    (hQ : ∀ s, Q s → Q' s) (hA : ∀ r s, A r s → A' r s) : Outcome Q' A' result := by
  obtain ⟨s, answer⟩ := result
  cases answer with
  | none => exact hQ s h
  | some r => exact hA r s h

variable {f : σ → α → σ × Option ρ} {l : List α}

/-- What is known after a loop. `I` holds as long as there is no answer, `D` says what a call
without an answer has done, and later calls keep it. -/
theorem firstSome_outcome {I : σ → Prop} {D : α → σ → Prop} {A : ρ → σ → Prop}
    (hcall : ∀ s, ∀ x ∈ l, I s → Outcome (fun s' => I s' ∧ D x s' ∧ ∀ y, D y s → D y s') A (f s x)) {s : σ} (hs : I s) :
    Outcome (fun s' => I s' ∧ (∀ x ∈ l, D x s') ∧ ∀ y, D y s → D y s') A (firstSome f s l) := by
  induction l generalizing s with
  | nil => exact ⟨hs, nofun, fun _ h => h⟩
  | cons x l ih =>
    have hfirst := hcall s x mem_cons_self hs
    rw [firstSome]
    generalize f s x = result at hfirst ⊢
    obtain ⟨s₁, answer⟩ := result
    cases answer with
    | some r => exact hfirst
    | none =>
      obtain ⟨hs₁, hdone, hkeeps⟩ := hfirst
      refine (ih (fun s y hy => hcall s y (mem_cons_of_mem x hy)) hs₁).imp ?_ fun _ _ h => h
      rintro s' ⟨hs', hall, hkeeps'⟩
      exact ⟨hs', forall_mem_cons.mpr ⟨hkeeps' x hdone, hall⟩, fun y hy => hkeeps' y (hkeeps y hy)⟩

theorem firstSome_eq_some {s s' : σ} {r : ρ} (h : firstSome f s l = (s', some r)) :
    ∃ before x after s₁, l = before ++ x :: after ∧ firstSome f s before = (s₁, none) ∧ f s₁ x = (s', some r) := by
  induction l generalizing s with
  | nil => nomatch h
  | cons x l ih =>
    rw [firstSome] at h
    cases hcall : f s x with
    | mk s₁ answer =>
      rw [hcall] at h
      cases answer with
      | some r' => exact ⟨[], x, l, s, rfl, rfl, hcall.trans h⟩
      | none =>
        obtain ⟨before, y, after, s₂, rfl, hbefore, hy⟩ := ih h
        refine ⟨x :: before, y, after, s₂, rfl, ?_, hy⟩
        rw [firstSome, hcall]
        exact hbefore

theorem firstSome_keeps {P : σ → Prop} {s s' : σ} (hf : ∀ s x s', f s x = (s', none) → P s → P s')
    (h : firstSome f s l = (s', none)) (hs : P s) : P s' := by
  induction l generalizing s with
  | nil => exact (Prod.mk.inj h).1 ▸ hs
  | cons x l ih =>
    rw [firstSome] at h
    cases hcall : f s x with
    | mk s₁ answer =>
      rw [hcall] at h
      cases answer with
      | some r => nomatch h
      | none => exact ih h (hf s x s₁ hcall hs)

end

section
variable {ι : Type} [Fintype ι] {marks marks' : ι → Bool} {i : ι}

def unmarked (marks : ι → Bool) : Nat := (Finset.univ.filter fun i => marks i = false).card

theorem unmarked_le_card (marks : ι → Bool) : unmarked marks ≤ Fintype.card ι := Finset.card_le_univ _

theorem unmarked_anti (h : ∀ i, marks i = true → marks' i = true) : unmarked marks' ≤ unmarked marks := by
  refine Finset.card_le_card (Finset.monotone_filter_right _ fun i _ hi => ?_)
  cases hmark : marks i with
  | false => rfl
  | true => nomatch (h i hmark).symm.trans hi

theorem unmarked_update_lt [DecidableEq ι] (h : marks i = false) : unmarked (update marks i true) < unmarked marks := by
  refine Finset.card_lt_card (Finset.ssubset_iff_subset_ne.mpr ⟨?_, fun heq => ?_⟩)
  · refine Finset.monotone_filter_right _ fun j _ hj => ?_
    by_cases hji : j = i
    · exact hji ▸ h
    · rwa [update_of_ne hji] at hj
  · have hmem : i ∈ Finset.univ.filter fun j => marks j = false := Finset.mem_filter.mpr ⟨Finset.mem_univ i, h⟩
    rw [← heq, Finset.mem_filter, update_self] at hmem
    nomatch hmem.2

end

section
variable {ι : Type} {edge : ι → ι → Prop}

def Acyclic (edge : ι → ι → Prop) : Prop := ∀ i, ¬ Relation.TransGen edge i i

/-- No infinite path starts here. -/
def Grounded (edge : ι → ι → Prop) (i : ι) : Prop := Acc (fun j i => edge i j) i

variable {i : ι}

theorem grounded_of_edges (h : ∀ j, edge i j → Grounded edge j) : Grounded edge i := .intro i h

theorem Grounded.not_transGen (h : Grounded edge i) : ¬ Relation.TransGen edge i i := by
  induction Acc.transGen h with
  | intro i _ ih => exact fun hcycle => ih i (Relation.transGen_swap.mp hcycle) h hcycle

theorem Grounded.of_reflTransGen {j : ι} (h : Grounded edge i) (hpath : Relation.ReflTransGen edge i j) :
    Grounded edge j := by
  induction hpath with
  | refl => exact h
  | tail _ hedge ih => exact ih.inv hedge

theorem grounded_iff_no_cycle_ahead [Finite ι] {r : ι} :
    Grounded edge r ↔ ∀ i, Relation.ReflTransGen edge r i → ¬ Relation.TransGen edge i i := by
  refine ⟨fun h i hi => (h.of_reflTransGen hi).not_transGen, fun h => ?_⟩
  -- The edges that can be reached have no cycle, and they lead to all that is ahead.
  let ahead i j := Relation.ReflTransGen edge r i ∧ edge i j
  have hacyclic : ∀ i, ¬ Relation.TransGen ahead i i := by
    intro i hcycle
    obtain ⟨j, hfirst, -⟩ := Relation.TransGen.head'_iff.mp hcycle
    exact h i hfirst.1 (hcycle.lift id fun _ _ hij => hij.2)
  exact Countdown.forall_of_acyclic (p := fun i => Relation.ReflTransGen edge r i → Grounded edge i) hacyclic
    (fun i ih hi => grounded_of_edges fun j hij => ih j ⟨hi, hij⟩ (hi.tail hij)) r .refl

theorem grounded_iff_of_finite {sources : Set ι} [Finite sources] (hsources : ∀ i j, edge i j → i ∈ sources) {r : ι} :
    Grounded edge r ↔ ∀ i, Relation.ReflTransGen edge r i → ¬ Relation.TransGen edge i i := by
  refine ⟨fun h i hi => (h.of_reflTransGen hi).not_transGen, fun h => ?_⟩
  let inner (i j : sources) : Prop := edge i.1 j.1
  have hinner : ∀ i : sources, Grounded inner i → Grounded edge i.1 := by
    intro i hi
    induction hi with
    | intro i _ ih =>
      refine grounded_of_edges fun j hj => ?_
      by_cases hmem : j ∈ sources
      · exact ih ⟨j, hmem⟩ hj
      · exact grounded_of_edges fun k hk => absurd (hsources j k hk) hmem
  by_cases hr : r ∈ sources
  · refine hinner ⟨r, hr⟩ (grounded_iff_no_cycle_ahead.mpr fun i hi hcycle => ?_)
    exact h i.1 (hi.lift Subtype.val fun _ _ hij => hij) (hcycle.lift Subtype.val fun _ _ hij => hij)
  · exact grounded_of_edges fun j hj => absurd (hsources r j hj) hr

theorem exists_source [Finite ι] (hacyclic : Acyclic edge) (i : ι) :
    ∃ r, (∀ j, ¬ edge j r) ∧ Relation.ReflTransGen edge r i := by
  have hswap : ∀ i, ¬ Relation.TransGen (swap edge) i i := fun i h => hacyclic i (Relation.transGen_swap.mp h)
  refine Countdown.forall_of_acyclic (p := fun i => ∃ r, (∀ j, ¬ edge j r) ∧ Relation.ReflTransGen edge r i)
    hswap (fun i ih => ?_) i
  by_cases hi : ∃ j, edge j i
  · obtain ⟨j, hji⟩ := hi
    obtain ⟨r, hr, hpath⟩ := ih j hji
    exact ⟨r, hr, hpath.tail hji⟩
  · exact ⟨i, not_exists.mp hi, .refl⟩

theorem transGen_split {p q : ι → ι → Prop} (hedge : ∀ i j, edge i j → p i j ∨ q i j) {k : ι}
    (h : Relation.TransGen edge i k) :
    Relation.TransGen p i k ∨ ∃ a b, Relation.ReflTransGen edge i a ∧ q a b ∧ Relation.ReflTransGen edge b k := by
  induction h with
  | single hik =>
    rcases hedge _ _ hik with hp | hq
    · exact .inl (.single hp)
    · exact .inr ⟨_, _, .refl, hq, .refl⟩
  | tail hij hjk ih =>
    rcases ih with hp | ⟨a, b, ha, hq, hb⟩
    · rcases hedge _ _ hjk with hp' | hq
      · exact .inl (hp.tail hp')
      · exact .inr ⟨_, _, hij.to_reflTransGen, hq, .refl⟩
    · exact .inr ⟨a, b, ha, hq, hb.tail hjk⟩

def Ordered [DecidableEq ι] (edge : ι → ι → Prop) (order : List ι) : Prop :=
  ∀ i ∈ order, ∀ j, edge i j → j ∈ order ∧ order.idxOf j < order.idxOf i

section
variable [DecidableEq ι] {edge' : ι → ι → Prop} {order : List ι}

section
variable (h : Ordered edge order)
include h

theorem Ordered.mono (hedge : ∀ i ∈ order, ∀ j, edge' i j → edge i j) :
    Ordered edge' order := fun i hi j hij => h i hi j (hedge i hi j hij)

theorem Ordered.concat {s : ι} (hnew : s ∉ order) (hs : ∀ j, edge s j → j ∈ order) : Ordered edge (order ++ [s]) := by
  intro i hi j hij
  rcases mem_append.mp hi with hi | hi
  · obtain ⟨hj, hlt⟩ := h i hi j hij
    rw [idxOf_append_of_mem hi, idxOf_append_of_mem hj]
    exact ⟨mem_append_left _ hj, hlt⟩
  · obtain rfl := mem_singleton.mp hi
    have hj := hs j hij
    rw [idxOf_append_of_mem hj, idxOf_append_of_notMem hnew]
    exact ⟨mem_append_left _ hj, Nat.lt_add_right _ (idxOf_lt_length_iff.mpr hj)⟩

theorem Ordered.grounded {i : ι} (hi : i ∈ order) : Grounded edge i := by
  induction hk : order.idxOf i using Nat.strong_induction_on generalizing i with
  | _ k ih =>
    refine grounded_of_edges fun j hij => ?_
    obtain ⟨hj, hlt⟩ := h i hi j hij
    exact ih _ (hk ▸ hlt) hj rfl

theorem Ordered.mem_of_reflTransGen {i j : ι} (hi : i ∈ order)
    (hpath : Relation.ReflTransGen edge i j) : j ∈ order := by
  induction hpath with
  | refl => exact hi
  | tail _ hedge ih => exact (h _ ih _ hedge).1

end

end

end
end Search
