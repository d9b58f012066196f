import Mathlib.Data.List.Destutter
import Mathlib.Data.List.Induction
import Mathlib.Data.List.Sort

/-!
# Lists

Histories, which are read backwards: something happened, and nothing of another kind has happened since.
Sorting without repetition. Strings that are written one after the other, each followed by a symbol that it
does not contain.
-/
namespace List
open List

section
variable {α : Type*} (Happens : List α → α → Prop) (Ends : α → Prop)

/-- An element for which `Happens` holds, given what is before it, and none for which `Ends` holds
after it. -/
def Since (history : List α) : Prop :=
  ∃ before x after, history = before ++ x :: after ∧ Happens before x ∧ ∀ y ∈ after, ¬ Ends y

variable {Happens Ends}

@[simp] theorem not_since_nil : ¬ Since Happens Ends [] := by
  rintro ⟨before, x, after, h, -⟩
  exact absurd h (by simp)

theorem since_concat {history : List α} {x : α} :
    Since Happens Ends (history ++ [x]) ↔ Happens history x ∨ Since Happens Ends history ∧ ¬ Ends x := by
  constructor
  · rintro ⟨before, y, after, h, hy, hafter⟩
    cases after using reverseRecOn with
    | nil =>
      obtain ⟨rfl, hx⟩ := append_inj' h rfl
      rw [singleton_inj] at hx
      exact .inl (hx ▸ hy)
    | append_singleton after z =>
      rw [← cons_append, ← append_assoc] at h
      obtain ⟨rfl, hx⟩ := append_inj' h rfl
      rw [singleton_inj] at hx
      rw [forall_mem_append] at hafter
      exact .inr ⟨⟨before, y, after, rfl, hy, hafter.1⟩, hx ▸ hafter.2 z (mem_singleton_self z)⟩
  · rintro (hx | ⟨⟨before, y, after, rfl, hy, hafter⟩, hx⟩)
    · exact ⟨history, x, [], rfl, hx, nofun⟩
    · refine ⟨before, y, after ++ [x], by simp, hy, ?_⟩
      intro z hz
      rcases mem_append.mp hz with hz | hz
      · exact hafter z hz
      · exact mem_singleton.mp hz ▸ hx

end

section
variable {α : Type} [DecidableEq α]

variable {xs : List α}

theorem mem_destutter'_ne {x a : α} : x ∈ xs.destutter' (· ≠ ·) a ↔ x = a ∨ x ∈ xs := by
  induction xs generalizing a with
  | nil => simp only [destutter'_nil, mem_singleton, not_mem_nil, or_false]
  | cons b xs ih =>
    by_cases hne : a ≠ b
    · rw [destutter'_cons_pos xs hne, mem_cons, ih, mem_cons]
    · obtain rfl := not_ne_iff.mp hne
      rw [destutter'_cons_neg xs hne, ih, mem_cons, or_self_left]

@[simp] theorem mem_destutter_ne {x : α} : x ∈ xs.destutter (· ≠ ·) ↔ x ∈ xs := by
  cases xs with
  | nil => rfl
  | cons a xs => rw [destutter_cons', mem_destutter'_ne, mem_cons]

theorem eraseReps_eq_destutter (xs : List α) : xs.eraseReps = xs.destutter (· ≠ ·) := by
  have hloop : ∀ (xs : List α) (a : α) (acc : List α),
      eraseRepsBy.loop (· == ·) a xs acc = acc.reverse ++ xs.destutter' (· ≠ ·) a := by
    intro xs
    induction xs with
    | nil => exact fun a acc => reverse_cons
    | cons b xs ih =>
      intro a acc
      rw [eraseRepsBy.loop]
      by_cases heq : a = b
      · rw [beq_iff_eq.mpr heq, destutter'_cons_neg xs (not_not.mpr heq)]
        exact ih a acc
      · rw [beq_eq_false_iff_ne.mpr heq, destutter'_cons_pos xs heq]
        exact (ih b (a :: acc)).trans (by rw [reverse_cons, append_assoc, singleton_append])
  cases xs with
  | nil => rfl
  | cons a xs => exact hloop xs a []

end

variable {α : Type} [LinearOrder α]

def sortAndDedup (xs : List α) : List α := (xs.insertionSort (· ≤ ·)).destutter (· ≠ ·)

@[simp] theorem mem_sortAndDedup {x : α} {xs : List α} : x ∈ sortAndDedup xs ↔ x ∈ xs := by
  rw [sortAndDedup, mem_destutter_ne, mem_insertionSort]

theorem sortAndDedup_pairwise_lt (xs : List α) : (sortAndDedup xs).Pairwise (· < ·) := by
  have hle : (sortAndDedup xs).Pairwise (· ≤ ·) := (pairwise_insertionSort (· ≤ ·) xs).sublist (destutter_sublist _ _)
  have hne : (sortAndDedup xs).IsChain (· ≠ ·) := isChain_destutter _ _
  have hlt : (sortAndDedup xs).IsChain (· < ·) := isChain_iff_getElem.mpr fun i hi =>
      lt_of_le_of_ne (isChain_iff_getElem.mp hle.isChain i hi) (isChain_iff_getElem.mp hne i hi)
  exact hlt.pairwise

end List

namespace Terminated
open List
variable {α : Type*} {z : α}

def terminate (z : α) (string : List α) : List α := string ++ [z]

def terminateAll (z : α) (strings : List (List α)) : List α := strings.flatMap (terminate z) ++ terminate z []

theorem terminate_append_inj {a b xs ys : List α} (ha : z ∉ a) (hb : z ∉ b)
    (h : terminate z a ++ xs = terminate z b ++ ys) : a = b ∧ xs = ys := by
  induction a generalizing b with
  | nil =>
    cases b with
    | nil => exact ⟨rfl, append_cancel_left h⟩
    | cons c b => exact absurd (head_eq_of_cons_eq h ▸ mem_cons_self) hb
  | cons c a ih =>
    cases b with
    | nil => exact absurd (head_eq_of_cons_eq h ▸ mem_cons_self) ha
    | cons d b =>
      obtain ⟨rfl, hrest⟩ := cons.inj h
      obtain ⟨rfl, hmore⟩ := ih (mt (mem_cons_of_mem c) ha) (mt (mem_cons_of_mem c) hb) hrest
      exact ⟨rfl, hmore⟩

def Proper (z : α) (string : List α) : Prop := string ≠ [] ∧ z ∉ string

theorem terminateAll_append_inj {as bs : List (List α)} {xs ys : List α} (ha : ∀ a ∈ as, Proper z a)
    (hb : ∀ b ∈ bs, Proper z b) (h : terminateAll z as ++ xs = terminateAll z bs ++ ys) : as = bs ∧ xs = ys := by
  have hnil : z ∉ ([] : List α) := not_mem_nil
  induction as generalizing bs with
  | nil =>
    cases bs with
    | nil => exact ⟨rfl, append_cancel_left h⟩
    | cons b bs =>
      obtain ⟨hne, hb⟩ := (forall_mem_cons.mp hb).1
      simp only [terminateAll, flatMap_nil, flatMap_cons, nil_append, append_assoc] at h
      exact absurd (terminate_append_inj hnil hb h).1.symm hne
  | cons a as ih =>
    obtain ⟨⟨hne, ha⟩, has⟩ := forall_mem_cons.mp ha
    cases bs with
    | nil =>
      simp only [terminateAll, flatMap_nil, flatMap_cons, nil_append, append_assoc] at h
      exact absurd (terminate_append_inj ha hnil h).1 hne
    | cons b bs =>
      obtain ⟨⟨-, hb⟩, hbs⟩ := forall_mem_cons.mp hb
      simp only [terminateAll, flatMap_cons, append_assoc] at h
      obtain ⟨rfl, hrest⟩ := terminate_append_inj ha hb h
      rw [← append_assoc, ← append_assoc] at hrest
      obtain ⟨rfl, hmore⟩ := ih has hbs hrest
      exact ⟨rfl, hmore⟩

end Terminated
