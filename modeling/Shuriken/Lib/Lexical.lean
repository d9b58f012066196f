import Mathlib.Data.List.Induction
import Mathlib.Logic.Function.Iterate

/-!
# Lexical normal forms

A list of names that is followed from some place can contain a name for the place itself and one for the place
above it.
-/
namespace Lexical
open Option List

variable {ν : Type*} [DecidableEq ν] (here up : ν)

/-- How often the way up is taken at first, and then the names that are entered, the last one
first. -/
abbrev Form (ν : Type*) := Nat × List ν

def step (form : Form ν) (name : ν) : Form ν :=
  if name = here then form
  else if name = up then
    match form.2 with
    | [] => (form.1 + 1, [])
    | _ :: entered => (form.1, entered)
  else (form.1, name :: form.2)

def form (names : List ν) : Form ν := names.foldl (step here up) (0, [])

def written : Form ν → List ν
  | (ups, entered) => replicate ups up ++ entered.reverse

def Proper (name : ν) : Prop := name ≠ here ∧ name ≠ up

variable {here up}

omit [DecidableEq ν] in
@[simp] theorem written_cons (ups : Nat) (name : ν) (entered : List ν) :
    written up (ups, name :: entered) = written up (ups, entered) ++ [name] := by
  simp [written]

omit [DecidableEq ν] in
theorem written_succ (ups : Nat) : written up (ups + 1, []) = written up (ups, []) ++ [up] := by
  simp [written, replicate_succ']

theorem step_here (form : Form ν) : step here up form here = form := if_pos rfl

variable {name : ν}

theorem step_proper (h : Proper here up name) (form : Form ν) : step here up form name = (form.1, name :: form.2) := by
  rw [step, if_neg h.1, if_neg h.2]

theorem form_append_singleton (names : List ν) (name : ν) :
    form here up (names ++ [name]) = step here up (form here up names) name := by
  rw [form, foldl_append]
  rfl

theorem proper_of_mem_step {form : Form ν} (h : ∀ name ∈ form.2, Proper here up name) (name : ν) :
    ∀ entered ∈ (step here up form name).2, Proper here up entered := by
  rw [step]
  split
  · exact h
  · next hhere =>
    split
    · split
      · nofun
      · next hentered => exact (forall_mem_cons.mp (hentered ▸ h)).2
    · next hup => exact forall_mem_cons.mpr ⟨⟨hhere, hup⟩, h⟩

theorem proper_of_mem_form (names : List ν) : ∀ name ∈ (form here up names).2, Proper here up name := by
  induction names using reverseRecOn with
  | nil => nofun
  | append_singleton names name ih =>
    rw [form_append_singleton]
    exact proper_of_mem_step ih name

variable {names : List ν}

theorem mem_of_mem_form (h : name ∈ (form here up names).2) : name ∈ names := by
  induction names using reverseRecOn with
  | nil => nomatch h
  | append_singleton names last ih =>
    rw [form_append_singleton, step] at h
    split at h
    · exact mem_append_left _ (ih h)
    · split at h
      · split at h
        · nomatch h
        · next hentered =>
          exact mem_append_left _ (ih (hentered ▸ mem_cons_of_mem _ h))
      · rcases mem_cons.mp h with rfl | h
        · exact mem_append_right _ (mem_singleton_self name)
        · exact mem_append_left _ (ih h)

omit [DecidableEq ν] in
theorem mem_written {form : Form ν} (h : name ∈ written up form) : name = up ∨ name ∈ form.2 := by
  rcases mem_append.mp h with h | h
  · exact .inl (eq_of_mem_replicate h)
  · exact .inr (mem_reverse.mp h)

omit [DecidableEq ν] in
/-- A normal form is determined by its names. -/
theorem written_injective {form₁ form₂ : Form ν} (h₁ : ∀ name ∈ form₁.2, Proper here up name)
    (h₂ : ∀ name ∈ form₂.2, Proper here up name) (h : written up form₁ = written up form₂) : form₁ = form₂ := by
  obtain ⟨ups₁, entered₁⟩ := form₁
  obtain ⟨ups₂, entered₂⟩ := form₂
  induction ups₁ generalizing ups₂ with
  | zero =>
    cases ups₂ with
    | zero => simpa [written] using h
    | succ ups₂ =>
      have hup : up ∈ written up (0, entered₁) := by
        rw [h]
        simp [written]
      exact absurd rfl (h₁ up (by simpa [written] using hup)).2
  | succ ups₁ ih =>
    cases ups₂ with
    | zero =>
      have hup : up ∈ written up (0, entered₂) := by
        rw [← h]
        simp [written]
      exact absurd rfl (h₂ up (by simpa [written] using hup)).2
    | succ ups₂ =>
      have htail : written up (ups₁, entered₁) = written up (ups₂, entered₂) := by
        simpa [written, replicate_succ] using h
      obtain ⟨rfl, rfl⟩ := Prod.mk.inj (ih h₁ ups₂ h₂ htail)
      rfl

theorem form_written (hne : up ≠ here) {form : Form ν} (h : ∀ name ∈ form.2, Proper here up name) :
    Lexical.form here up (written up form) = form := by
  obtain ⟨ups, entered⟩ := form
  induction entered with
  | nil =>
    clear h
    induction ups with
    | zero => rfl
    | succ ups ih =>
      rw [written_succ, form_append_singleton, ih, step, if_neg hne, if_pos rfl]
  | cons name entered ih =>
    obtain ⟨hname, h⟩ := forall_mem_cons.mp h
    rw [written_cons, form_append_singleton, ih h, step_proper hname]

theorem form_of_not_mem (h : up ∉ names) : form here up names = (0, (names.filter (· ≠ here)).reverse) := by
  induction names using reverseRecOn with
  | nil => rfl
  | append_singleton names name ih =>
    rw [mem_append, mem_singleton, not_or] at h
    rw [form_append_singleton, ih h.1, step]
    split
    · next hhere => simp [hhere]
    · next hhere => simp [hhere, Ne.symm h.2]

theorem foldl_step_of_form (h : (form here up names).1 = 0) (f : Form ν) :
    names.foldl (step here up) f = (f.1, (form here up names).2 ++ f.2) := by
  induction names using reverseRecOn with
  | nil => rfl
  | append_singleton names name ih =>
    rw [form_append_singleton] at h ⊢
    rw [foldl_append, foldl_cons, foldl_nil]
    generalize form here up names = g at h ih ⊢
    obtain ⟨ups, entered⟩ := g
    rw [step] at h ⊢
    split at h
    · next hhere =>
      rw [ih h, step, if_pos hhere, if_pos hhere]
    · next hhere =>
      rw [if_neg hhere]
      split at h
      · next hup =>
        rw [if_pos hup]
        cases entered with
        | nil => exact absurd h (Nat.succ_ne_zero ups)
        | cons last entered =>
          rw [ih h, step, if_neg hhere, if_pos hup]
          rfl
      · next hup => rw [ih h, step, if_neg hhere, if_neg hup, if_neg hup, cons_append]

theorem length_form_le (names : List ν) :
    (form here up names).2.length ≤ names.countP fun name => name ≠ here ∧ name ≠ up := by
  induction names using reverseRecOn with
  | nil => exact Nat.le_refl 0
  | append_singleton names name ih =>
    rw [form_append_singleton, countP_append, step]
    split
    · exact Nat.le_add_right_of_le ih
    · next hhere =>
      split
      · split
        · exact Nat.zero_le _
        · next hentered =>
          rw [hentered, length_cons] at ih
          exact Nat.le_add_right_of_le (Nat.le_of_succ_le ih)
      · next hup =>
        have hproper : countP (fun name => name ≠ here ∧ name ≠ up) [name] = 1 := by
          simp [hhere, hup]
        rw [hproper]
        exact Nat.succ_le_succ ih

section
variable {π : Type*} (enter final : π → ν → Option π) (above : π → π)

/-- The way up leads back. One can go on from places for which `Dir` holds. `final` is for the
last name, under which there need not be such a place. -/
structure Reversible (here up : ν) (Dir : π → Prop) (enter final : π → ν → Option π) (above : π → π) : Prop where
  stay : ∀ {place}, Dir place → enter place here = some place
  rise : ∀ {place}, Dir place → enter place up = some (above place)
  dir : ∀ {place name place'}, Dir place → enter place name = some place' → Dir place'
  back : ∀ {place name place'}, Proper here up name → enter place name = some place' → above place' = place
  last : ∀ {place name place'}, enter place name = some place' → final place name = some place'

def follow (place : π) : Form ν → Option π
  | (ups, []) => some (above^[ups] place)
  | (ups, name :: entered) => (entered.reverse.foldlM enter (above^[ups] place)).bind (final · name)

variable {Dir : π → Prop} {enter final above}

def Leads (enter : π → ν → Option π) (above : π → π) (place : π) (form : Form ν) (place' : π) : Prop :=
  form.2.reverse.foldlM enter (above^[form.1] place) = some place'

omit [DecidableEq ν] in
theorem leads_cons {place place' : π} {ups : Nat} {entered : List ν} :
    Leads enter above place (ups, name :: entered) place' ↔
      ∃ middle, Leads enter above place (ups, entered) middle ∧ enter middle name = some place' := by
  simp [Leads, foldlM_append, bind_eq_some_iff]

section
variable (hrev : Reversible here up Dir enter final above)
include hrev

omit [DecidableEq ν] in
theorem Reversible.leads_dir {place place' : π}
    (hplace : Dir place) {form : Form ν} (h : Leads enter above place form place') : Dir place' := by
  obtain ⟨ups, entered⟩ := form
  induction entered generalizing place' with
  | nil =>
    obtain rfl := some.inj h
    clear h
    induction ups with
    | zero => exact hplace
    | succ ups ih =>
      rw [Function.iterate_succ_apply']
      exact hrev.dir ih (hrev.rise ih)
  | cons name entered ih =>
    obtain ⟨middle, hmiddle, hname⟩ := leads_cons.mp h
    exact hrev.dir (ih hmiddle) hname

theorem Reversible.leads_step {place place' place'' : π}
    (hplace : Dir place) {form : Form ν} (hproper : ∀ name ∈ form.2, Proper here up name)
    (hform : Leads enter above place form place') (hname : enter place' name = some place'') :
    Leads enter above place (step here up form name) place'' := by
  have hdir := hrev.leads_dir hplace hform
  obtain ⟨ups, entered⟩ := form
  rw [step]
  split
  · next hhere =>
    rw [hhere, hrev.stay hdir] at hname
    exact some.inj hname ▸ hform
  · split
    · next hup =>
      rw [hup, hrev.rise hdir] at hname
      cases hname
      cases entered with
      | nil =>
        cases hform
        exact congrArg some (Function.iterate_succ_apply' above ups place)
      | cons last entered =>
        obtain ⟨middle, hmiddle, hlast⟩ := leads_cons.mp hform
        rw [hrev.back (hproper last mem_cons_self) hlast]
        exact hmiddle
    · exact leads_cons.mpr ⟨place', hform, hname⟩

theorem Reversible.leads_form {place place' : π} (hplace : Dir place)
    (h : names.foldlM enter place = some place') : Leads enter above place (form here up names) place' := by
  induction names using reverseRecOn generalizing place' with
  | nil => exact h
  | append_singleton names name ih =>
    rw [foldlM_append] at h
    obtain ⟨middle, hmiddle, hname⟩ := bind_eq_some_iff.mp h
    rw [form_append_singleton]
    refine hrev.leads_step hplace (proper_of_mem_form names) (ih hmiddle) ?_
    simpa using hname

omit [DecidableEq ν] in
theorem Reversible.follow_of_leads {place place' : π} {form : Form ν}
    (h : Leads enter above place form place') : follow enter final above place form = some place' := by
  obtain ⟨ups, entered⟩ := form
  cases entered with
  | nil => exact h
  | cons name entered =>
    obtain ⟨middle, hmiddle, hname⟩ := leads_cons.mp h
    rw [follow, show entered.reverse.foldlM enter (above^[ups] place) = some middle from hmiddle]
    exact hrev.last hname

theorem Reversible.follow_form {place middle place' : π}
    (hplace : Dir place) (h : names.foldlM enter place = some middle) (hname : final middle name = some place') :
    follow enter final above place (form here up (names ++ [name])) = some place' := by
  have hleads := hrev.leads_form hplace h
  have hdir := hrev.leads_dir hplace hleads
  rw [form_append_singleton]
  by_cases hproper : Proper here up name
  · rw [step_proper hproper, follow,
      show (form here up names).2.reverse.foldlM enter (above^[(form here up names).1] place) = some middle
        from hleads]
    exact hname
  · obtain ⟨place₁, hplace₁⟩ : ∃ place₁, enter middle name = some place₁ := by
      rcases not_and_or.mp hproper with hhere | hup
      · exact ⟨_, not_not.mp hhere ▸ hrev.stay hdir⟩
      · exact ⟨_, not_not.mp hup ▸ hrev.rise hdir⟩
    cases (hrev.last hplace₁).symm.trans hname
    exact hrev.follow_of_leads (hrev.leads_step hplace (proper_of_mem_form names) hleads hplace₁)

end

end
end Lexical
