import Mathlib.Data.List.Forall2
import Mathlib.Logic.Relation

/-!
# Computations that can fail

Inversion of a successful `Except` computation, one step at a time, and runs of steps that are not
always possible.
-/
namespace Except
open Option List Except
variable {ε ε' α β : Type}

variable {x : Except ε α} {f : α → Except ε β} {e : ε} {a : α} {σ : Type} {s : σ} {as : List α}

theorem bind_eq_ok {b : β} : x >>= f = .ok b ↔ ∃ a, x = .ok a ∧ f a = .ok b := by
  cases x with
  | error e =>
    constructor
    · intro h
      cases h
    · rintro ⟨a, h, -⟩
      cases h
  | ok a =>
    constructor
    · intro h
      exact ⟨a, rfl, h⟩
    · rintro ⟨a', h, hf⟩
      cases h
      exact hf

theorem bind_eq_error : x >>= f = .error e ↔ x = .error e ∨ ∃ a, x = .ok a ∧ f a = .error e := by
  cases x with
  | error e' =>
    constructor
    · intro h
      cases h
      exact .inl rfl
    · rintro (h | ⟨a, h, -⟩)
      · cases h
        rfl
      · cases h
  | ok a =>
    constructor
    · intro h
      exact .inr ⟨a, rfl, h⟩
    · rintro (h | ⟨a', h, hf⟩)
      · cases h
      · cases h
        exact hf

@[simp] theorem pure_eq_ok {b : α} : (pure a : Except ε α) = .ok b ↔ a = b := ⟨ok.inj, congrArg _⟩

theorem map_eq_ok {f : α → β} {b : β} : x.map f = .ok b ↔ ∃ a, x = .ok a ∧ f a = b := by
  cases x with
  | error e => simp only [Except.map, reduceCtorEq, false_and, exists_false]
  | ok a => simp only [Except.map, ok.injEq, exists_eq_left']

@[simp] theorem mapError_eq_ok {f : ε → ε'} : x.mapError f = .ok a ↔ x = .ok a := by
  cases x with
  | error e => simp only [Except.mapError, reduceCtorEq]
  | ok b => simp only [Except.mapError, ok.injEq]

theorem mapError_eq_error {f : ε → ε'} {e' : ε'} : x.mapError f = .error e' ↔ ∃ e, x = .error e ∧ f e = e' := by
  cases x with
  | error e => simp only [Except.mapError, error.injEq, exists_eq_left']
  | ok b => simp only [Except.mapError, reduceCtorEq, false_and, exists_false]

theorem toOption_eq_some : x.toOption = some a ↔ x = .ok a := by
  cases x with
  | error e => simp only [Except.toOption, reduceCtorEq]
  | ok b => simp only [Except.toOption, some.injEq, ok.injEq]

/-- What is said about the result of a computation, if there is one, can be checked. -/
instance decidableForallOk {x : Except ε α} {p : α → Prop} [DecidablePred p] : Decidable (∀ a, x = .ok a → p a) :=
  match x with
  | .error _ => .isTrue nofun
  | .ok a => decidable_of_iff (p a) ⟨fun h _ heq => ok.inj heq ▸ h, fun h => h a rfl⟩

theorem foldlM_cons_of_ok {f : σ → α → Except ε σ} {s' : σ} (h : f s a = .ok s') :
    (a :: as).foldlM f s = as.foldlM f s' := by
  rw [foldlM_cons, h]
  rfl

theorem foldlM_invariant {f : σ → α → Except ε σ} {P : σ → Prop} {s' : σ}
    (hf : ∀ s a s', a ∈ as → P s → f s a = .ok s' → P s') (hs : P s) (h : as.foldlM f s = .ok s') : P s' := by
  induction as generalizing s with
  | nil => exact ok.inj h ▸ hs
  | cons a as ih =>
    rw [foldlM_cons] at h
    obtain ⟨s₁, ha, h⟩ := bind_eq_ok.mp h
    exact ih (fun s a' s' ha' => hf s a' s' (List.mem_cons_of_mem a ha'))
      (hf s a s₁ List.mem_cons_self hs ha) h

theorem foldlM_succeeds {f : σ → α → Except ε σ} {P : List α → σ → Prop} {done : List α}
    (hf : ∀ done s, ∀ a ∈ as, P done s → ∃ s', f s a = .ok s' ∧ P (done ++ [a]) s') (hs : P done s) :
    ∃ s', as.foldlM f s = .ok s' ∧ P (done ++ as) s' := by
  induction as generalizing done s with
  | nil => exact ⟨s, rfl, (append_nil done).symm ▸ hs⟩
  | cons a as ih =>
    obtain ⟨s₁, ha, hs₁⟩ := hf done s a List.mem_cons_self hs
    obtain ⟨s', has, hs'⟩ := ih (fun done s a' ha' => hf done s a' (List.mem_cons_of_mem a ha')) hs₁
    rw [append_assoc] at hs'
    exact ⟨s', (foldlM_cons_of_ok ha).trans has, hs'⟩

theorem exists_of_foldlM_eq_error {f : σ → α → Except ε σ} (h : as.foldlM f s = .error e) :
    ∃ s, ∃ a ∈ as, f s a = .error e := by
  induction as generalizing s with
  | nil => nomatch h
  | cons a as ih =>
    rw [foldlM_cons] at h
    rcases bind_eq_error.mp h with h | ⟨s', -, h⟩
    · exact ⟨s, a, List.mem_cons_self, h⟩
    · obtain ⟨s, a', ha', h⟩ := ih h
      exact ⟨s, a', List.mem_cons_of_mem a ha', h⟩

theorem mapM_succeeds_iff : (∃ bs, as.mapM f = .ok bs) ↔ ∀ a ∈ as, ∃ b, f a = .ok b := by
  induction as with
  | nil => exact ⟨nofun, fun _ => ⟨[], rfl⟩⟩
  | cons a as ih =>
    rw [forall_mem_cons, ← ih, mapM_cons]
    constructor
    · rintro ⟨bs, h⟩
      obtain ⟨b, hb, h⟩ := bind_eq_ok.mp h
      obtain ⟨bs', hbs', -⟩ := bind_eq_ok.mp h
      exact ⟨⟨b, hb⟩, ⟨bs', hbs'⟩⟩
    · rintro ⟨⟨b, hb⟩, ⟨bs, hbs⟩⟩
      exact ⟨b :: bs, bind_eq_ok.mpr ⟨b, hb, bind_eq_ok.mpr ⟨bs, hbs, rfl⟩⟩⟩

theorem forall₂_of_mapM {bs : List β} (h : as.mapM f = .ok bs) : List.Forall₂ (fun a b => f a = .ok b) as bs := by
  induction as generalizing bs with
  | nil => exact ok.inj h ▸ .nil
  | cons a as ih =>
    rw [mapM_cons] at h
    obtain ⟨b, hb, h⟩ := bind_eq_ok.mp h
    obtain ⟨bs', hbs', h⟩ := bind_eq_ok.mp h
    exact ok.inj h ▸ .cons hb (ih hbs')

theorem exists_of_mapM_eq_error (h : as.mapM f = .error e) : ∃ a ∈ as, f a = .error e := by
  induction as with
  | nil => nomatch h
  | cons a as ih =>
    rw [mapM_cons] at h
    rcases bind_eq_error.mp h with h | ⟨b, -, h⟩
    · exact ⟨a, List.mem_cons_self, h⟩
    · rcases bind_eq_error.mp h with h | ⟨bs, -, h⟩
      · obtain ⟨a', ha', h⟩ := ih h
        exact ⟨a', List.mem_cons_of_mem a ha', h⟩
      · nomatch h

/-- What a computation returns can be tested. -/
instance decidableExistsOk {P : α → Prop} [DecidablePred P] : Decidable (∃ a, x = .ok a ∧ P a) :=
  match x with
  | .error _ => isFalse fun ⟨_, h, _⟩ => nomatch h
  | .ok a => decidable_of_iff (P a) ⟨fun h => ⟨a, rfl, h⟩, fun ⟨_, h, ha⟩ => ok.inj h ▸ ha⟩

instance decidableEqError [DecidableEq ε] : Decidable (x = .error e) :=
  match x with
  | .error e' => decidable_of_iff (e' = e) ⟨congrArg error, error.inj⟩
  | .ok _ => isFalse nofun

end Except

namespace Option
variable {σ α : Type*} {f : σ → α → Option σ} {s s' : σ} {as : List α}

theorem reaches_of_foldlM {R : σ → σ → Prop} (hf : ∀ s, ∀ a ∈ as, ∀ s', f s a = some s' → R s s')
    (h : as.foldlM f s = some s') : Relation.ReflTransGen R s s' := by
  induction as generalizing s with
  | nil => exact some.inj h ▸ .refl
  | cons a as ih =>
    rw [List.foldlM_cons] at h
    obtain ⟨s₁, ha, h⟩ := bind_eq_some_iff.mp h
    exact .head (hf s a List.mem_cons_self s₁ ha)
      (ih (fun s a' ha' => hf s a' (List.mem_cons_of_mem a ha')) h)

theorem foldlM_invariant {P : σ → Prop} (hf : ∀ s, ∀ a ∈ as, ∀ s', f s a = some s' → P s → P s') (hs : P s)
    (h : as.foldlM f s = some s') : P s' := by
  have hreaches := reaches_of_foldlM (R := fun s s' => P s → P s') hf h
  clear h
  induction hreaches with
  | refl => exact hs
  | tail _ hstep ih => exact hstep ih

/-- The events happen one after the other, each of them when it is allowed. -/
def runIf (next : σ → α → Option σ) (allowed : σ → α → Bool) (s : σ) (events : List α) : Option σ :=
  events.foldlM (fun s event => if allowed s event then next s event else none) s

theorem runIf_invariant {allowed : σ → α → Bool} {P : σ → Prop}
    (hf : ∀ {s a s'}, allowed s a = true → f s a = some s' → P s → P s') (hs : P s)
    (h : runIf f allowed s as = some s') : P s' := by
  refine foldlM_invariant (fun s a _ s' hstep hP => ?_) hs h
  obtain ⟨hallowed, hstep⟩ := ite_none_right_eq_some.mp hstep
  exact hf hallowed hstep hP

instance decidableExistsSome {o : Option α} {P : α → Prop} [DecidablePred P] : Decidable (∃ a, o = some a ∧ P a) :=
  match o with
  | none => isFalse fun ⟨_, h, _⟩ => nomatch h
  | some a => decidable_of_iff (P a) ⟨fun h => ⟨a, rfl, h⟩, fun ⟨_, h, ha⟩ => some.inj h ▸ ha⟩

instance decidableExistsPair {o : Option (α × σ)} {P : α → σ → Prop} [∀ a s, Decidable (P a s)] :
    Decidable (∃ a s, o = some (a, s) ∧ P a s) :=
  decidable_of_iff (∃ p, o = some p ∧ P p.1 p.2)
    ⟨fun ⟨p, h, hp⟩ => ⟨p.1, p.2, h, hp⟩, fun ⟨a, s, h, hp⟩ => ⟨(a, s), h, hp⟩⟩

end Option

-- Definitions of several modules need these instances. With a name of its own, the proof of one is
-- not made an auxiliary lemma of each module again.
instance neZeroTwo : @NeZero Nat Zero.ofOfNat0 2 := ⟨by decide⟩

instance lawfulBEqFin {n : Nat} : LawfulBEq (Fin n) := inferInstance
