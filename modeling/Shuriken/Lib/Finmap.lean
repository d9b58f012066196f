import Mathlib.Data.Finmap

/-!
# Finite maps

Lookups in a changed map, the insertion `Finmap.emplace` that leaves a key that
is already there alone, and the number of keys.
-/
namespace Finmap
open Function
variable {κ ν : Type} [DecidableEq κ]

variable {m : Finmap fun _ : κ => ν} {f : κ → Option ν}

theorem lookup_of_erase {k k' : κ} {v : ν} (h : (m.erase k).lookup k' = some v) : k' ≠ k ∧ m.lookup k' = some v := by
  by_cases hk : k' = k
  · rw [hk, lookup_erase] at h
    nomatch h
  · rw [lookup_erase_ne hk] at h
    exact ⟨hk, h⟩

theorem lookup_of_insert {k k' : κ} {v w : ν} (h : (m.insert k w).lookup k' = some v) :
    (k' = k ∧ v = w) ∨ m.lookup k' = some v := by
  by_cases hk : k' = k
  · rw [hk, lookup_insert] at h
    exact .inl ⟨hk, (Option.some.inj h).symm⟩
  · rw [lookup_insert_of_ne _ hk] at h
    exact .inr h

theorem lookup_insert_eq_update (h : ∀ k, m.lookup k = f k) (k : κ) (v : ν) (k' : κ) :
    (m.insert k v).lookup k' = update f k (some v) k' := by
  by_cases hk : k' = k
  · rw [hk, lookup_insert, update_self]
  · rw [lookup_insert_of_ne _ hk, update_of_ne hk, h]

theorem lookup_erase_eq_update (h : ∀ k, m.lookup k = f k) (k k' : κ) : (m.erase k).lookup k' = update f k none k' := by
  by_cases hk : k' = k
  · rw [hk, lookup_erase, update_self]
  · rw [lookup_erase_ne hk, update_of_ne hk, h]

def emplace (k : κ) (v : ν) (m : Finmap fun _ : κ => ν) : Finmap fun _ : κ => ν :=
  match m.lookup k with
  | some _ => m
  | none => insert k v m

theorem lookup_emplace_self (k : κ) (v : ν) (m : Finmap fun _ : κ => ν) :
    (emplace k v m).lookup k = some ((m.lookup k).getD v) := by
  unfold emplace
  cases h : m.lookup k with
  | some w => exact h
  | none => exact lookup_insert m

theorem lookup_emplace_of_ne {k k' : κ} (v : ν) (m : Finmap fun _ : κ => ν) (h : k' ≠ k) :
    (emplace k v m).lookup k' = m.lookup k' := by
  unfold emplace
  cases hk : m.lookup k with
  | some w => rfl
  | none => exact lookup_insert_of_ne m h

theorem lookup_of_emplace {k k' : κ} {v w : ν} (h : (m.emplace k w).lookup k' = some v) :
    (k' = k ∧ v = w) ∨ m.lookup k' = some v := by
  rw [Finmap.emplace] at h
  split at h
  · exact .inr h
  · exact lookup_of_insert h

theorem lookup_emplace_eq_none {k k' : κ} {v : ν} : (m.emplace k v).lookup k' = none ↔ k' ≠ k ∧ m.lookup k' = none := by
  by_cases hk : k' = k
  · rw [hk, lookup_emplace_self]
    simp
  · rw [lookup_emplace_of_ne _ _ hk]
    simp [hk]

@[simp] theorem insert_emplace (k : κ) (v w : ν) (m : Finmap fun _ : κ => ν) :
    insert k v (emplace k w m) = insert k v m := by
  unfold emplace
  cases m.lookup k with
  | some _ => rfl
  | none => exact insert_insert m

variable {ν' : Type} {k : κ} {l : List (κ × ν)}

theorem card_keys_insert (v : ν) (h : m.lookup k = none) : (insert k v m).keys.card = m.keys.card + 1 := by
  have hkeys : (insert k v m).keys = Insert.insert k m.keys := by
    ext a
    rw [mem_keys, mem_insert, Finset.mem_insert, mem_keys]
  rw [hkeys, Finset.card_insert_of_notMem]
  rw [mem_keys]
  exact lookup_eq_none.mp h

theorem keys_eq_of_isSome {m' : Finmap fun _ : κ => ν'} (h : ∀ k, (m.lookup k).isSome = (m'.lookup k).isSome) :
    m.keys = m'.keys := by
  ext k
  rw [mem_keys, mem_keys, ← lookup_isSome, ← lookup_isSome, h]

omit [DecidableEq κ] in
theorem card_keys_toFinmap (l : AList fun _ : κ => ν) : l.toFinmap.keys.card = l.entries.length :=
  List.length_map Sigma.fst

theorem any_of_lookup {f : κ → ν → Bool} {v : ν} (h : m.lookup k = some v) (hf : f k v = true) : m.any f = true := by
  have hfold : ∀ (l : List (Sigma fun _ : κ => ν)) (b : Bool), (b = true ∨ ⟨k, v⟩ ∈ l) →
      l.foldl (fun d s => d || f s.1 s.2) b = true := by
    intro l
    induction l with
    | nil => exact fun b hb => hb.resolve_right List.not_mem_nil
    | cons s l ih =>
      intro b hb
      refine ih _ ?_
      rcases hb with rfl | hmem
      · exact .inl (Bool.true_or _)
      · rcases List.mem_cons.mp hmem with rfl | hmem
        · exact .inl (Bool.or_eq_true_iff.mpr (.inr hf))
        · exact .inr hmem
  induction m using Finmap.induction_on with
  | _ l => exact hfold l.entries false (.inr (AList.mem_lookup_iff.mp h))

theorem lookup_foldl_insert_of_notMem (h : k ∉ l.map Prod.fst) (m : Finmap fun _ : κ => ν) :
    (l.foldl (fun m e => insert e.1 e.2 m) m).lookup k = m.lookup k := by
  induction l generalizing m with
  | nil => rfl
  | cons e l ih =>
    rw [List.map_cons, List.mem_cons, not_or] at h
    exact (ih h.2 _).trans (lookup_insert_of_ne m h.1)

theorem lookup_foldl_insert (hnodup : (l.map Prod.fst).Nodup) {e : κ × ν} (h : e ∈ l) (m : Finmap fun _ : κ => ν) :
    (l.foldl (fun m e => insert e.1 e.2 m) m).lookup e.1 = some e.2 := by
  induction l generalizing m with
  | nil => nomatch h
  | cons e' l ih =>
    obtain ⟨hnot, hnodup⟩ := List.nodup_cons.mp hnodup
    rcases List.mem_cons.mp h with rfl | h
    · exact (lookup_foldl_insert_of_notMem hnot _).trans (lookup_insert m)
    · exact ih hnodup h _

end Finmap
