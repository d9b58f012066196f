import Mathlib.Data.List.TakeWhile

/-!
# Names between separators

A text is read as the names that stand between separators. Empty names do not
count, so that separators may be repeated, and may stand at both ends.
-/
namespace Names
open List

variable {α : Type*} [DecidableEq α] (sep : α)

def names : List α → List (List α)
  | [] => []
  | c :: text =>
    if c = sep then names text
    else if text.head?.getD sep = sep then [c] :: names text
    else (names text).modifyHead (c :: ·)

def terminate (ns : List (List α)) : List α := ns.flatMap (· ++ [sep])

def IsName (name : List α) : Prop := name ≠ [] ∧ sep ∉ name

variable {sep}

@[simp] theorem names_nil : names sep [] = [] := rfl

@[simp] theorem names_sep (text : List α) : names sep (sep :: text) = names sep text := by
  rw [names, if_pos rfl]

variable {c : α} {text name : List α}

theorem names_ne_nil (hc : c ≠ sep) (text : List α) : names sep (c :: text) ≠ [] := by
  induction text generalizing c with
  | nil => simp [names, hc]
  | cons d text ih =>
    rw [names, if_neg hc]
    by_cases hd : d = sep
    · simp [hd]
    · simpa [hd] using ih hd

theorem eq_sep_of_names_eq_nil (h : names sep text = []) (hc : c ∈ text) : c = sep := by
  induction text with
  | nil => nomatch hc
  | cons d text ih =>
    by_cases hd : d = sep
    · rw [hd, names_sep] at h
      rcases mem_cons.mp hc with rfl | hc
      · exact hd
      · exact ih h hc
    · exact absurd h (names_ne_nil hd text)

theorem names_append_sep (text₁ text₂ : List α) :
    names sep (text₁ ++ sep :: text₂) = names sep text₁ ++ names sep text₂ := by
  induction text₁ with
  | nil => simp
  | cons c text₁ ih =>
    rw [cons_append, names, names, ih]
    by_cases hc : c = sep
    · simp [hc]
    · rw [if_neg hc, if_neg hc]
      cases text₁ with
      | nil => simp
      | cons d text₁ =>
        by_cases hd : d = sep
        · simp [hd]
        · obtain ⟨name, ns, hnames⟩ := exists_cons_of_ne_nil (names_ne_nil hd text₁)
          simp [hd, hnames]

theorem names_of_isName (h : IsName sep name) : names sep name = [name] := by
  obtain ⟨hnonempty, hsep⟩ := h
  induction name with
  | nil => exact absurd rfl hnonempty
  | cons c name ih =>
    obtain ⟨hc, hname⟩ := not_or.mp (mt mem_cons.mpr hsep)
    rw [names, if_neg (Ne.symm hc)]
    cases name with
    | nil => simp
    | cons d name =>
      have hd : d ≠ sep := fun h => hname (h ▸ mem_cons_self)
      rw [ih (cons_ne_nil _ _) hname]
      simp [hd]

theorem names_terminate {ns : List (List α)} (h : ∀ name ∈ ns, IsName sep name) :
    names sep (terminate sep ns) = ns := by
  induction ns with
  | nil => rfl
  | cons name ns ih =>
    obtain ⟨hname, hns⟩ := forall_mem_cons.mp h
    rw [terminate, flatMap_cons, append_assoc, singleton_append, names_append_sep, names_of_isName hname]
    exact congrArg (name :: ·) (ih hns)

omit [DecidableEq α] in
@[simp] theorem terminate_append (ns₁ ns₂ : List (List α)) :
    terminate sep (ns₁ ++ ns₂) = terminate sep ns₁ ++ terminate sep ns₂ := by
  simp [terminate]

omit [DecidableEq α] in
@[simp] theorem terminate_singleton (name : List α) : terminate sep [name] = name ++ [sep] := by
  simp [terminate]

omit [DecidableEq α] in
theorem terminate_eq_intercalate {ns : List (List α)} (h : ns ≠ []) :
    terminate sep ns = [sep].intercalate ns ++ [sep] := by
  induction ns with
  | nil => exact absurd rfl h
  | cons name ns ih =>
    cases ns with
    | nil => simp [terminate]
    | cons name' ns =>
      rw [intercalate_cons_cons, append_assoc, ← ih (cons_ne_nil _ _)]
      rfl

omit [DecidableEq α] in
theorem dropLast_terminate (ns : List (List α)) : (terminate sep ns).dropLast = [sep].intercalate ns := by
  cases ns with
  | nil => rfl
  | cons name ns => rw [terminate_eq_intercalate (cons_ne_nil _ _), dropLast_concat]

theorem names_append_singleton_sep (text : List α) : names sep (text ++ [sep]) = names sep text := by
  rw [names_append_sep, names_nil, append_nil]

theorem isName_takeWhile (hc : c ≠ sep) : IsName sep ((c :: text).takeWhile (· != sep)) := by
  constructor
  · simp [hc]
  · intro hmem
    simpa using mem_takeWhile_imp hmem

theorem head?_dropWhile_sep (text : List α) : (text.dropWhile (· != sep)).head?.getD sep = sep := by
  cases h : text.dropWhile (· != sep) with
  | nil => rfl
  | cons c rest =>
    simpa [h] using head_dropWhile_not (p := (· != sep)) (l := text) (by simp [h])

omit [DecidableEq α] in
/-- Where a name ends there is a separator, or nothing. -/
theorem head?_getD_sep (h : text.head?.getD sep = sep) : text = [] ∨ ∃ rest, text = sep :: rest := by
  cases text with
  | nil => exact .inl rfl
  | cons c rest => exact .inr ⟨rest, congrArg (· :: rest) h⟩

theorem names_append_of_isName (hname : IsName sep name) (h : text.head?.getD sep = sep) :
    names sep (name ++ text) = name :: names sep (text.drop 1) := by
  rcases head?_getD_sep h with rfl | ⟨rest, rfl⟩
  · simp [names_of_isName hname]
  · simp [names_append_sep, names_of_isName hname]

@[elab_as_elim]
theorem text_induction {motive : List α → Prop} (text : List α) (nil : motive [])
    (skip : ∀ text, motive text → motive (sep :: text))
    (name : ∀ name text, IsName sep name → text.head?.getD sep = sep → motive (text.drop 1) → motive (name ++ text)) :
    motive text := by
  induction hlength : text.length using Nat.strong_induction_on generalizing text with
  | _ length ih =>
    cases text with
    | nil => exact nil
    | cons c text =>
      subst hlength
      by_cases hc : c = sep
      · subst hc
        exact skip text (ih _ (Nat.lt_succ_self _) text rfl)
      · have hsplit := takeWhile_append_dropWhile (p := (· != sep)) (l := c :: text)
        have hname : IsName sep ((c :: text).takeWhile (· != sep)) := isName_takeWhile hc
        have hshort := congrArg length hsplit
        have hpositive := length_pos_iff.mpr hname.1
        rw [length_append] at hshort
        rw [← hsplit]
        refine name _ _ hname (head?_dropWhile_sep _) (ih _ ?_ _ rfl)
        rw [length_drop]
        omega

theorem isName_of_mem_names (h : name ∈ names sep text) : IsName sep name := by
  induction text generalizing name with
  | nil => nomatch h
  | cons c text ih =>
    rw [names] at h
    split at h
    · exact ih h
    · next hc =>
      have hsep : sep ≠ c := Ne.symm hc
      split at h
      · rcases mem_cons.mp h with rfl | h
        · exact ⟨cons_ne_nil _ _, by simpa using hsep⟩
        · exact ih h
      · cases hnames : names sep text with
        | nil =>
          rw [hnames] at h
          nomatch h
        | cons first ns =>
          rw [hnames, modifyHead_cons] at h
          rcases mem_cons.mp h with rfl | h
          · have hfirst := ih (hnames ▸ mem_cons_self)
            exact ⟨cons_ne_nil _ _, by simpa using ⟨hsep, hfirst.2⟩⟩
          · exact ih (hnames ▸ mem_cons_of_mem first h)

theorem mem_of_mem_names (h : name ∈ names sep text) (hc : c ∈ name) : c ∈ text := by
  induction text generalizing name with
  | nil => nomatch h
  | cons d text ih =>
    rw [names] at h
    split at h
    · exact mem_cons_of_mem d (ih h hc)
    · split at h
      · rcases mem_cons.mp h with rfl | h
        · exact mem_singleton.mp hc ▸ mem_cons_self
        · exact mem_cons_of_mem d (ih h hc)
      · cases hnames : names sep text with
        | nil =>
          rw [hnames] at h
          nomatch h
        | cons first ns =>
          rw [hnames, modifyHead_cons] at h
          rcases mem_cons.mp h with rfl | h
          · rcases mem_cons.mp hc with rfl | hc
            · exact mem_cons_self
            · exact mem_cons_of_mem d (ih (hnames ▸ mem_cons_self) hc)
          · exact mem_cons_of_mem d (ih (hnames ▸ mem_cons_of_mem first h) hc)

end Names
