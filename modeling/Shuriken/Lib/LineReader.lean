import Mathlib.Data.List.TakeWhile
import Shuriken.Lib.Except

/-!
# Readers of texts that consist of lines

A reader takes something from the front of a text. What it gives may depend on more of the text than it takes.
-/

abbrev LineReader (β ε α : Type) : Type := StateT (List β) (Except ε) α

namespace LineReader
open List
variable {β ε α γ σ : Type}

/-- The texts are the same up to the end of the first line. -/
def SameLine (newline : β) (text text' : List β) : Prop :=
  ∃ line rest rest', newline ∈ line ∧ text = line ++ rest ∧ text' = line ++ rest'

section
variable (newline : β)

/-- Whenever the reader gives `a`, it has not looked further than the line in which it stops. -/
def InsideFor (m : LineReader β ε α) (a : α) : Prop := ∀ ⦃text rest⦄, m.run text = .ok (a, rest) →
    ∃ taken, text = taken ++ rest ∧ ∀ rest', SameLine newline rest rest' → m.run (taken ++ rest') = .ok (a, rest')

/-- Whenever the reader gives `a`, it has taken a newline, and has not looked at what follows. -/
def ToEndFor (m : LineReader β ε α) (a : α) : Prop := ∀ ⦃text rest⦄, m.run text = .ok (a, rest) →
    ∃ taken, text = taken ++ rest ∧ newline ∈ taken ∧ ∀ rest', m.run (taken ++ rest') = .ok (a, rest')

def Inside (m : LineReader β ε α) : Prop := ∀ a, InsideFor newline m a

def ToEnd (m : LineReader β ε α) : Prop := ∀ a, ToEndFor newline m a

end

variable {newline : β} {m : LineReader β ε α} {f : α → LineReader β ε γ} {a : α} {b : γ}

variable {text text' rest : List β} {g : α → γ}

theorem SameLine.append_left (h : SameLine newline text text') (taken : List β) :
    SameLine newline (taken ++ text) (taken ++ text') := by
  obtain ⟨line, rest, rest', hline, rfl, rfl⟩ := h
  exact ⟨taken ++ line, rest, rest', mem_append_right taken hline, (append_assoc _ _ _).symm, (append_assoc _ _ _).symm⟩

theorem sameLine_of_mem {taken : List β} (h : newline ∈ taken) (rest rest' : List β) :
    SameLine newline (taken ++ rest) (taken ++ rest') :=
  ⟨taken, rest, rest', h, rfl, rfl⟩

section
variable (h : SameLine newline text text')
include h

theorem SameLine.symm : SameLine newline text' text := by
  obtain ⟨line, rest, rest', hline, htext, htext'⟩ := h
  exact ⟨line, rest', rest, hline, htext', htext⟩

theorem SameLine.ne_nil : text' ≠ [] := by
  obtain ⟨line, rest, rest', hline, -, rfl⟩ := h
  exact append_ne_nil_of_left_ne_nil (ne_nil_of_mem hline) rest'

theorem SameLine.starts {start : List β} (hstart : newline ∉ start.dropLast)
    (htext : text = start ++ rest) : ∃ rest', text' = start ++ rest' := by
  obtain ⟨line, more, more', hline, rfl, rfl⟩ := h
  rcases append_eq_append_iff.mp htext with ⟨extra, rfl, -⟩ | ⟨extra, rfl, -⟩
  · cases extra with
    | nil => exact ⟨more', by rw [append_nil]⟩
    | cons b extra =>
      rw [dropLast_append_of_ne_nil (cons_ne_nil b extra)] at hstart
      exact absurd (mem_append_left _ hline) hstart
  · exact ⟨extra ++ more', append_assoc _ _ _⟩

theorem SameLine.not_starts {start : List β} (hstart : newline ∉ start.dropLast)
    (htext : ∀ rest, text = start ++ rest → False) (rest' : List β) (htext' : text' = start ++ rest') : False := by
  obtain ⟨rest, hrest⟩ := h.symm.starts hstart htext'
  exact htext rest hrest

end

theorem SameLine.of_append {taken : List β} (h : SameLine newline (taken ++ rest) text') (htaken : newline ∉ taken) :
    ∃ rest', text' = taken ++ rest' ∧ SameLine newline rest rest' := by
  obtain ⟨line, more, more', hline, htext, rfl⟩ := h
  rcases append_eq_append_iff.mp htext with ⟨extra, rfl, rfl⟩ | ⟨extra, rfl, -⟩
  · refine ⟨extra ++ more', append_assoc _ _ _, extra, more, more', ?_, rfl, rfl⟩
    exact (mem_append.mp hline).resolve_left htaken
  · exact absurd (mem_append_left extra hline) htaken

theorem SameLine.while {rest' : List β} {p : β → Bool} (h : SameLine newline (text.dropWhile p) rest') :
    (text.takeWhile p ++ rest').takeWhile p = text.takeWhile p ∧ (text.takeWhile p ++ rest').dropWhile p = rest' := by
  have hall : ∀ b ∈ text.takeWhile p, p b = true := fun b hb => mem_takeWhile_imp hb
  obtain ⟨b, rest, hrest⟩ := exists_cons_of_ne_nil h.symm.ne_nil
  have hb : p b = false := by
    have := head?_dropWhile_not p text
    rw [hrest] at this
    exact this
  obtain ⟨rest'', rfl⟩ := h.starts (show newline ∉ [b].dropLast from nofun) hrest
  constructor
  · rw [takeWhile_append_of_pos hall]
    simp [hb]
  · rw [dropWhile_append_of_pos hall]
    simp [hb]

theorem run_bind_eq_ok : (m >>= f).run text = .ok (b, rest) ↔
      ∃ a middle, m.run text = .ok (a, middle) ∧ (f a).run middle = .ok (b, rest) := by
  rw [StateT.run_bind, Except.bind_eq_ok]
  exact Prod.exists

section
variable (hm : Inside newline m)
include hm

theorem InsideFor.bind (hf : ∀ a, InsideFor newline (f a) b) : InsideFor newline (m >>= f) b := by
  intro text rest hrun
  obtain ⟨a, middle, hfirst, hsecond⟩ := run_bind_eq_ok.mp hrun
  obtain ⟨taken, rfl, hagain⟩ := hm a hfirst
  obtain ⟨taken', rfl, hagain'⟩ := hf a hsecond
  refine ⟨taken ++ taken', (append_assoc _ _ _).symm, fun rest' hsame => ?_⟩
  rw [append_assoc]
  exact run_bind_eq_ok.mpr ⟨a, _, hagain _ (hsame.append_left taken'), hagain' rest' hsame⟩

theorem Inside.bind (hf : ∀ a, Inside newline (f a)) : Inside newline (m >>= f) :=
  fun b => InsideFor.bind hm fun a => hf a b

theorem ToEndFor.bind (hf : ∀ a, ToEndFor newline (f a) b) : ToEndFor newline (m >>= f) b := by
  intro text rest hrun
  obtain ⟨a, middle, hfirst, hsecond⟩ := run_bind_eq_ok.mp hrun
  obtain ⟨taken, rfl, hagain⟩ := hm a hfirst
  obtain ⟨taken', rfl, hnewline, hagain'⟩ := hf a hsecond
  refine ⟨taken ++ taken', (append_assoc _ _ _).symm, mem_append_right taken hnewline, fun rest' => ?_⟩
  rw [append_assoc]
  exact run_bind_eq_ok.mpr ⟨a, _, hagain _ (sameLine_of_mem hnewline rest rest'), hagain' rest'⟩

theorem ToEnd.bind (hf : ∀ a, ToEnd newline (f a)) : ToEnd newline (m >>= f) :=
  fun b => ToEndFor.bind hm fun a => hf a b

end

theorem run_lift_eq_ok {x : Except ε α} :
    (liftM x : LineReader β ε α).run text = .ok (a, rest) ↔ x = .ok a ∧ text = rest := by
  cases x with
  | error e => exact ⟨nofun, nofun⟩
  | ok a' =>
    constructor
    · intro h
      cases h
      exact ⟨rfl, rfl⟩
    · rintro ⟨h, rfl⟩
      cases h
      rfl

theorem run_pure_eq_ok {a' : α} :
    (Pure.pure a' : LineReader β ε α).run text = .ok (a, rest) ↔ a' = a ∧ text = rest := by
  constructor
  · intro h
    cases h
    exact ⟨rfl, rfl⟩
  · rintro ⟨rfl, rfl⟩
    rfl

theorem run_map_eq_ok : (g <$> m).run text = .ok (b, rest) ↔ ∃ a, m.run text = .ok (a, rest) ∧ g a = b := by
  rw [map_eq_pure_bind, run_bind_eq_ok]
  constructor
  · rintro ⟨a, middle, hrun, hpure⟩
    obtain ⟨hb, rfl⟩ := run_pure_eq_ok.mp hpure
    exact ⟨a, hrun, hb⟩
  · rintro ⟨a, hrun, rfl⟩
    exact ⟨a, rest, hrun, rfl⟩

theorem Inside.lift (x : Except ε α) : Inside newline (liftM x : LineReader β ε α) := by
  intro a text rest hrun
  obtain ⟨hx, rfl⟩ := run_lift_eq_ok.mp hrun
  exact ⟨[], rfl, fun rest' _ => run_lift_eq_ok.mpr ⟨hx, rfl⟩⟩

theorem Inside.pure (a : α) : Inside newline (pure a : LineReader β ε α) := Inside.lift (.ok a)

theorem ToEnd.bind_lift {g : α → Except ε γ} (hm : ToEnd newline m) :
    ToEnd newline (m >>= fun a => (liftM (g a) : LineReader β ε γ)) := by
  intro b text rest hrun
  obtain ⟨a, middle, hfirst, hsecond⟩ := run_bind_eq_ok.mp hrun
  obtain ⟨hx, rfl⟩ := run_lift_eq_ok.mp hsecond
  obtain ⟨taken, htext, hnewline, hagain⟩ := hm a hfirst
  refine ⟨taken, htext, hnewline, fun rest' => ?_⟩
  exact run_bind_eq_ok.mpr ⟨a, rest', hagain rest', run_lift_eq_ok.mpr ⟨hx, rfl⟩⟩

theorem Inside.map (hm : Inside newline m) : Inside newline (g <$> m) := by
  rw [map_eq_pure_bind]
  exact hm.bind fun _ => .pure _

theorem ToEnd.bind_pure (hm : ToEnd newline m) : ToEnd newline (m >>= fun a => (Pure.pure (g a) : LineReader β ε γ)) :=
  ToEnd.bind_lift (g := fun a => .ok (g a)) hm

/-- At most so many rounds, until one of them gives a result -/
def loopN (e : ε) (round : σ → LineReader β ε (σ ⊕ α)) : Nat → σ → LineReader β ε α
  | 0, _ => throw e
  | n + 1, s => round s >>= Sum.elim (loopN e round n) Pure.pure

/-- Rounds that go on take something, so that the length of the text is enough for their number. -/
def loop (e : ε) (round : σ → LineReader β ε (σ ⊕ α)) (s : σ) : LineReader β ε α := fun text =>
  loopN e round (text.length + 1) s text

/-- The rounds from a state to a result -/
inductive Rounds (round : σ → LineReader β ε (σ ⊕ α)) : σ → List β → α → List β → Prop
  | stop {s text a rest} : (round s).run text = .ok (.inr a, rest) → Rounds round s text a rest
  | more {s text s' middle a rest} :
      (round s).run text = .ok (.inl s', middle) → Rounds round s' middle a rest → Rounds round s text a rest

section
variable {e : ε} {round : σ → LineReader β ε (σ ⊕ α)} {s : σ} {text rest : List β}

theorem rounds_of_loopN {n : Nat} (h : (loopN e round n s).run text = .ok (a, rest)) : Rounds round s text a rest := by
  induction n generalizing s text with
  | zero => nomatch h
  | succ n ih =>
    obtain ⟨result, middle, hround, hrest⟩ := run_bind_eq_ok.mp h
    cases result with
    | inl s' => exact .more hround (ih hrest)
    | inr a' =>
      obtain ⟨rfl, rfl⟩ := run_pure_eq_ok.mp hrest
      exact .stop hround

section
variable (hprogress : ∀ {s text s' middle}, (round s).run text = .ok (.inl s', middle) → middle.length < text.length)
include hprogress

theorem loopN_of_rounds (h : Rounds round s text a rest) {n : Nat} (hn : text.length < n) :
    (loopN e round n s).run text = .ok (a, rest) := by
  induction h generalizing n with
  | stop hround =>
    obtain ⟨n, rfl⟩ := Nat.exists_eq_succ_of_ne_zero (Nat.ne_zero_of_lt hn)
    exact run_bind_eq_ok.mpr ⟨_, _, hround, rfl⟩
  | more hround _ ih =>
    obtain ⟨n, rfl⟩ := Nat.exists_eq_succ_of_ne_zero (Nat.ne_zero_of_lt hn)
    have hless := hprogress hround
    exact run_bind_eq_ok.mpr ⟨_, _, hround, ih (by omega)⟩

theorem run_loop_eq_ok : (loop e round s).run text = .ok (a, rest) ↔ Rounds round s text a rest :=
  ⟨rounds_of_loopN, fun h => loopN_of_rounds hprogress h (Nat.lt_succ_self _)⟩

end

variable (hprogress : ∀ {s text s' middle}, (round s).run text = .ok (.inl s', middle) → middle.length < text.length)
include hprogress

theorem InsideFor.loop (hmore : ∀ s s', InsideFor newline (round s) (.inl s'))
    (hstop : ∀ s, InsideFor newline (round s) (.inr a)) : InsideFor newline (loop e round s) a := by
  intro text rest hrun
  have hrounds := (run_loop_eq_ok hprogress).mp hrun
  have hagain : ∃ taken, text = taken ++ rest ∧
      ∀ rest', SameLine newline rest rest' → Rounds round s (taken ++ rest') a rest' := by
    clear hrun
    induction hrounds with
    | stop hround =>
      obtain ⟨taken, htext, hagain⟩ := hstop _ hround
      exact ⟨taken, htext, fun rest' hsame => .stop (hagain rest' hsame)⟩
    | more hround _ ih =>
      obtain ⟨taken', rfl, hagain'⟩ := ih hstop
      obtain ⟨taken, htext, hagain⟩ := hmore _ _ hround
      refine ⟨taken ++ taken', htext.trans (append_assoc _ _ _).symm, fun rest' hsame => ?_⟩
      rw [append_assoc]
      exact .more (hagain _ (hsame.append_left taken')) (hagain' rest' hsame)
  obtain ⟨taken, htext, hagain⟩ := hagain
  exact ⟨taken, htext, fun rest' hsame => (run_loop_eq_ok hprogress).mpr (hagain rest' hsame)⟩

theorem ToEndFor.loop (hmore : ∀ s s', InsideFor newline (round s) (.inl s'))
    (hstop : ∀ s, ToEndFor newline (round s) (.inr a)) : ToEndFor newline (loop e round s) a := by
  intro text rest hrun
  have hrounds := (run_loop_eq_ok hprogress).mp hrun
  have hagain : ∃ taken, text = taken ++ rest ∧ newline ∈ taken ∧ ∀ rest', Rounds round s (taken ++ rest') a rest' := by
    clear hrun
    induction hrounds with
    | stop hround =>
      obtain ⟨taken, htext, hnewline, hagain⟩ := hstop _ hround
      exact ⟨taken, htext, hnewline, fun rest' => .stop (hagain rest')⟩
    | more hround _ ih =>
      obtain ⟨taken', rfl, hnewline, hagain'⟩ := ih hstop
      obtain ⟨taken, htext, hagain⟩ := hmore _ _ hround
      refine ⟨taken ++ taken', htext.trans (append_assoc _ _ _).symm, mem_append_right taken hnewline, fun rest' => ?_⟩
      rw [append_assoc]
      exact .more (hagain _ (sameLine_of_mem hnewline _ rest')) (hagain' rest')
  obtain ⟨taken, htext, hnewline, hagain⟩ := hagain
  exact ⟨taken, htext, hnewline, fun rest' => (run_loop_eq_ok hprogress).mpr (hagain rest')⟩

end
end LineReader
