import Mathlib.Data.List.Infix

/-!
# Streams of self-delimiting records

A stream is read record by record: a framing finds the first record of what is left, an action then accepts
the record and moves to another state, or rejects it.
-/
namespace RecordStream
open List
variable {β ρ S E : Type}

/-- How records are delimited. A record is recognised by its own symbols only, and no
proper part of one is taken for a record. -/
structure Framing (β ρ E : Type) where
  frame : List β → Except E (ρ × Nat)
  bounds : ∀ {view r n}, frame view = .ok (r, n) → 0 < n ∧ n ≤ view.length
  isolated : ∀ {view r n}, frame view = .ok (r, n) → ∀ rest, frame (view.take n ++ rest) = .ok (r, n)
  torn : ∀ {view r n k}, frame view = .ok (r, n) → k < n → ∃ e, frame (view.take k) = .error e

/-- Where reading stopped: the state, what was not consumed, and why. -/
structure Scan (β S E : Type) where
  state : S
  rest : List β
  error : Option E

/-- A rejected record may leave the state changed. -/
abbrev Action (ρ S E : Type) := S → ρ → Except (E × S) S

def scan (fr : Framing β ρ E) (act : Action ρ S E) : Nat → List β → S → Scan β S E
  | 0, view, s => ⟨s, view, none⟩
  | _ + 1, [], s => ⟨s, [], none⟩
  | fuel + 1, b :: view, s =>
    match fr.frame (b :: view) with
    | .error e => ⟨s, b :: view, some e⟩
    | .ok (r, n) =>
      match act s r with
      | .error (e, s') => ⟨s', b :: view, some e⟩
      | .ok s' => scan fr act fuel ((b :: view).drop n) s'

/-- Every record takes up a symbol, so the length of the stream bounds the loop. -/
def run (fr : Framing β ρ E) (act : Action ρ S E) (view : List β) (s : S) : Scan β S E := scan fr act view.length view s

/-- Reading the given symbols, which are whole records, leads from one state to another. -/
inductive Reads (fr : Framing β ρ E) (act : Action ρ S E) : S → List β → S → Prop where
  | nil (s : S) : Reads fr act s [] s
  | cons {s s' s'' : S} {chunk bytes : List β} {r : ρ} : fr.frame chunk = .ok (r, chunk.length) →
      act s r = .ok s' → Reads fr act s' bytes s'' → Reads fr act s (chunk ++ bytes) s''

/-- Why reading cannot go on at the given symbols; the last argument is the state it leaves. -/
inductive Stops (fr : Framing β ρ E) (act : Action ρ S E) (s : S) : List β → Option E → S → Prop where
  | done : Stops fr act s [] none s
  | unframed {view : List β} {e : E} : view ≠ [] → fr.frame view = .error e → Stops fr act s view (some e) s
  | rejected {view : List β} {r : ρ} {n : Nat} {e : E} {s' : S} : view ≠ [] →
      fr.frame view = .ok (r, n) → act s r = .error (e, s') → Stops fr act s view (some e) s'

section
variable {fr : Framing β ρ E} {act : Action ρ S E} {s s' s'' : S}

theorem Reads.append {xs ys : List β} (h : Reads fr act s xs s') (h' : Reads fr act s' ys s'') :
    Reads fr act s (xs ++ ys) s'' := by
  induction h with
  | nil => exact h'
  | cons hframe hact _ ih =>
    rw [append_assoc]
    exact .cons hframe hact (ih h')

variable {chunk : List β} {r : ρ} {view bytes : List β}

theorem Reads.single (hframe : fr.frame chunk = .ok (r, chunk.length)) (hact : act s r = .ok s') :
    Reads fr act s chunk s' := by
  simpa using Reads.cons hframe hact (.nil s')

theorem frame_append (h : fr.frame chunk = .ok (r, chunk.length)) (rest : List β) :
    fr.frame (chunk ++ rest) = .ok (r, chunk.length) := by
  simpa using fr.isolated h rest

theorem scan_eq_run {fuel : Nat} (h : view.length ≤ fuel) (s : S) : scan fr act fuel view s = run fr act view s := by
  have key : ∀ (n fuel fuel' : Nat) (view : List β) (s : S), view.length ≤ n → view.length ≤ fuel →
      view.length ≤ fuel' → scan fr act fuel view s = scan fr act fuel' view s := by
    intro n
    induction n with
    | zero =>
      intro fuel fuel' view s hn _ _
      obtain rfl := length_eq_zero_iff.mp (Nat.le_zero.mp hn)
      cases fuel <;> cases fuel' <;> rfl
    | succ n ih =>
      intro fuel fuel' view s hn hf hf'
      cases view with
      | nil => cases fuel <;> cases fuel' <;> rfl
      | cons b view =>
        obtain ⟨fuel, rfl⟩ := Nat.exists_eq_add_of_le' (Nat.le_trans (Nat.le_add_left 1 _) hf)
        obtain ⟨fuel', rfl⟩ := Nat.exists_eq_add_of_le' (Nat.le_trans (Nat.le_add_left 1 _) hf')
        simp only [scan]
        split
        · rfl
        · rename_i r k hframe
          split
          · rfl
          · obtain ⟨hpos, -⟩ := fr.bounds hframe
            simp only [length_cons] at hn hf hf'
            apply ih <;> simp only [length_drop, length_cons] <;> omega
  exact key view.length fuel view.length view s le_rfl h le_rfl

@[simp] theorem run_nil (s : S) : run fr act [] s = ⟨s, [], none⟩ := rfl

theorem run_cons {rest : List β} (hframe : fr.frame chunk = .ok (r, chunk.length)) (hact : act s r = .ok s') :
    run fr act (chunk ++ rest) s = run fr act rest s' := by
  have hpos := (fr.bounds hframe).1
  have hwhole := frame_append hframe rest
  cases hview : chunk ++ rest with
  | nil => simp [append_eq_nil_iff.mp hview] at hpos
  | cons b view =>
    rw [hview] at hwhole
    rw [run, length_cons, scan, hwhole]
    simp only [hact]
    rw [← hview, drop_left]
    apply scan_eq_run
    have hlen := congrArg length hview
    simp only [length_append, length_cons] at hlen
    omega

theorem Reads.run_append (h : Reads fr act s bytes s') (rest : List β) :
    run fr act (bytes ++ rest) s = run fr act rest s' := by
  induction h with
  | nil => rfl
  | cons hframe hact _ ih => rw [append_assoc, run_cons hframe hact, ih]

theorem Reads.run_eq (h : Reads fr act s bytes s') : run fr act bytes s = ⟨s', [], none⟩ := by
  simpa using h.run_append []

theorem run_of_stops {error : Option E} (h : Stops fr act s view error s') : run fr act view s = ⟨s', view, error⟩ := by
  cases h with
  | done => rfl
  | unframed hne hframe =>
    obtain ⟨b, view, rfl⟩ := exists_cons_of_ne_nil hne
    simp only [run, length_cons, scan, hframe]
  | rejected hne hframe hact =>
    obtain ⟨b, view, rfl⟩ := exists_cons_of_ne_nil hne
    simp only [run, length_cons, scan, hframe, hact]

/-- Every result of the loop: it read whole records, and then could not go on. -/
theorem run_spec (fr : Framing β ρ E) (act : Action ρ S E) (view : List β) (s : S) :
    ∃ consumed mid, view = consumed ++ (run fr act view s).rest ∧ Reads fr act s consumed mid ∧
      Stops fr act mid (run fr act view s).rest (run fr act view s).error
        (run fr act view s).state := by
  generalize hn : view.length = n
  induction n using Nat.strong_induction_on generalizing view s with
  | _ n ih =>
    cases view with
    | nil => exact ⟨[], s, rfl, .nil s, .done⟩
    | cons b view =>
      cases hframe : fr.frame (b :: view) with
      | error e =>
        have hstop : Stops fr act s (b :: view) (some e) s := .unframed (cons_ne_nil _ _) hframe
        rw [run_of_stops hstop]
        exact ⟨[], s, rfl, .nil s, hstop⟩
      | ok found =>
        obtain ⟨r, k⟩ := found
        cases hact : act s r with
        | error failure =>
          obtain ⟨e, s'⟩ := failure
          have hstop : Stops fr act s (b :: view) (some e) s' := .rejected (cons_ne_nil _ _) hframe hact
          rw [run_of_stops hstop]
          exact ⟨[], s, rfl, .nil s, hstop⟩
        | ok s' =>
          obtain ⟨hpos, hle⟩ := fr.bounds hframe
          have hlen : ((b :: view).take k).length = k := by
            rw [length_take, Nat.min_eq_left hle]
          have hchunk : fr.frame ((b :: view).take k) = .ok (r, ((b :: view).take k).length) := by
            rw [hlen]
            simpa using fr.isolated hframe []
          have hstep : run fr act ((b :: view).take k ++ (b :: view).drop k) s =
              run fr act ((b :: view).drop k) s' := run_cons hchunk hact
          rw [take_append_drop] at hstep
          obtain ⟨consumed, mid, hview, hreads, hstops⟩ := ih ((b :: view).drop k).length (by
              rw [length_drop, ← hn]
              omega) ((b :: view).drop k) s' rfl
          rw [hstep]
          refine ⟨(b :: view).take k ++ consumed, mid, ?_, .cons hchunk hact hreads, hstops⟩
          rw [append_assoc, ← hview, take_append_drop]

end

section
variable {τ : Type} (encode : τ → List β)

/-- The leading records that fit into `k` symbols. -/
def fitting : Nat → List τ → List τ
  | _, [] => []
  | k, r :: rs => if (encode r).length ≤ k then r :: fitting (k - (encode r).length) rs else []

variable {encode}

theorem fitting_leading (k : Nat) (rs : List τ) : fitting encode k rs <+: rs := by
  induction rs generalizing k with
  | nil => exact prefix_rfl
  | cons r rs ih =>
    unfold fitting
    split
    · exact cons_prefix_cons.mpr ⟨rfl, ih _⟩
    · exact nil_prefix

theorem fitting_length_le (k : Nat) (rs : List τ) : ((fitting encode k rs).flatMap encode).length ≤ k := by
  induction rs generalizing k with
  | nil => exact Nat.zero_le k
  | cons r rs ih =>
    unfold fitting
    split
    · have hrest := ih (k - (encode r).length)
      rw [flatMap_cons, length_append]
      omega
    · exact Nat.zero_le k

theorem fitting_maximal {k : Nat} {rs front : List τ} (hfront : front <+: rs)
    (hlen : (front.flatMap encode).length ≤ k) : front <+: fitting encode k rs := by
  induction rs generalizing k front with
  | nil => exact hfront
  | cons r rs ih =>
    cases front with
    | nil => exact nil_prefix
    | cons r' front =>
      obtain ⟨rfl, hrest⟩ := cons_prefix_cons.mp hfront
      rw [flatMap_cons, length_append] at hlen
      rw [fitting, if_pos (by omega)]
      exact cons_prefix_cons.mpr ⟨rfl, ih hrest (by omega)⟩

theorem fitting_of_length_le {k : Nat} {rs : List τ} (h : (rs.flatMap encode).length ≤ k) : fitting encode k rs = rs :=
  (fitting_leading k rs).eq_of_length_le (fitting_maximal prefix_rfl h).length_le

theorem take_flatMap_encode (k : Nat) (rs : List τ) :
    ∃ part, (rs.flatMap encode).take k = (fitting encode k rs).flatMap encode ++ part ∧
      (part = [] ∨ ∃ r ∈ rs, ∃ j < (encode r).length, part = (encode r).take j) := by
  induction rs generalizing k with
  | nil => exact ⟨[], by simp [fitting], .inl rfl⟩
  | cons r rs ih =>
    by_cases hfits : (encode r).length ≤ k
    · obtain ⟨part, htake, hpart⟩ := ih (k - (encode r).length)
      refine ⟨part, ?_, hpart.imp_right fun ⟨r', hr', h⟩ => ⟨r', mem_cons_of_mem _ hr', h⟩⟩
      rw [fitting, if_pos hfits, flatMap_cons, flatMap_cons, take_append, take_of_length_le hfits, htake, append_assoc]
    · refine ⟨(encode r).take k, ?_, .inr ⟨r, mem_cons_self, k, by omega, rfl⟩⟩
      rw [fitting, if_neg hfits, flatMap_cons, take_append_of_le_length (by omega)]
      rfl

end
end RecordStream
