import Mathlib.Algebra.Ring.Nat
import Mathlib.Data.List.Basic
import Mathlib.Tactic.SplitIfs

/-!
# JSON texts

A decoder of objects whose members are lists of strings. It is a machine that reads byte after byte.
-/
namespace Json
open List Option

section
variable {σ α β : Type*} {f : σ → α → Option σ} {print : β → List α} (sep : α) (before after : List β → σ)

/-- A machine reads a list with separators if it reads each of its elements and each separator. -/
theorem foldlM_intercalate {l : List β} (hl : l ≠ []) (done : List β)
    (hprint : ∀ done, ∀ b ∈ l, (print b).foldlM f (before done) = some (after (done ++ [b])))
    (hsep : ∀ done b, f (after (done ++ [b])) sep = some (before (done ++ [b]))) :
    ([sep].intercalate (l.map print)).foldlM f (before done) = some (after (done ++ l)) := by
  induction l generalizing done with
  | nil => exact absurd rfl hl
  | cons b l ih =>
    obtain ⟨hb, hprint⟩ := forall_mem_cons.mp fun b hb done => hprint done b hb
    cases l with
    | nil => simpa [intercalate] using hb done
    | cons b' l =>
      have hrest := ih (cons_ne_nil b' l) (done ++ [b]) fun done b hb => hprint b hb done
      rw [append_assoc, singleton_append, map_cons] at hrest
      rw [map_cons, map_cons, intercalate_cons_cons, foldlM_append, foldlM_append, hb]
      simpa [hsep] using hrest

end

/-- A part of a string: a byte, or the number of a `\u` escape -/
inductive Piece where
  | byte (b : UInt8)
  | unit (u : Nat)

/-- What comes next. Where there is nothing yet, the object or the list may also end. -/
inductive Place where
  | start
  | key (empty : Bool)
  | colon
  | value
  | item (empty : Bool)
  | afterItem
  | afterMember
  | finished
  | text (inKey : Bool) (pieces : List Piece)
  | escaped (inKey : Bool) (pieces : List Piece)
  | unicode (inKey : Bool) (pieces : List Piece) (digits value : Nat)

abbrev Member := List UInt8 × List (List UInt8)

structure State where
  members : List Member := []
  name : List UInt8 := []
  items : List (List UInt8) := []
  place : Place := .start

def utf8 (u : Nat) : List UInt8 := String.utf8EncodeChar (Char.ofNat u)

def isSurrogate (u : Nat) : Bool := 0xD800 ≤ u && u < 0xE000

/-- Of two surrogates, the first one is below `0xDC00`, and they stand for one character. -/
def assemble : List Piece → Option (List UInt8)
  | [] => some []
  | .byte b :: pieces => (assemble pieces).map (b :: ·)
  | .unit u :: .unit v :: pieces =>
    if isSurrogate u && u < 0xDC00 && isSurrogate v && 0xDC00 ≤ v then
      (assemble pieces).map (utf8 (0x10000 + (u - 0xD800) * 0x400 + (v - 0xDC00)) ++ ·)
    else if isSurrogate u then none
    else (assemble (.unit v :: pieces)).map (utf8 u ++ ·)
  | .unit u :: pieces => if isSurrogate u then none else (assemble pieces).map (utf8 u ++ ·)

theorem assemble_map_byte (s : List UInt8) : assemble (s.map .byte) = some s := by
  induction s with
  | nil => rfl
  | cons b s ih => rw [map_cons, assemble, ih, map_some]

def unescape (c : UInt8) : Option UInt8 :=
  [((34 : UInt8), (34 : UInt8)), (92, 92), (47, 47), (98, 8), (102, 12), (110, 10), (114, 13), (116, 9)].lookup c

def hexDigit (c : UInt8) : Option Nat :=
  if 48 ≤ c ∧ c ≤ 57 then some (c.toNat - 48)
  else if 65 ≤ c ∧ c ≤ 70 then some (c.toNat - 55)
  else if 97 ≤ c ∧ c ≤ 102 then some (c.toNat - 87)
  else none

def State.endText (s : State) (inKey : Bool) (text : List UInt8) : State :=
  if inKey then { s with name := text, place := .colon }
  else { s with items := s.items ++ [text], place := .afterItem }

def State.endMember (s : State) : State := { members := s.members ++ [(s.name, s.items)], place := .afterMember }

/-- The places that a sign leads to -/
def State.sign (s : State) (c : UInt8) : Option State :=
  match s.place with
  | .start => if c = 123 then some { s with place := .key true } else none
  | .key empty =>
    if c = 34 then some { s with place := .text true [] }
    else if c = 125 ∧ empty then some { s with place := .finished }
    else none
  | .colon => if c = 58 then some { s with place := .value } else none
  | .value => if c = 91 then some { s with place := .item true } else none
  | .item empty =>
    if c = 34 then some { s with place := .text false [] }
    else if c = 93 ∧ empty then some s.endMember
    else none
  | .afterItem => if c = 44 then some { s with place := .item false } else if c = 93 then some s.endMember else none
  | .afterMember =>
    if c = 44 then some { s with place := .key false }
    else if c = 125 then some { s with place := .finished }
    else none
  | _ => none

section
variable (valid : List UInt8 → Bool)

/-- Which strings are properly encoded is left to `valid`. -/
def step (s : State) (c : UInt8) : Option State :=
  match s.place with
  | .text inKey pieces =>
    if c = 34 then ((assemble pieces).filter valid).map (s.endText inKey)
    else if c = 92 then some { s with place := .escaped inKey pieces }
    else if c < 32 then none
    else some { s with place := .text inKey (pieces ++ [.byte c]) }
  | .escaped inKey pieces =>
    if c = 117 then some { s with place := .unicode inKey pieces 0 0 }
    else (unescape c).map fun b => { s with place := .text inKey (pieces ++ [.byte b]) }
  | .unicode inKey pieces digits value =>
    (hexDigit c).map fun d =>
      if digits = 3 then { s with place := .text inKey (pieces ++ [.unit (16 * value + d)]) }
      else { s with place := .unicode inKey pieces (digits + 1) (16 * value + d) }
  | _ => if c ∈ ([32, 9, 10, 13] : List UInt8) then some s else s.sign c

def decode (text : List UInt8) : Option (List Member) :=
  (text.foldlM (step valid) {}).bind fun
    | ⟨members, _, _, .finished⟩ => some members
    | _ => none

end

/-- The least number of bytes that stand for a byte in a string -/
def byteCost (b : UInt8) : Nat := if b = 34 ∨ b = 92 ∨ b < 32 then 2 else 1

def textCost (s : List UInt8) : Nat := (s.map byteCost).sum

/-- With the quotes, the colon, the brackets, and a comma after each string but the last -/
def memberCost (m : Member) : Nat := 4 + textCost m.1 + (m.2.map fun s => textCost s + 3).sum

def Piece.cost : Piece → Nat
  | .byte b => byteCost b
  | .unit _ => 6

def piecesCost (pieces : List Piece) : Nat := (pieces.map Piece.cost).sum

/-- The least number of bytes that lead to a state -/
def State.cost (s : State) : Nat :=
  let base := (s.members.map fun m => memberCost m + 1).sum + (s.items.map fun t => textCost t + 3).sum
  let text (inKey : Bool) (pieces : List Piece) := base + piecesCost pieces + if inKey then 2 else 6 + textCost s.name
  match s.place with
  | .start | .afterMember => base
  | .key _ | .finished => base + 1
  | .colon => base + 3 + textCost s.name
  | .value | .afterItem => base + 4 + textCost s.name
  | .item _ => base + 5 + textCost s.name
  | .text inKey pieces => text inKey pieces
  | .escaped inKey pieces => text inKey pieces + 1
  | .unicode inKey pieces digits _ => text inKey pieces + 2 + digits

theorem byteCost_le (b : UInt8) : byteCost b ≤ 2 := by
  rw [byteCost]
  split <;> omega

theorem textCost_append (s t : List UInt8) : textCost (s ++ t) = textCost s + textCost t := by
  simp [textCost]

theorem byteCost_ofNat {n : Nat} (hlow : 128 ≤ n) (hhigh : n < 256) : byteCost (UInt8.ofNat n) = 1 := by
  have hn : (UInt8.ofNat n).toNat = n := by
    rw [UInt8.toNat_ofNat']
    omega
  rw [byteCost, if_neg]
  simp only [← UInt8.toNat_inj, UInt8.lt_iff_toNat_lt, hn, UInt8.reduceToNat]
  omega

theorem textCost_utf8 (u : Nat) : textCost (utf8 u) ≤ 4 := by
  rw [utf8, String.utf8EncodeChar]
  generalize (Char.ofNat u).val.toNat = v
  split
  · have hone := byteCost_le (UInt8.ofNat v)
    simp only [textCost, map_cons, map_nil, sum_cons, sum_nil]
    omega
  · split_ifs <;> simp (disch := omega) only [textCost, map_cons, map_nil, sum_cons, sum_nil, byteCost_ofNat] <;> omega

theorem textCost_assemble {pieces : List Piece} {text : List UInt8} (h : assemble pieces = some text) :
    textCost text ≤ piecesCost pieces := by
  fun_induction assemble pieces generalizing text with
  | case1 =>
    cases h
    exact Nat.le_refl 0
  | case2 b pieces ih =>
    obtain ⟨rest, hrest, rfl⟩ := map_eq_some_iff.mp h
    exact Nat.add_le_add_left (ih hrest) (byteCost b)
  | case3 u v pieces _ ih =>
    obtain ⟨rest, hrest, rfl⟩ := map_eq_some_iff.mp h
    have hpieces : piecesCost (.unit u :: .unit v :: pieces) = 6 + (6 + piecesCost pieces) := rfl
    have hfirst := textCost_utf8 (0x10000 + (u - 0xD800) * 0x400 + (v - 0xDC00))
    rw [textCost_append, hpieces]
    have := ih hrest
    omega
  | case5 u v pieces _ _ ih =>
    obtain ⟨rest, hrest, rfl⟩ := map_eq_some_iff.mp h
    have hpieces : piecesCost (.unit u :: .unit v :: pieces) = 6 + piecesCost (.unit v :: pieces) := rfl
    rw [textCost_append, hpieces]
    have hfirst := textCost_utf8 u
    have := ih hrest
    omega
  | case7 u pieces _ _ ih =>
    obtain ⟨rest, hrest, rfl⟩ := map_eq_some_iff.mp h
    have hpieces : piecesCost (.unit u :: pieces) = 6 + piecesCost pieces := rfl
    rw [textCost_append, hpieces]
    have hfirst := textCost_utf8 u
    have := ih hrest
    omega
  | _ => cases h

section
variable {valid : List UInt8 → Bool} {s s' : State}

theorem cost_sign {c : UInt8} (h : s.sign c = some s') : s'.cost ≤ s.cost + 1 := by
  obtain ⟨members, name, items, place⟩ := s
  cases place with
  | start | colon | value =>
    obtain ⟨-, h⟩ := ite_none_right_eq_some.mp h
    cases h
    simp only [State.cost]
    omega
  | key empty | item empty | afterItem | afterMember =>
    simp only [State.sign, State.endMember] at h
    split at h
    · cases h
      simp +arith [State.cost, piecesCost]
    · obtain ⟨-, h⟩ := ite_none_right_eq_some.mp h
      cases h
      simp +arith [State.cost, memberCost]
  | finished | text | escaped | unicode => cases h

theorem cost_step {c : UInt8} (h : step valid s c = some s') : s'.cost ≤ s.cost + 1 := by
  obtain ⟨members, name, items, place⟩ := s
  cases place with
  | text inKey pieces =>
    simp only [step] at h
    split at h
    · obtain ⟨text, htext, rfl⟩ := map_eq_some_iff.mp h
      have hpieces := textCost_assemble (filter_eq_some_iff.mp htext).1
      cases inKey <;> simp [State.cost, State.endText] <;> omega
    · split at h
      · cases h
        simp [State.cost]
      · obtain ⟨hlow, h⟩ := ite_none_left_eq_some.mp h
        cases h
        have hone : byteCost c = 1 := by simp_all [byteCost]
        simp +arith [State.cost, piecesCost, Piece.cost, hone]
  | escaped inKey pieces =>
    simp only [step] at h
    split at h
    · cases h
      simp [State.cost]
    · obtain ⟨b, -, rfl⟩ := map_eq_some_iff.mp h
      have htwo := byteCost_le b
      simp [State.cost, piecesCost, Piece.cost]
      omega
  | unicode inKey pieces digits value =>
    obtain ⟨d, -, rfl⟩ := map_eq_some_iff.mp h
    split
    · next hdigits =>
      simp +arith [State.cost, piecesCost, Piece.cost, hdigits]
    · simp +arith [State.cost]
  | _ =>
    simp only [step] at h
    split at h
    · cases h
      exact Nat.le_succ _
    · exact cost_sign h

/-- A text that is decoded has at least as many bytes as its members need. -/
theorem cost_of_decode {text : List UInt8} {ms : List Member} (h : decode valid text = some ms) :
    1 + (ms.map fun m => memberCost m + 1).sum ≤ text.length := by
  have hrun {s s' : State} (h : text.foldlM (step valid) s = some s') : s'.cost ≤ s.cost + text.length := by
    clear * - h
    induction text generalizing s with
    | nil =>
      cases h
      exact Nat.le_refl _
    | cons c text ih =>
      rw [foldlM_cons] at h
      obtain ⟨s₁, hstep, h⟩ := bind_eq_some_iff.mp h
      have hone := cost_step hstep
      have hrest := ih h
      rw [length_cons]
      omega
  obtain ⟨⟨members, name, items, place⟩, hread, h⟩ := bind_eq_some_iff.mp h
  have hcost := hrun hread
  cases place with
  | finished =>
    cases h
    simp only [State.cost, map_nil, sum_nil] at hcost
    omega
  | _ => cases h

end

end Json
