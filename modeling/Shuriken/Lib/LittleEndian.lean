import Mathlib.Tactic.Ring

/-!
# Little-endian words

Fixed-width little-endian encodings of natural numbers, the width being a
parameter. A number that does not fit is truncated, as a store of a machine
word does.
-/
namespace LittleEndian
open List Nat

def leBytes : Nat → Nat → List UInt8
  | 0, _ => []
  | w+1, n => UInt8.ofNat n :: leBytes w (n / 256)

def leNat : List UInt8 → Nat
  | [] => 0
  | b :: bs => b.toNat + 256 * leNat bs

@[simp] theorem leBytes_length (w n : Nat) : (leBytes w n).length = w := by
  induction w generalizing n with
  | zero => rfl
  | succ w ih => simp only [leBytes, length_cons, ih]

theorem leNat_leBytes (w n : Nat) : leNat (leBytes w n) = n % 256 ^ w := by
  induction w generalizing n with
  | zero => simp only [leBytes, leNat, pow_zero, mod_one]
  | succ w ih =>
    simp only [leBytes, leNat, ih, UInt8.toNat_ofNat']
    rw [pow_succ' 256 w, mod_mul]

theorem leNat_leBytes_of_lt {w n : Nat} (h : n < 256 ^ w) : leNat (leBytes w n) = n := by
  rw [leNat_leBytes, mod_eq_of_lt h]

theorem leNat_lt (bs : List UInt8) : leNat bs < 256 ^ bs.length := by
  induction bs with
  | nil => simp only [leNat, length_nil, pow_zero, zero_lt_one]
  | cons b bs ih =>
    have hb : b.toNat < 256 := b.toNat_lt
    simp only [leNat, length_cons, pow_succ]
    omega

theorem leBytes_leNat (bs : List UInt8) : leBytes bs.length (leNat bs) = bs := by
  induction bs with
  | nil => rfl
  | cons b bs ih =>
    have hb : b.toNat < 256 := b.toNat_lt
    have hlow : UInt8.ofNat (b.toNat + 256 * leNat bs) = b := by
      apply UInt8.toNat_inj.mp
      rw [UInt8.toNat_ofNat']
      omega
    have hhigh : (b.toNat + 256 * leNat bs) / 256 = leNat bs := by omega
    simp only [length_cons, leBytes, leNat, hlow, hhigh, ih]

theorem leBytes_mod (w n : Nat) : leBytes w (n % 256 ^ w) = leBytes w n := by
  have h := leBytes_leNat (leBytes w n)
  rwa [leBytes_length, leNat_leBytes] at h

theorem leBytes_eq_iff {w n m : Nat} : leBytes w n = leBytes w m ↔ n % 256 ^ w = m % 256 ^ w := by
  constructor
  · intro h
    rw [← leNat_leBytes, ← leNat_leBytes, h]
  · intro h
    rw [← leBytes_mod, h, leBytes_mod]

theorem leBytes_add (v w n : Nat) : leBytes (v + w) n = leBytes v n ++ leBytes w (n / 256 ^ v) := by
  induction v generalizing n with
  | zero => rw [Nat.zero_add, pow_zero, Nat.div_one, leBytes, nil_append]
  | succ v ih => rw [Nat.succ_add, leBytes, leBytes, ih, cons_append, Nat.div_div_eq_div_mul, pow_succ']

def le32 (v : UInt32) : List UInt8 := leBytes 4 v.toNat

def le64 (v : UInt64) : List UInt8 := leBytes 8 v.toNat

def read32 (bs : List UInt8) : UInt32 := UInt32.ofNat (leNat (bs.take 4))

def read64 (bs : List UInt8) : UInt64 := UInt64.ofNat (leNat (bs.take 8))

@[simp] theorem le32_length (v : UInt32) : (le32 v).length = 4 := leBytes_length 4 _

@[simp] theorem le64_length (v : UInt64) : (le64 v).length = 8 := leBytes_length 8 _

@[simp] theorem read32_le32 (v : UInt32) (rest : List UInt8) : read32 (le32 v ++ rest) = v := by
  have hv : v.toNat < 256 ^ 4 := v.toNat_lt
  rw [read32, take_left' (le32_length v), le32, leNat_leBytes_of_lt hv, UInt32.ofNat_toNat]

@[simp] theorem read64_le64 (v : UInt64) (rest : List UInt8) : read64 (le64 v ++ rest) = v := by
  have hv : v.toNat < 256 ^ 8 := v.toNat_lt
  rw [read64, take_left' (le64_length v), le64, leNat_leBytes_of_lt hv, UInt64.ofNat_toNat]

variable {bs : List UInt8}

theorem read32_append (h : 4 ≤ bs.length) (rest : List UInt8) : read32 (bs ++ rest) = read32 bs := by
  rw [read32, read32, take_append_of_le_length h]

theorem read32_take {k : Nat} (h : 4 ≤ k) (bs : List UInt8) : read32 (bs.take k) = read32 bs := by
  rw [read32, read32, take_take, min_eq_left h]

theorem le32_read32 (h : 4 ≤ bs.length) : le32 (read32 bs) = bs.take 4 := by
  have hlen : (bs.take 4).length = 4 := by rw [length_take, min_eq_left h]
  have hlt : leNat (bs.take 4) < 2 ^ 32 := by
    have hbound := leNat_lt (bs.take 4)
    rw [hlen] at hbound
    exact hbound
  have hback := leBytes_leNat (bs.take 4)
  rw [hlen] at hback
  rw [le32, read32, UInt32.toNat_ofNat', mod_eq_of_lt hlt, hback]

end LittleEndian
