import Mathlib

/-! Fixed-width unsigned arithmetic over natural numbers, and serial-number order. -/
namespace Firebam.Lib

variable {a b k n : Nat}

def wordSize : Nat := 2 ^ 64

def wsub (a b : Nat) : Nat := (a + wordSize - b) % wordSize

lemma wsub_of_le (le : b ≤ a) (hf : a < wordSize) : wsub a b = a - b := by
  unfold wsub
  have hs : a + wordSize - b = (a - b) + wordSize := by omega
  rw [hs, Nat.add_mod_right, Nat.mod_eq_of_lt (by omega)]

lemma wsub_add_mod (left : a < wordSize) (hr : b < wordSize) : wsub ((a + b) % wordSize) a = b := by
  unfold wsub
  rcases Nat.lt_or_ge (a + b) wordSize with hs | hl
  · rw [Nat.mod_eq_of_lt hs, show a + b + wordSize - a = b + wordSize by omega,
      Nat.add_mod_right, Nat.mod_eq_of_lt hr]
  · have hw : (a + b) % wordSize = a + b - wordSize := by
      rw [Nat.mod_eq_sub_mod hl, Nat.mod_eq_of_lt (by omega)]
    rw [hw, show a + b - wordSize + wordSize - a = b by omega, Nat.mod_eq_of_lt hr]

/-- Position n of an endless sequence, as a 32-bit serial number. -/
def serial (n : Nat) : BitVec 32 := BitVec.ofNat 32 n

def serialDiff (a b : BitVec 32) : Int := (a - b).toInt

lemma serial_succ (n : Nat) : serial n + 1 = serial (n + 1) := by
  apply BitVec.eq_of_toNat_eq
  simp [serial, BitVec.toNat_add, BitVec.toNat_ofNat]

lemma serialDiff_of_window (hl : k ≤ n) (hw : n < k + 2 ^ 31) : serialDiff (serial n) (serial k) = (n : Int) - k := by
  have hd : (serial n - serial k).toNat = n - k := by
    simp only [serial, BitVec.toNat_sub, BitVec.toNat_ofNat]
    omega
  unfold serialDiff
  rw [BitVec.toInt_eq_toNat_of_lt (by omega), hd]
  omega

lemma serial_eq_of_window (hl : k ≤ n) (hw : n < k + 2 ^ 31) : serial n = serial k ↔ n = k := by
  constructor
  · intro hs
    have hd := serialDiff_of_window hl hw
    rw [hs, serialDiff, BitVec.sub_self] at hd
    simp at hd
    omega
  · rintro rfl
    rfl

def pow2Up (n : Nat) : Nat := if n ≤ 1 then 1 else 2 ^ ((n - 1).log2 + 1)

lemma le_pow2Up (n : Nat) : n ≤ pow2Up n := by
  unfold pow2Up
  split
  · assumption
  · have := @Nat.lt_log2_self (n - 1)
    omega

end Firebam.Lib
