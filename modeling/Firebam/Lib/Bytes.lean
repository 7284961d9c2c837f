import Mathlib

namespace Firebam.Lib

abbrev Mem := Nat → UInt8

namespace Mem

def byte (m : Mem) (i : Nat) : Nat := (m i).toNat

def shift (m : Mem) (off : Nat) : Mem := fun i => m (off + i)

def load (m : Mem) (off : Nat) : Nat → Nat
  | 0 => 0
  | n + 1 => m.byte off + 256 * m.load (off + 1) n

def memeq (m : Mem) (off : Nat) : List UInt8 → Bool
  | [] => true
  | b :: bs => m off == b && m.memeq (off + 1) bs

def ofList (l : List UInt8) : Mem := fun i => l.getD i 0

def behind (l : List UInt8) (m : Mem) : Mem := fun i => if i < l.length then l.getD i 0 else m (i - l.length)

def followed (m : Mem) (sz : Nat) (l : List UInt8) : Mem := fun i => if i < sz then m i else l.getD (i - sz) 0

lemma byte_lt (m : Mem) (i : Nat) : m.byte i < 256 := (m i).toNat_lt

@[simp] theorem shift_apply (m : Mem) (off i : Nat) : m.shift off i = m (off + i) := rfl

@[simp] theorem byte_shift (m : Mem) (off i : Nat) : (m.shift off).byte i = m.byte (off + i) := rfl

lemma load_small {m : Mem} {off n v : Nat} (eq : m.load off (n + 1) = v) (hs : v < 256) :
    m.byte off = v ∧ m.load (off + 1) n = 0 := by
  rw [load] at eq
  omega

lemma load_lt (m : Mem) (off n : Nat) : m.load off n < 256 ^ n := by
  induction n generalizing off with
  | zero => exact Nat.one_pos
  | succ n ih =>
    have hb := m.byte_lt off
    have hr := ih (off + 1)
    rw [load, Nat.pow_succ]
    omega

lemma memeq_getElem {m : Mem} {off : Nat} {bytes : List UInt8} (eq : m.memeq off bytes = true) :
    ∀ i (h : i < bytes.length), m (off + i) = bytes[i] := by
  induction bytes generalizing off with
  | nil => exact fun i h => absurd h (Nat.not_lt_zero i)
  | cons b bs ih =>
    rw [memeq, Bool.and_eq_true] at eq
    intro i h
    cases i with
    | zero => exact eq_of_beq eq.1
    | succ i =>
      have hr := ih eq.2 i (Nat.lt_of_succ_lt_succ h)
      rw [List.getElem_cons_succ, ← hr]
      congr 1
      omega

variable (l : List UInt8) (m : Mem)

lemma behind_add (i : Nat) : behind l m (l.length + i) = m i := by
  rw [behind, if_neg (by omega), Nat.add_sub_cancel_left]

lemma byte_behind (i : Nat) : (behind l m).byte (l.length + i) = m.byte i := congrArg UInt8.toNat (behind_add l m i)

lemma shift_behind (i : Nat) : (behind l m).shift (l.length + i) = m.shift i := by
  funext j
  rw [shift_apply, shift_apply, Nat.add_assoc, behind_add]

lemma memeq_behind (off : Nat) (bytes : List UInt8) :
    (behind l m).memeq (l.length + off) bytes = m.memeq off bytes := by
  induction bytes generalizing off with
  | nil => rfl
  | cons b bs ih => rw [memeq, memeq, behind_add, Nat.add_assoc, ih]

end Mem

end Firebam.Lib
