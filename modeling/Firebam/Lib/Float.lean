import Mathlib

/-! Binary64 arithmetic on quotients of nonnegative integers: a number is its integer
significand, rounded to 53 bits, ties to even. -/
namespace Firebam.Lib

/-- The nearest multiple of `2 ^ k`. -/
def roundTo (k n : Nat) : Nat :=
  let q := n / 2 ^ k
  let r := n % 2 ^ k
  if 2 * r < 2 ^ k ∨ 2 * r = 2 ^ k ∧ q % 2 = 0 then q * 2 ^ k else (q + 1) * 2 ^ k

structure Ratio where
  mant : Nat
  exp : Nat

def roundF64 (n : Nat) : Nat := roundTo (n.size - 53) n

/-- The quotient of two integers, converted to binary64, times `2 ^ 128`. The last bit stands for
the digits that are cut off. -/
def quotF64 (a b : Nat) : Nat :=
  let n := roundF64 a * 2 ^ 127
  let d := roundF64 b
  let q := n / d * 2 + if n % d = 0 then 0 else 1
  roundTo (q.size - 53) q

def Ratio.below (c : Ratio) (a b : Nat) : Bool :=
  if b = 0 then decide (a ≠ 0) else decide (c.mant * 2 ^ 128 < quotF64 a b * 2 ^ c.exp)

def Ratio.atLeast (c : Ratio) (a b : Nat) : Bool :=
  if b = 0 then false else decide (quotF64 a b * 2 ^ c.exp ≤ c.mant * 2 ^ 128)

end Firebam.Lib
