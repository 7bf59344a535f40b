import Mathlib.Algebra.Group.Nat.Defs
import Mathlib.Logic.Basic

/-!
# 64-bit unsigned arithmetic on natural numbers

`size_t` and pointer arithmetic is carried out modulo `2 ^ 64`.  Operands are natural numbers
below `2 ^ 64`; `add64_eq` and `sub64_eq` are how a proof leaves the modulus behind once it knows
that nothing wraps.  Where something does wrap, `add64` and `sub64` are unfolded: they are `%` and
`+` on numbers, and `omega` knows both.

`and_notBits` and `and_not64` are about `x & ~(a - 1)`, the usual way to round down to a power of
two, for a mask of any width.  A mask that is narrower than the number it is applied to clears the
high bits as well, so the width is part of the statement.
-/

set_option autoImplicit false

/-- Addition modulo `2 ^ 64`. -/
def add64 (x y : Nat) : Nat := (x + y) % 2 ^ 64

/-- Subtraction modulo `2 ^ 64`. -/
def sub64 (x y : Nat) : Nat := (x + 2 ^ 64 - y) % 2 ^ 64

/-- Bitwise complement of a 64-bit number. -/
def not64 (x : Nat) : Nat := 2 ^ 64 - (x + 1)

theorem add64_eq {x y : Nat} (h : x + y < 2 ^ 64) : add64 x y = x + y := Nat.mod_eq_of_lt h

theorem sub64_eq {x y : Nat} (h : y ≤ x) (hx : x < 2 ^ 64) : sub64 x y = x - y := by
  rw [sub64]
  omega

theorem add64_lt (x y : Nat) : add64 x y < 2 ^ 64 := Nat.mod_lt _ (by decide)

theorem sub64_lt (x y : Nat) : sub64 x y < 2 ^ 64 := Nat.mod_lt _ (by decide)

/-- Bitwise complement of a number of `w` bits. -/
def notBits (w x : Nat) : Nat := 2 ^ w - (x + 1)

/-- Masking with the complement, in `w` bits, of `2 ^ k - 1` takes the low `w` bits and rounds them
down to a multiple of `2 ^ k`. -/
theorem and_notBits (x : Nat) {w k : Nat} (hk : k ≤ w) :
    x &&& notBits w (2 ^ k - 1) = x % 2 ^ w / 2 ^ k * 2 ^ k := by
  have hlt : 2 ^ k - 1 < 2 ^ w := by
    have := Nat.pow_le_pow_right (show 0 < 2 by decide) hk
    have := Nat.two_pow_pos k
    omega
  refine Nat.eq_of_testBit_eq fun i => ?_
  rw [Nat.testBit_and, notBits, Nat.testBit_two_pow_sub_succ hlt, Nat.testBit_two_pow_sub_one,
    ← Nat.shiftLeft_eq, Nat.testBit_shiftLeft, ← Nat.shiftRight_eq_div_pow,
    Nat.testBit_shiftRight, Nat.testBit_mod_two_pow]
  rcases Nat.lt_or_ge i k with h | h
  · simp [h, Nat.not_le.2 h]
  · rcases Nat.lt_or_ge i w with h' | h' <;>
      simp [h, h', show k + (i - k) = i by omega, Nat.not_lt.2 h, Nat.not_lt.2 h']

/-- Masking with the complement of `2 ^ k - 1` rounds down to a multiple of `2 ^ k`. -/
theorem and_not64 {x k : Nat} (hx : x < 2 ^ 64) (hk : k ≤ 64) :
    x &&& not64 (2 ^ k - 1) = x / 2 ^ k * 2 ^ k := by
  rw [show not64 (2 ^ k - 1) = notBits 64 (2 ^ k - 1) from rfl, and_notBits x hk,
    Nat.mod_eq_of_lt hx]
