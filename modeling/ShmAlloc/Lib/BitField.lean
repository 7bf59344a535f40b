import Mathlib.Algebra.Group.Nat.Defs
import Mathlib.Data.BitVec

/-!
# Bit fields of a word

A field of a word is a shift and a width.  `fieldMask s n` has ones in the field and zeros outside,
`place s v` is the word that has `v` in the field and zeros outside, and reading is core's
`BitVec.extractLsb'`.  Fields that do not overlap do not see each other.

## What is here

* `read_place` and `read_place_disjoint`: what is put into a field is read from it, and not from
  another one.  Words are put together from fields with `|||`, so these two and the distribution of
  reading over `|||` are all it takes to read a packed word.
* `read_clear` and `read_clear_disjoint`: a field that is cleared with a mask reads 0, and the
  others read what they did.  An update of one field is a clearing and a placing.
* `place_truncated`: a value that does not fit into a field is cut off by the mask, and what is
  read is its low part.  `setWidth_of_within` says when nothing is cut off.

Everything is about `BitVec w` for any `w`, and is proved bit by bit from `getLsbD_fieldMask` and
`getLsbD_place`.
-/

set_option autoImplicit false

namespace BitField

variable {w n k s t : Nat}

/-- Ones in the field of width `n` at `s`. -/
def fieldMask (w s n : Nat) : BitVec w := BitVec.ofNat w (2 ^ n - 1) <<< s

/-- The word with `v` at `s`. -/
def place (w s : Nat) (v : BitVec n) : BitVec w := v.setWidth w <<< s

theorem getLsbD_fieldMask (h : s + n ≤ w) (j : Nat) :
    (fieldMask w s n).getLsbD j = decide (s ≤ j ∧ j < s + n) := by
  rw [fieldMask, BitVec.getLsbD_shiftLeft, BitVec.getLsbD_ofNat, Nat.testBit_two_pow_sub_one]
  grind

theorem getLsbD_place (v : BitVec n) (j : Nat) :
    (place w s v).getLsbD j = (decide (s ≤ j ∧ j < w) && v.getLsbD (j - s)) := by
  rw [place, BitVec.getLsbD_shiftLeft, BitVec.getLsbD_setWidth]
  grind

/-- Masking the low bits before placing is placing the truncated value. -/
theorem place_truncated (v : BitVec k) :
    place w s (v &&& BitVec.ofNat k (2 ^ n - 1)) = place w s (v.setWidth n) := by
  refine BitVec.eq_of_getLsbD_eq fun i hi => ?_
  rw [getLsbD_place, getLsbD_place, BitVec.getLsbD_and, BitVec.getLsbD_setWidth,
    BitVec.getLsbD_ofNat, Nat.testBit_two_pow_sub_one]
  have hv : k ≤ i - s → v.getLsbD (i - s) = false := BitVec.getLsbD_of_ge v _
  grind

/-- Masking, shifting down and truncating reads the field. -/
theorem read_eq (h : s + n ≤ w) (x : BitVec w) :
    ((x &&& fieldMask w s n) >>> s).setWidth n = x.extractLsb' s n := by
  refine BitVec.eq_of_getLsbD_eq fun i hi => ?_
  rw [BitVec.getLsbD_setWidth, BitVec.getLsbD_ushiftRight, BitVec.getLsbD_and,
    getLsbD_fieldMask h, BitVec.getLsbD_extractLsb']
  grind

/-- Reading the field of a placed value gives it back. -/
theorem read_place (h : s + n ≤ w) (v : BitVec n) : (place w s v).extractLsb' s n = v := by
  refine BitVec.eq_of_getLsbD_eq fun i hi => ?_
  rw [BitVec.getLsbD_extractLsb', getLsbD_place, Nat.add_sub_cancel_left]
  grind

/-- Reading another field gives zeros. -/
theorem read_place_disjoint (h : s + n ≤ t ∨ t + k ≤ s) (v : BitVec n) :
    (place w s v).extractLsb' t k = 0#k := by
  refine BitVec.eq_of_getLsbD_eq fun i hi => ?_
  rw [BitVec.getLsbD_extractLsb', getLsbD_place, BitVec.getLsbD_zero]
  rcases h with h | h
  · rw [BitVec.getLsbD_of_ge v _ (by omega)]
    simp
  · have : ¬ s ≤ t + i := by omega
    simp [this]

/-- Clearing a field clears what is read there. -/
theorem read_clear (h : s + n ≤ w) (x : BitVec w) :
    (x &&& ~~~fieldMask w s n).extractLsb' s n = 0#n := by
  refine BitVec.eq_of_getLsbD_eq fun i hi => ?_
  rw [BitVec.getLsbD_extractLsb', BitVec.getLsbD_and, BitVec.getLsbD_not, getLsbD_fieldMask h]
  grind

/-- Clearing a field leaves the others alone. -/
theorem read_clear_disjoint (h : s + n ≤ w) (hd : s + n ≤ t ∨ t + k ≤ s) (x : BitVec w) :
    (x &&& ~~~fieldMask w s n).extractLsb' t k = x.extractLsb' t k := by
  refine BitVec.eq_of_getLsbD_eq fun i hi => ?_
  rw [BitVec.getLsbD_extractLsb', BitVec.getLsbD_extractLsb', BitVec.getLsbD_and,
    BitVec.getLsbD_not, getLsbD_fieldMask h]
  grind

/-- What is masked by an `n`-bit value fits in `n` bits. -/
theorem setWidth_of_within {v : BitVec k} {q : BitVec n} (h : v &&& q.setWidth k = v) :
    (v.setWidth n).setWidth k = v := by
  refine BitVec.eq_of_getLsbD_eq fun i hi => ?_
  have hbit : v.getLsbD i = (v.getLsbD i && (q.setWidth k).getLsbD i) := by
    rw [← BitVec.getLsbD_and, h]
  rw [BitVec.getLsbD_setWidth] at hbit
  rw [BitVec.getLsbD_setWidth, BitVec.getLsbD_setWidth]
  by_cases hn : i < n
  · simp [hi, hn]
  · rw [BitVec.getLsbD_of_ge q i (by omega), Bool.and_false, Bool.and_false] at hbit
    simp [hn, hbit]

end BitField
