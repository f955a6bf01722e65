import Mathlib.Tactic
import Mathlib.Data.Nat.Size
import Mathlib.Data.Int.Bitwise

/-!
# Pages by bits

Where pages have a power of two of places, a place is found by bits: a shift for the page, a mask
for the place in it, a shift and an `or` back. On integers too, those that are negative among
them, these are the quotient, the remainder and the sum.
-/

namespace LuzServing

/-- The source's `(page_size - 1).bit_length()` is the exponent when the page size is a power of
two. -/
theorem size_two_pow_sub_one (bits : ℕ) : (2 ^ bits - 1).size = bits := by
  have hpos := Nat.two_pow_pos bits
  refine le_antisymm (Nat.size_le.mpr (by omega)) ?_
  cases bits with
  | zero => exact Nat.zero_le _
  | succ bits =>
    have := Nat.two_pow_pos bits
    refine Nat.lt_size.mpr ?_
    rw [Nat.pow_succ]
    omega

/-- Shifting a number that is not negative to the right gives the quotient by the power of two. -/
theorem shiftRight_natCast (n bits : ℕ) : (n : ℤ) >>> bits = (n / 2 ^ bits : ℕ) := by
  rw [Int.shiftRight_eq_div_pow]
  push_cast
  rfl

/-- The index `-1`, which marks padding, is still `-1` after a shift to the right. -/
theorem shiftRight_neg_one (bits : ℕ) : (-1 : ℤ) >>> bits = -1 := by
  rw [Int.shiftRight_eq_div_pow]
  refine Int.ediv_eq_neg_one_of_neg_of_le (by decide) ?_
  have hpos : (0 : ℤ) < (2 ^ bits : ℕ) := Nat.cast_pos.mpr (Nat.two_pow_pos bits)
  omega

/-- Masking with one less than a power of two gives the remainder by this power. -/
theorem land_mask (n bits : ℕ) : Int.land n (2 ^ bits - 1 : ℕ) = (n % 2 ^ bits : ℕ) := by
  rw [← Nat.and_two_pow_sub_one_eq_mod]
  rfl

/-- The bits that are not in a number are those of what is left to all ones. -/
theorem ldiff_ones {bits off : ℕ} (hoff : off < 2 ^ bits) (k : ℕ) :
    Nat.ldiff (2 ^ bits * k + (2 ^ bits - 1)) off = 2 ^ bits * k + (2 ^ bits - (off + 1)) := by
  have hpos := Nat.two_pow_pos bits
  refine Nat.eq_of_testBit_eq fun i => ?_
  rw [Nat.testBit_ldiff, Nat.testBit_two_pow_mul_add _ (by omega),
    Nat.testBit_two_pow_mul_add _ (by omega), Nat.testBit_two_pow_sub_succ hoff]
  have hones : (2 ^ bits - 1).testBit i = decide (i < bits) := Nat.testBit_two_pow_sub_one bits i
  rw [hones]
  split
  next hi => rfl
  next hi =>
    have hhigh : off.testBit i = false := Nat.testBit_lt_two_pow (hoff.trans_le
      (Nat.pow_le_pow_right (by decide) (not_lt.mp hi)))
    rw [hhigh, Bool.not_false, Bool.and_true]

/-- **A shift to the left and an `or`** are the sum. -/
theorem lor_shiftLeft (page : ℤ) {bits off : ℕ} (hoff : off < 2 ^ bits) :
    Int.lor (page <<< bits) off = page * 2 ^ bits + off := by
  have hpos := Nat.two_pow_pos bits
  rw [Int.shiftLeft_eq]
  cases page with
  | ofNat n =>
    have hlor : Int.lor ((n * 2 ^ bits : ℕ) : ℤ) off = ((n * 2 ^ bits ||| off : ℕ) : ℤ) := rfl
    rw [← Nat.shiftLeft_eq, ← Nat.shiftLeft_add_eq_or_of_lt hoff, Nat.shiftLeft_eq] at hlor
    push_cast at hlor
    exact hlor
  | negSucc k =>
    -- all ones below the page, and the bits of the offset are taken from them
    have hshift : Int.negSucc k * 2 ^ bits = Int.negSucc (2 ^ bits * k + (2 ^ bits - 1)) := by
      rw [Int.negSucc_eq, Int.negSucc_eq]
      push_cast [Nat.cast_sub (Nat.one_le_iff_ne_zero.mpr hpos.ne')]
      ring
    have hlor : Int.lor (Int.negSucc (2 ^ bits * k + (2 ^ bits - 1))) off =
        Int.negSucc (Nat.ldiff (2 ^ bits * k + (2 ^ bits - 1)) off) := rfl
    rw [hshift, hlor, ldiff_ones hoff, Int.negSucc_eq, Int.negSucc_eq]
    push_cast [Nat.cast_sub (Nat.succ_le_of_lt hoff), Nat.cast_sub (Nat.succ_le_of_lt hpos)]
    ring

end LuzServing
