import Mathlib.Data.Nat.Bitwise
import Mathlib.Tactic.Ring

/-!
# Masks and bits of 32-bit words

Words are natural numbers below 2³². Clearing the low `k` bits rounds down to
a multiple of `2 ^ k` (`land_clear_low`).
-/

namespace Framework.Word

/-- The bits of the mask that clears the low `k` bits of a 32-bit word. -/
theorem testBit_clear_low (k i : Nat) :
    (0xffffffff ^^^ (2 ^ k - 1)).testBit i = (decide (i < 32) ^^ decide (i < k)) := by
  rw [Nat.testBit_xor, show (0xffffffff : Nat) = 2 ^ 32 - 1 by rfl, Nat.testBit_two_pow_sub_one,
    Nat.testBit_two_pow_sub_one]

/-- Clearing the low `k` bits rounds down to a multiple of `2 ^ k`. -/
theorem land_clear_low {x k : Nat} (hx : x < 2 ^ 32) (hk : k ≤ 32) :
    x &&& (0xffffffff ^^^ (2 ^ k - 1)) = 2 ^ k * (x / 2 ^ k) := by
  refine Nat.eq_of_testBit_eq fun i => ?_
  rw [Nat.testBit_and, testBit_clear_low, Nat.testBit_two_pow_mul, Nat.testBit_div_two_pow]
  by_cases hi : i < 32
  · by_cases hik : i < k
    · simp [hi, hik]
    · simp [hi, hik, show k ≤ i by omega]
  · have : x.testBit i = false :=
      Nat.testBit_lt_two_pow (lt_of_lt_of_le hx (Nat.pow_le_pow_right (by decide) (by omega)))
    by_cases hik : k ≤ i
    · simp [this, hik]
    · omega

end Framework.Word
