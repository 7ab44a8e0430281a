/-
Masks on words.

Code rounds an address down by a mask that clears its low bits.
-/
import Mathlib.Data.Nat.Bitwise
import Mathlib.Tactic

namespace PureStd

/-- Clearing the low bits of a word rounds it down. -/
lemma and_clear_low {n k x : ℕ} (hk : k ≤ n) (hx : x < 2 ^ n) :
    x &&& (2 ^ n - 1 - (2 ^ k - 1)) = x / 2 ^ k * 2 ^ k := by
  have hmask : 2 ^ n - 1 - (2 ^ k - 1) = (2 ^ (n - k) - 1) <<< k := by
    have hsplit : 2 ^ n = 2 ^ (n - k) * 2 ^ k := by rw [← pow_add, Nat.sub_add_cancel hk]
    have hone : 0 < 2 ^ k := by positivity
    rw [Nat.shiftLeft_eq, Nat.sub_mul, ← hsplit]
    omega
  rw [hmask, ← Nat.shiftRight_eq_div_pow, ← Nat.shiftLeft_eq]
  refine Nat.eq_of_testBit_eq fun i => ?_
  rw [Nat.testBit_and, Nat.testBit_shiftLeft, Nat.testBit_shiftLeft, Nat.testBit_shiftRight,
    Nat.testBit_two_pow_sub_one]
  by_cases hik : k ≤ i
  · rw [Nat.add_sub_cancel' hik]
    by_cases hin : i < n
    · have : i - k < n - k := by omega
      simp [hik, this]
    · have hzero : x.testBit i = false :=
        Nat.testBit_lt_two_pow (lt_of_lt_of_le hx (Nat.pow_le_pow_right (by norm_num) (by omega)))
      simp [hzero]
  · simp [hik]

end PureStd
