import Mathlib.Algebra.Order.Ring.Int
import Mathlib.Tactic.NormNum

/-!
# 32-bit counters

The value of a signed 32-bit counter, which wraps around.
-/

namespace Counter

/-- The value that a signed 32-bit counter shows for a number. -/
def int32 (z : ℤ) : ℤ := Int.bmod z (2 ^ 32)

theorem int32_of_mem {z : ℤ} (hl : -2 ^ 31 ≤ z) (hu : z < 2 ^ 31) : int32 z = z := by
  apply Int.bmod_eq_of_le_mul_two
  · norm_num
    omega
  · norm_num
    omega

theorem int32_natCast {n : ℕ} (h : n < 2 ^ 31) : int32 n = n := by
  apply int32_of_mem
  · exact le_trans (by norm_num) (Int.natCast_nonneg n)
  · exact_mod_cast h

@[simp] theorem int32_add_int32 (y z : ℤ) : int32 (int32 y + z) = int32 (y + z) :=
  Int.bmod_add_bmod

end Counter
