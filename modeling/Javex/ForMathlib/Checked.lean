import Mathlib.Data.Nat.Basic
import Mathlib.Order.Lattice
import Mathlib.Algebra.Ring.Nat

/-!
# Unsigned arithmetic

Subtraction and addition of unsigned numbers of a width that have no result where a machine word
would wrap, and addition and multiplication that stop at the largest word.

Rust's `-` and `+` on `usize` panic in a debug build and wrap in a release build; a model that has
no result there says that neither happens as soon as a result is shown to exist. The saturating
operations are given by their values, and `satAdd_min` and `satMul_min` say that a bound below the
largest word does not notice the saturation.
-/

namespace Unsigned

variable {w m n : ℕ}

/-- A difference, which there is not below zero. -/
def sub? (m n : ℕ) : Option ℕ := if n ≤ m then some (m - n) else none

/-- A sum, if it is a number of `w` bits. -/
def add? (w m n : ℕ) : Option ℕ := if m + n < 2 ^ w then some (m + n) else none

theorem sub?_of_le (h : n ≤ m) : sub? m n = some (m - n) := if_pos h

theorem add?_of_lt (h : m + n < 2 ^ w) : add? w m n = some (m + n) := if_pos h

/-- A sum that stops at the largest number of `w` bits. -/
def satAdd (w m n : ℕ) : ℕ := min (m + n) (2 ^ w - 1)

/-- A product that stops at the largest number of `w` bits. -/
def satMul (w m n : ℕ) : ℕ := min (m * n) (2 ^ w - 1)

/-- A sum that stops takes no notice of an operand that has stopped. -/
theorem satAdd_min : satAdd w (min m (2 ^ w - 1)) n = satAdd w m n := by
  unfold satAdd
  omega

theorem satMul_min : satMul w m (min n (2 ^ w - 1)) = satMul w m n := by
  unfold satMul
  rcases Nat.eq_zero_or_pos m with rfl | hm
  · simp
  · by_cases hn : n ≤ 2 ^ w - 1
    · rw [min_eq_left hn]
    · -- both products are beyond the largest word
      have hword := Nat.le_mul_of_pos_left (2 ^ w - 1) hm
      have hproduct := Nat.le_mul_of_pos_left n hm
      rw [min_eq_right (Nat.le_of_not_le hn), min_eq_right hword, min_eq_right (by omega)]

end Unsigned
