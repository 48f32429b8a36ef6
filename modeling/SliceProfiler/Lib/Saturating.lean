import Mathlib.Algebra.Order.Group.Nat

/-!
# Unsigned arithmetic

The saturating and the wrapping operations of an unsigned machine integer with largest value `max`, on natural
numbers.
-/

namespace Lib

def saturatingAdd (max a b : Nat) : Nat := min (a + b) max

def saturatingMul (max a b : Nat) : Nat := min (a * b) max

def wrappingAdd (max a b : Nat) : Nat := (a + b) % (max + 1)

variable {max a b c : Nat}

theorem saturatingAdd_of_le (h : a + b ≤ max) : saturatingAdd max a b = a + b := Nat.min_eq_left h

theorem saturatingAdd_right_comm : saturatingAdd max (saturatingAdd max a b) c =
    saturatingAdd max (saturatingAdd max a c) b := by
  simp only [saturatingAdd]; omega

/-- A saturating counter holds the smaller one of the exact sum and its bound. -/
theorem saturatingAdd_min : saturatingAdd max (min a max) b = min (a + b) max := by
  simp only [saturatingAdd]; omega

theorem saturatingAdd_le_saturatingAdd (h : a ≤ b) : saturatingAdd max a c ≤ saturatingAdd max b c :=
  min_le_min_right max (Nat.add_le_add_right h c)

theorem saturatingMul_le_saturatingMul (h : b ≤ c) : saturatingMul max a b ≤ saturatingMul max a c :=
  min_le_min_right max (Nat.mul_le_mul_left a h)

end Lib
