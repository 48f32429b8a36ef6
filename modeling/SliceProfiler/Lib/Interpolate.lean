import Mathlib.Algebra.Order.Floor.Semiring
import Mathlib.Data.List.GetD
import Mathlib.Data.Rat.Floor
import Mathlib.Order.Interval.Set.Defs
import Mathlib.Tactic.Linarith

/-!
# Linear interpolation

Between two neighbours a sequence is continued by the line through its values there. The line rises where the
sequence does.
-/

namespace Lib

variable {f : Nat → ℚ} {m : Nat} {x y : ℚ}

def interpolate (f : Nat → ℚ) (x : ℚ) : ℚ := f ⌊x⌋₊ + (f ⌈x⌉₊ - f ⌊x⌋₊) * (x - ⌊x⌋₊)

@[simp] theorem interpolate_natCast (k : Nat) : interpolate f k = f k := by
  simp [interpolate]

theorem ceil_eq_floor_add_one (h : (⌊x⌋₊ : ℚ) < x) : ⌈x⌉₊ = ⌊x⌋₊ + 1 := by
  rw [Nat.ceil_eq_iff (by omega)]
  refine ⟨by simpa using h, ?_⟩
  push_cast
  exact (Nat.lt_floor_add_one x).le

/-- A position is one of the sequence, or lies strictly between two neighbours. -/
theorem eq_floor_or_ceil (h0 : 0 ≤ x) : x = ⌊x⌋₊ ∨ (⌊x⌋₊ : ℚ) < x ∧ ⌈x⌉₊ = ⌊x⌋₊ + 1 := by
  rcases (Nat.floor_le h0).lt_or_eq with h | h
  · exact .inr ⟨h, ceil_eq_floor_add_one h⟩
  · exact .inl h.symm

theorem floor_le_ceil (hf : MonotoneOn f (Set.Iic m)) (hx : x ≤ m) : f ⌊x⌋₊ ≤ f ⌈x⌉₊ :=
  hf (Nat.floor_le_of_le hx) (Nat.ceil_le.mpr hx) (Nat.floor_le_ceil x)

theorem floor_le_interpolate (hf : MonotoneOn f (Set.Iic m)) (h0 : 0 ≤ x) (hx : x ≤ m) :
    f ⌊x⌋₊ ≤ interpolate f x := by
  have hle := floor_le_ceil hf hx
  have hfrac := Nat.floor_le h0
  exact le_add_of_nonneg_right (mul_nonneg (by linarith) (by linarith))

theorem interpolate_le_ceil (hf : MonotoneOn f (Set.Iic m)) (hx : x ≤ m) :
    interpolate f x ≤ f ⌈x⌉₊ := by
  have hle := floor_le_ceil hf hx
  have hfrac := Nat.lt_floor_add_one x
  have hmul : (f ⌈x⌉₊ - f ⌊x⌋₊) * (x - ⌊x⌋₊) ≤ f ⌈x⌉₊ - f ⌊x⌋₊ :=
    mul_le_of_le_one_right (by linarith) (by linarith)
  rw [interpolate]
  linarith

/-- Strictly between two neighbours the line is strictly between their values, when these rise. -/
theorem interpolate_between (hx : (⌊x⌋₊ : ℚ) < x) (hf : f ⌊x⌋₊ < f ⌈x⌉₊) :
    f ⌊x⌋₊ < interpolate f x ∧ interpolate f x < f ⌈x⌉₊ := by
  have hgap : 0 < f ⌈x⌉₊ - f ⌊x⌋₊ := sub_pos.mpr hf
  have hfrac := Nat.lt_floor_add_one x
  rw [interpolate, lt_add_iff_pos_right, ← lt_sub_iff_add_lt']
  exact ⟨mul_pos hgap (by linarith), mul_lt_of_lt_one_right hgap (by linarith)⟩

theorem interpolate_of_eq (hf : f ⌊x⌋₊ = f ⌈x⌉₊) : interpolate f x = f ⌊x⌋₊ := by
  rw [interpolate, ← hf, sub_self, zero_mul, add_zero]

theorem interpolate_mono (hf : MonotoneOn f (Set.Iic m)) (h0 : 0 ≤ x) (hxy : x ≤ y) (hy : y ≤ m) :
    interpolate f x ≤ interpolate f y := by
  rcases (Nat.floor_mono hxy).lt_or_eq with hlt | heq
  · -- the neighbours of `x` are at most those of `y`
    have hceil : ⌈x⌉₊ ≤ ⌊y⌋₊ := (Nat.ceil_le_floor_add_one x).trans hlt
    calc interpolate f x ≤ f ⌈x⌉₊ := interpolate_le_ceil hf (hxy.trans hy)
      _ ≤ f ⌊y⌋₊ := hf (hceil.trans (Nat.floor_le_of_le hy)) (Nat.floor_le_of_le hy) hceil
      _ ≤ interpolate f y := floor_le_interpolate hf (h0.trans hxy) hy
  · rcases eq_floor_or_ceil h0 with hx | ⟨hx, hceil⟩
    · rw [hx, interpolate_natCast, heq]
      exact floor_le_interpolate hf (h0.trans hxy) hy
    · have hceil' : ⌈y⌉₊ = ⌈x⌉₊ := by
        rw [ceil_eq_floor_add_one (x := y) (by rw [← heq]; linarith), hceil, heq]
      have hle := floor_le_ceil hf (hxy.trans hy)
      rw [interpolate, interpolate, hceil', ← heq]
      exact add_le_add_right (mul_le_mul_of_nonneg_left (by linarith) (by linarith)) _

/-! ## A sorted list as a sequence -/

variable {l : List Nat}

theorem getD_mem {k : Nat} (hk : k < l.length) : l.getD k 0 ∈ l := by
  rw [List.getD_eq_getElem _ _ hk]
  exact List.getElem_mem hk

theorem getD_le (hl : l.Pairwise (· ≤ ·)) {j k : Nat} (hjk : j ≤ k) (hk : k < l.length) :
    l.getD j 0 ≤ l.getD k 0 := by
  rw [List.getD_eq_getElem _ _ (hjk.trans_lt hk), List.getD_eq_getElem _ _ hk]
  rcases hjk.lt_or_eq with hlt | rfl
  · exact List.pairwise_iff_getElem.mp hl _ _ _ hk hlt
  · exact le_refl _

theorem getD_monotoneOn (hl : l.Pairwise (· ≤ ·)) (hn : 0 < l.length) :
    MonotoneOn (fun k => (l.getD k 0 : ℚ)) (Set.Iic (l.length - 1)) := by
  intro j _ k hk hjk
  have hk' : k ≤ l.length - 1 := hk
  exact Nat.cast_le.mpr (getD_le hl hjk (by omega))

end Lib
