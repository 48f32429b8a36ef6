import Mathlib.Algebra.Order.Floor.Ring
import Mathlib.Data.Int.Log
import Mathlib.Data.List.Nodup
import Mathlib.Data.List.Perm.Subperm
import Mathlib.Data.Rat.Floor
import Mathlib.Tactic.Linarith
import Mathlib.Tactic.Ring

/-!
# The ticks of an axis

Multiples of a round step between the ends of a range, from a loop that adds the step until it leaves the range. The
numbers are exact rationals.
-/

namespace Lib

/-! ## The step -/

/-- `1`, `2` or `5` times a power of ten. -/
def niceStep (value : ℚ) : ℚ :=
  let raw := value / 5
  let power : ℚ := 10 ^ Int.log 10 raw
  let scaled := raw / power
  (if scaled ≥ 5 then 5 else if scaled ≥ 2 then 2 else 1) * power

variable {value step min max span v : ℚ} {fuel fuel' : Nat}

theorem niceStep_round (value : ℚ) : ∃ (m : ℚ) (k : ℤ), (m = 1 ∨ m = 2 ∨ m = 5) ∧ niceStep value = m * 10 ^ k := by
  refine ⟨_, _, ?_, rfl⟩
  split
  · exact .inr (.inr rfl)
  · split
    · exact .inr (.inl rfl)
    · exact .inl rfl

/-- Between five and twelve and a half steps reach over the value. -/
theorem niceStep_bounds (h : 0 < value) :
    0 < niceStep value ∧ 5 * niceStep value ≤ value ∧ 2 * value < 25 * niceStep value := by
  have hraw : 0 < value / 5 := by linarith
  have hpos : (0 : ℚ) < 10 ^ Int.log 10 (value / 5) := zpow_pos (by norm_num) _
  have hle : (10 : ℚ) ^ Int.log 10 (value / 5) ≤ value / 5 := by
    exact_mod_cast Int.zpow_log_le_self (by norm_num : 1 < 10) hraw
  have hlt : value / 5 < (10 : ℚ) ^ Int.log 10 (value / 5) * 10 := by
    rw [← zpow_add_one₀ (by norm_num)]
    exact_mod_cast Int.lt_zpow_succ_log_self (by norm_num : 1 < 10) (value / 5)
  unfold niceStep
  dsimp only
  generalize (10 : ℚ) ^ Int.log 10 (value / 5) = power at *
  simp only [ge_iff_le, le_div_iff₀ hpos]
  split
  · refine ⟨by linarith, by linarith, by linarith⟩
  · split
    · refine ⟨by linarith, by linarith, by linarith⟩
    · refine ⟨by linarith, by linarith, by linarith⟩

/-! ## The loop -/

/-- `for (; value < max; value += step) { if (value > min) ticks.push(value); }`, for `fuel` rounds at most and without
rounding. -/
def tickLoop (step min max : ℚ) : Nat → ℚ → List ℚ
  | 0, _ => []
  | fuel + 1, value =>
      if value < max then
        if value > min then value :: tickLoop step min max fuel (value + step)
        else tickLoop step min max fuel (value + step)
      else []

/-- The loop goes through all steps to the end of the range, when its rounds reach over it. -/
theorem mem_tickLoop (hstep : 0 < step) (hfuel : max ≤ value + fuel * step) :
    v ∈ tickLoop step min max fuel value ↔ ∃ k : ℕ, v = value + k * step ∧ min < v ∧ v < max := by
  induction fuel generalizing value with
  | zero =>
      simp only [tickLoop, List.not_mem_nil, false_iff]
      rintro ⟨k, rfl, -, hlt⟩
      have hk : 0 ≤ (k : ℚ) * step := by positivity
      push_cast at hfuel
      linarith
  | succ fuel ih =>
      have hrest := @ih (value + step) (by push_cast at hfuel; linarith)
      have hsplit : (∃ k : ℕ, v = value + k * step ∧ min < v ∧ v < max) ↔
          (v = value ∧ min < v ∧ v < max) ∨ ∃ k : ℕ, v = value + step + k * step ∧ min < v ∧ v < max := by
        constructor
        · rintro ⟨k, rfl, h⟩
          cases k with
          | zero => exact .inl ⟨by simp, h⟩
          | succ k => exact .inr ⟨k, by push_cast; ring, h⟩
        · rintro (⟨rfl, h⟩ | ⟨k, rfl, h⟩)
          · exact ⟨0, by simp, h⟩
          · exact ⟨k + 1, by push_cast; ring, h⟩
      rw [hsplit, tickLoop]
      split
      · rename_i hlt
        split
        · rename_i hmin
          rw [List.mem_cons, hrest]
          refine or_congr_left ⟨?_, And.left⟩
          rintro rfl
          exact ⟨rfl, hmin, hlt⟩
        · rename_i hmin
          rw [hrest, or_iff_right]
          rintro ⟨rfl, h, -⟩
          exact hmin h
      · rename_i hge
        simp only [List.not_mem_nil, false_iff, not_or, not_exists]
        refine ⟨fun ⟨he, _, h⟩ => hge (he ▸ h), fun k ⟨he, _, h⟩ => ?_⟩
        have hk : 0 ≤ (k : ℚ) * step := by positivity
        linarith

theorem tickLoop_strict (hstep : 0 < step) : (tickLoop step min max fuel value).Pairwise (· < ·) ∧
    ∀ v ∈ tickLoop step min max fuel value, value ≤ v := by
  induction fuel generalizing value with
  | zero => exact ⟨.nil, by simp [tickLoop]⟩
  | succ fuel ih =>
      obtain ⟨hs, hle⟩ := @ih (value + step)
      have hbehind : ∀ v ∈ tickLoop step min max fuel (value + step), value < v := fun v hv => by
        linarith [hle v hv]
      rw [tickLoop]
      split
      · split
        · refine ⟨List.pairwise_cons.mpr ⟨hbehind, hs⟩, fun v hv => ?_⟩
          rcases List.mem_cons.mp hv with rfl | hv
          · exact le_rfl
          · exact (hbehind v hv).le
        · exact ⟨hs, fun v hv => (hbehind v hv).le⟩
      · exact ⟨.nil, by simp⟩

theorem length_tickLoop_le (fuel : Nat) (value : ℚ) : (tickLoop step min max fuel value).length ≤ fuel := by
  induction fuel generalizing value with
  | zero => exact le_rfl
  | succ fuel ih =>
      have := ih (value + step)
      rw [tickLoop]
      split
      · split
        · rw [List.length_cons]
          omega
        · omega
      · exact Nat.zero_le _

/-- Further rounds change nothing. -/
theorem tickLoop_congr (hstep : 0 < step) (h : max ≤ value + fuel * step) (h' : max ≤ value + fuel' * step) :
    tickLoop step min max fuel value = tickLoop step min max fuel' value := by
  have hs : (tickLoop step min max fuel value).Pairwise (· < ·) := (tickLoop_strict hstep).1
  have hs' : (tickLoop step min max fuel' value).Pairwise (· < ·) := (tickLoop_strict hstep).1
  refine List.Perm.eq_of_pairwise (fun _ _ _ _ hab hba => absurd hab hba.asymm) hs hs' ?_
  refine (List.perm_ext_iff_of_nodup (hs.imp ne_of_lt) (hs'.imp ne_of_lt)).mpr fun v => ?_
  rw [mem_tickLoop hstep h, mem_tickLoop hstep h']

/-! ## The ticks -/

def ticks (fuel : Nat) (min max span : ℚ) : List ℚ :=
  let step := niceStep span
  min :: (tickLoop step min max fuel (⌈min / step⌉ * step) ++ [max])

theorem ceil_mul_bounds (hstep : 0 < step) : min ≤ ⌈min / step⌉ * step ∧ ⌈min / step⌉ * step < min + step := by
  have hle := Int.le_ceil (min / step)
  have hlt := Int.ceil_lt_add_one (min / step)
  rw [div_le_iff₀ hstep] at hle
  refine ⟨hle, ?_⟩
  calc ⌈min / step⌉ * step < (min / step + 1) * step := mul_lt_mul_of_pos_right hlt hstep
    _ = min + step := by rw [add_mul, div_mul_cancel₀ _ hstep.ne', one_mul]

variable (hspan : 0 < span) (hmax : max ≤ min + span)
include hspan hmax

/-- Thirteen rounds are enough. -/
theorem ticks_rounds (hfuel : 13 ≤ fuel) : max ≤ ⌈min / niceStep span⌉ * niceStep span + fuel * niceStep span := by
  obtain ⟨hpos, -, hlt⟩ := niceStep_bounds hspan
  have hceil : min ≤ ⌈min / niceStep span⌉ * niceStep span := (ceil_mul_bounds hpos).1
  have hf : (13 : ℚ) ≤ fuel := by exact_mod_cast hfuel
  have := mul_le_mul_of_nonneg_right hf hpos.le
  linarith

theorem ticks_eq (hfuel : 13 ≤ fuel) : ticks fuel min max span = ticks 13 min max span := by
  have hpos := (niceStep_bounds hspan).1
  simp only [ticks]
  rw [tickLoop_congr hpos (ticks_rounds hspan hmax hfuel) (ticks_rounds hspan hmax le_rfl)]

theorem length_ticks_le (hfuel : 13 ≤ fuel) : (ticks fuel min max span).length ≤ 15 := by
  rw [ticks_eq hspan hmax hfuel]
  have : (tickLoop (niceStep span) min max 13 (⌈min / niceStep span⌉ * niceStep span)).length ≤ 13 :=
    length_tickLoop_le 13 _
  simp only [ticks, List.length_cons, List.length_append, List.length_nil]
  omega

/-- Between the ends are exactly the multiples of the step. -/
theorem mem_tickLoop_ticks (hfuel : 13 ≤ fuel) :
    v ∈ tickLoop (niceStep span) min max fuel (⌈min / niceStep span⌉ * niceStep span) ↔
      (∃ k : ℤ, v = k * niceStep span) ∧ min < v ∧ v < max := by
  have hpos := (niceStep_bounds hspan).1
  rw [mem_tickLoop hpos (ticks_rounds hspan hmax hfuel)]
  constructor
  · rintro ⟨k, rfl, h⟩
    exact ⟨⟨⌈min / niceStep span⌉ + k, by push_cast; ring⟩, h⟩
  · rintro ⟨⟨k, rfl⟩, hmin, hlt⟩
    have hk : ⌈min / niceStep span⌉ ≤ k := Int.ceil_le.mpr ((div_le_iff₀ hpos).mpr hmin.le)
    obtain ⟨n, rfl⟩ := Int.le.dest hk
    exact ⟨n, by push_cast; ring, hmin, hlt⟩

theorem mem_ticks (hfuel : 13 ≤ fuel) : v ∈ ticks fuel min max span ↔
    v = min ∨ v = max ∨ (∃ k : ℤ, v = k * niceStep span) ∧ min < v ∧ v < max := by
  simp only [ticks, List.mem_cons, List.mem_append, List.not_mem_nil, or_false,
    mem_tickLoop_ticks hspan hmax hfuel]
  tauto

theorem ticks_strict (hlt : min < max) (hfuel : 13 ≤ fuel) : (ticks fuel min max span).Pairwise (· < ·) := by
  have hloop := fun v => mem_tickLoop_ticks (v := v) hspan hmax hfuel
  have hs : (tickLoop (niceStep span) min max fuel (⌈min / niceStep span⌉ * niceStep span)).Pairwise (· < ·) :=
    (tickLoop_strict (niceStep_bounds hspan).1).1
  simp only [ticks]
  refine List.pairwise_cons.mpr ⟨fun v hv => ?_, List.pairwise_append.mpr ⟨hs, List.pairwise_singleton _ _, ?_⟩⟩
  · rcases List.mem_append.mp hv with hv | hv
    · exact ((hloop v).mp hv).2.1
    · exact List.mem_singleton.mp hv ▸ hlt
  · intro v hv w hw
    exact List.mem_singleton.mp hw ▸ ((hloop v).mp hv).2.2

/-- A range as long as the span has four ticks inside at least. -/
theorem six_le_length_ticks (hfull : min + span ≤ max) (hfuel : 13 ≤ fuel) : 6 ≤ (ticks fuel min max span).length := by
  obtain ⟨hpos, hfive, -⟩ := niceStep_bounds hspan
  have hceil : min ≤ ⌈min / niceStep span⌉ * niceStep span ∧
      ⌈min / niceStep span⌉ * niceStep span < min + niceStep span :=
    ceil_mul_bounds hpos
  have hmem : ∀ k ∈ [1, 2, 3, 4], (⌈min / niceStep span⌉ : ℚ) * niceStep span + (k : ℕ) * niceStep span ∈
      tickLoop (niceStep span) min max fuel (⌈min / niceStep span⌉ * niceStep span) := by
    intro k hk
    have hk1 : (1 : ℚ) ≤ k := by exact_mod_cast (by revert k; decide : ∀ k ∈ [1, 2, 3, 4], 1 ≤ k) k hk
    have hk4 : (k : ℚ) ≤ 4 := by exact_mod_cast (by revert k; decide : ∀ k ∈ [1, 2, 3, 4], k ≤ 4) k hk
    have h1 := mul_le_mul_of_nonneg_right hk1 hpos.le
    have h4 := mul_le_mul_of_nonneg_right hk4 hpos.le
    rw [mem_tickLoop hpos (ticks_rounds hspan hmax hfuel)]
    exact ⟨k, rfl, by linarith [hceil.1], by linarith [hceil.2]⟩
  have hnodup :
      ([1, 2, 3, 4].map fun k : ℕ => (⌈min / niceStep span⌉ : ℚ) * niceStep span + k * niceStep span).Nodup := by
    refine List.Nodup.map (fun a b h => ?_) (by decide)
    have := mul_right_cancel₀ hpos.ne' (add_left_cancel h)
    exact_mod_cast this
  have hsub := List.subperm_of_subset hnodup fun v hv => by
    obtain ⟨k, hk, rfl⟩ := List.mem_map.mp hv
    exact hmem k hk
  have hlen := hsub.length_le
  simp only [List.length_map, List.length_cons, List.length_nil] at hlen
  simp only [ticks, List.length_cons, List.length_append, List.length_nil]
  omega

end Lib
