import Mathlib.Algebra.Order.Floor.Div
import Mathlib.Tactic.FieldSimp
import Mathlib.Tactic.Linarith
import Mathlib.Tactic.Positivity
import Mathlib.Tactic.Ring
import SliceProfiler.Lib.Interpolate
import SliceProfiler.Viewer.State

/-!
# Percentiles through durations

What becomes of a percentile that is turned into a duration and back, among sorted durations.
-/

namespace SliceProfiler.Viewer

open Lib

variable {durations : List Nat} {value percentile : ℚ} {side : Side}

/-! ## Positions -/

def shorter (durations : List Nat) (value : ℚ) : Nat := durations.countP fun d : Nat => (d : ℚ) < value

def notLonger (durations : List Nat) (value : ℚ) : Nat := durations.countP fun d : Nat => (d : ℚ) ≤ value

theorem shorter_closed (a b : Nat) (hab : a ≤ b) (hb : decide ((b : ℚ) < value) = true) :
    decide ((a : ℚ) < value) = true := by
  simp only [decide_eq_true_eq] at hb ⊢
  exact (Nat.cast_le.mpr hab).trans_lt hb

theorem notLonger_closed (a b : Nat) (hab : a ≤ b) (hb : decide ((b : ℚ) ≤ value) = true) :
    decide ((a : ℚ) ≤ value) = true := by
  simp only [decide_eq_true_eq] at hb ⊢
  exact (Nat.cast_le.mpr hab).trans hb

theorem lt_shorter_iff (hd : durations.Pairwise (· ≤ ·)) {k : Nat} (hk : k < durations.length) :
    k < shorter durations value ↔ (durations.getD k 0 : ℚ) < value := by
  rw [List.getD_eq_getElem _ _ hk, shorter, ← getElem_iff_lt_countP hd shorter_closed hk, decide_eq_true_eq]

theorem lt_notLonger_iff (hd : durations.Pairwise (· ≤ ·)) {k : Nat} (hk : k < durations.length) :
    k < notLonger durations value ↔ (durations.getD k 0 : ℚ) ≤ value := by
  rw [List.getD_eq_getElem _ _ hk, notLonger, ← getElem_iff_lt_countP hd notLonger_closed hk, decide_eq_true_eq]

theorem shorter_eq_notLonger (hne : ∀ d ∈ durations, (d : ℚ) ≠ value) :
    notLonger durations value = shorter durations value :=
  List.countP_congr fun d hd => by
    simp only [decide_eq_true_eq]
    exact ⟨fun hle => lt_of_le_of_ne hle (hne d hd), le_of_lt⟩

theorem shorter_pos (hd : durations.Pairwise (· ≤ ·)) (hn : 0 < durations.length)
    (hfirst : (durations.getD 0 0 : ℚ) < value) : 0 < shorter durations value :=
  (lt_shorter_iff hd hn).mpr hfirst

theorem shorter_lt (hd : durations.Pairwise (· ≤ ·)) (hn : 0 < durations.length)
    (hlast : value ≤ durations.getD (durations.length - 1) 0) : shorter durations value < durations.length := by
  have hle : shorter durations value ≤ durations.length := List.countP_le_length
  have := (lt_shorter_iff hd (show durations.length - 1 < durations.length by omega)).not.mpr hlast.not_gt
  omega

theorem notLonger_pos (hd : durations.Pairwise (· ≤ ·)) (hn : 0 < durations.length)
    (hfirst : (durations.getD 0 0 : ℚ) ≤ value) : 0 < notLonger durations value :=
  (lt_notLonger_iff hd hn).mpr hfirst

theorem notLonger_lt_iff (hd : durations.Pairwise (· ≤ ·)) (hn : 0 < durations.length) :
    notLonger durations value < durations.length ↔ value < durations.getD (durations.length - 1) 0 := by
  have hle : notLonger durations value ≤ durations.length := List.countP_le_length
  rw [← not_le (b := value), ← lt_notLonger_iff hd (show durations.length - 1 < durations.length by omega)]
  omega

theorem two_le_length (h : (durations.getD 0 0 : ℚ) < durations.getD (durations.length - 1) 0) :
    2 ≤ durations.length := by
  by_contra hone
  rw [show durations.length - 1 = 0 by omega] at h
  exact lt_irrefl _ h

/-- The loop stops behind the durations that continue it, when the first one does. -/
theorem indexFrom_eq_countP (hd : durations.Pairwise (· ≤ ·)) (hn : 0 < durations.length) {continues : Nat → Bool}
    (hc : ∀ a b, a ≤ b → continues b = true → continues a = true) (hfirst : continues (durations.getD 0 0) = true) :
    indexFrom continues durations = durations.countP continues := by
  cases durations with
  | nil => cases hn
  | cons d l =>
      have hd' : continues d = true := hfirst
      rw [indexFrom, List.drop_succ_cons, List.drop_zero, takeWhile_eq_filter hd.of_cons hc,
        ← List.countP_eq_length_filter, List.countP_cons_of_pos hd', Nat.add_comm]

theorem indexFrom_lt (hd : durations.Pairwise (· ≤ ·)) (hn : 0 < durations.length)
    (hfirst : (durations.getD 0 0 : ℚ) < value) :
    indexFrom (fun d => (d : ℚ) < value) durations = shorter durations value :=
  indexFrom_eq_countP hd hn shorter_closed (decide_eq_true hfirst)

theorem indexFrom_le (hd : durations.Pairwise (· ≤ ·)) (hn : 0 < durations.length)
    (hfirst : (durations.getD 0 0 : ℚ) < value) :
    indexFrom (fun d => (d : ℚ) ≤ value) durations = notLonger durations value :=
  indexFrom_eq_countP hd hn notLonger_closed (decide_eq_true hfirst.le)

/-! ## Between two durations -/

/-- The position of a percentile, between `0` and the last one. -/
def rankAt (durations : List Nat) (percentile : ℚ) : ℚ := percentile / 100 * (durations.length - 1)

theorem rankAt_nonneg (hn : 2 ≤ durations.length) (h0 : 0 ≤ percentile) : 0 ≤ rankAt durations percentile := by
  have : (2 : ℚ) ≤ durations.length := by exact_mod_cast hn
  exact mul_nonneg (by positivity) (by linarith)

theorem rankAt_le (hn : 2 ≤ durations.length) (h100 : percentile ≤ 100) :
    rankAt durations percentile ≤ durations.length - 1 := by
  have : (2 : ℚ) ≤ durations.length := by exact_mod_cast hn
  exact mul_le_of_le_one_left (by linarith) (by linarith)

theorem durationAtPercentile_eq (hn : 2 ≤ durations.length) : durationAtPercentile durations percentile =
    interpolate (fun k => (durations.getD k 0 : ℚ)) (rankAt durations percentile) := by
  rw [durationAtPercentile, if_neg (by omega), if_neg (by omega)]
  rfl

theorem one_le_sub {a b : Nat} (h : a < b) : (1 : ℚ) ≤ b - a := by
  have : (a : ℚ) + 1 ≤ b := by exact_mod_cast h
  linarith

/-- The fraction of the way between two different durations is found again. -/
theorem interpolated_of_between {k : Nat} {t : ℚ} (hlt : durations.getD k 0 < durations.getD (k + 1) 0) :
    interpolated durations ((durations.getD k 0 : ℚ) + ((durations.getD (k + 1) 0 : ℚ) - durations.getD k 0) * t)
      (k + 1) = (k + t) / (durations.length - 1) * 100 := by
  have hone : (1 : ℚ) ≤ durations.getD (k + 1) 0 - durations.getD k 0 := one_le_sub hlt
  have hne : (durations.getD (k + 1) 0 : ℚ) - durations.getD k 0 ≠ 0 := by linarith
  simp only [interpolated, Nat.add_sub_cancel, max_eq_right hone]
  rw [add_sub_cancel_left, mul_div_cancel_left₀ _ hne]
  push_cast
  ring

theorem durationAtPercentile_cases (hd : durations.Pairwise (· ≤ ·)) (hn : 2 ≤ durations.length)
    (h0 : 0 ≤ percentile) (h100 : percentile ≤ 100) :
    (∃ k, k < durations.length ∧ durationAtPercentile durations percentile = durations.getD k 0) ∨
      ∃ k, k + 1 < durations.length ∧
        (durations.getD k 0 : ℚ) < durationAtPercentile durations percentile ∧
        durationAtPercentile durations percentile < durations.getD (k + 1) 0 ∧
        interpolated durations (durationAtPercentile durations percentile) (k + 1) = percentile := by
  have hval : durationAtPercentile durations percentile = _ := durationAtPercentile_eq hn
  have hrn := rankAt_le hn h100
  have hfloor := Nat.floor_le (rankAt_nonneg hn h0)
  rcases eq_floor_or_ceil (rankAt_nonneg hn h0) with heq | ⟨hlow, hceil⟩
  · left
    have hk : ⌊rankAt durations percentile⌋₊ < durations.length := by
      have : (⌊rankAt durations percentile⌋₊ : ℚ) < durations.length := by linarith
      exact_mod_cast this
    refine ⟨⌊rankAt durations percentile⌋₊, hk, ?_⟩
    rw [hval, heq, interpolate_natCast, Nat.floor_natCast]
  · have hk : ⌊rankAt durations percentile⌋₊ + 1 < durations.length := by
      have : ((⌊rankAt durations percentile⌋₊ : ℚ) + 1) < durations.length := by linarith
      exact_mod_cast this
    rcases (getD_le hd (Nat.le_succ _) hk).lt_or_eq with hgap | hgap
    · right
      have hbetween := interpolate_between (f := fun k => (durations.getD k 0 : ℚ)) hlow
        (by rw [hceil]; exact Nat.cast_lt.mpr hgap)
      rw [← hval, hceil] at hbetween
      refine ⟨⌊rankAt durations percentile⌋₊, hk, hbetween.1, hbetween.2, ?_⟩
      have hne : (durations.length : ℚ) - 1 ≠ 0 := by
        have : (2 : ℚ) ≤ durations.length := by exact_mod_cast hn
        linarith
      rw [hval, interpolate, hceil, interpolated_of_between hgap, add_sub_cancel, rankAt]
      field_simp
    · left
      refine ⟨⌊rankAt durations percentile⌋₊, by omega, ?_⟩
      rw [hval]
      exact interpolate_of_eq (by rw [hceil]; exact congrArg Nat.cast hgap)

theorem durationAtPercentile_bounds (hd : durations.Pairwise (· ≤ ·)) (hn : 0 < durations.length)
    (h0 : 0 ≤ percentile) (h100 : percentile ≤ 100) :
    (durations.getD 0 0 : ℚ) ≤ durationAtPercentile durations percentile ∧
      durationAtPercentile durations percentile ≤ durations.getD (durations.length - 1) 0 := by
  by_cases hone : durations.length = 1
  · simp [durationAtPercentile, hone]
  · have hmono := getD_monotoneOn hd hn
    have hrank : rankAt durations percentile ≤ (durations.length - 1 : Nat) := by
      rw [Nat.cast_pred hn]
      exact rankAt_le (by omega) h100
    rw [durationAtPercentile_eq (by omega)]
    constructor
    · calc (durations.getD 0 0 : ℚ) ≤ durations.getD ⌊rankAt durations percentile⌋₊ 0 :=
          hmono (Nat.zero_le _) (Nat.floor_le_of_le hrank) (Nat.zero_le _)
        _ ≤ _ := floor_le_interpolate hmono (rankAt_nonneg (by omega) h0) hrank
    · calc interpolate _ (rankAt durations percentile) ≤ durations.getD ⌈rankAt durations percentile⌉₊ 0 :=
          interpolate_le_ceil hmono hrank
        _ ≤ _ := hmono (Nat.ceil_le.mpr hrank) (le_refl (durations.length - 1)) (Nat.ceil_le.mpr hrank)

theorem durationAtPercentile_zero (hn : 2 ≤ durations.length) :
    durationAtPercentile durations 0 = durations.getD 0 0 := by
  simp [durationAtPercentile, show durations.length ≠ 0 by omega, show durations.length ≠ 1 by omega]

theorem durationAtPercentile_hundred (hn : 2 ≤ durations.length) :
    durationAtPercentile durations 100 = durations.getD (durations.length - 1) 0 := by
  have hrank : (100 : ℚ) / 100 * (durations.length - 1) = ((durations.length - 1 : Nat) : ℚ) := by
    rw [Nat.cast_sub (by omega)]
    norm_num
  simp only [durationAtPercentile, show durations.length ≠ 0 by omega, show durations.length ≠ 1 by omega, if_false,
    hrank, Nat.floor_natCast, sub_self, mul_zero, add_zero]

/-! ## Back to a percentile -/

theorem percentileAtDuration_first (hfirst : value ≤ durations.getD 0 0) :
    percentileAtDuration durations value side = 0 := by
  simp only [percentileAtDuration.eq_def, hfirst, if_true, ite_self]

theorem percentileAtDuration_last (hn : 2 ≤ durations.length) (hfirst : (durations.getD 0 0 : ℚ) < value)
    (hlast : (durations.getD (durations.length - 1) 0 : ℚ) ≤ value) :
    percentileAtDuration durations value side = 100 := by
  rw [percentileAtDuration.eq_def, if_neg (by omega), if_neg hfirst.not_ge, if_pos hlast]

/-- The percentile of a value between the first and the last duration that is no duration. -/
theorem percentileAtDuration_gap (hd : durations.Pairwise (· ≤ ·)) (hn : 2 ≤ durations.length)
    (hfirst : (durations.getD 0 0 : ℚ) < value) (hlast : value < durations.getD (durations.length - 1) 0)
    (hne : ∀ d ∈ durations, (d : ℚ) ≠ value) :
    percentileAtDuration durations value side = interpolated durations value (shorter durations value) := by
  have hs : shorter durations value < durations.length := shorter_lt hd (by omega) hlast.le
  rw [percentileAtDuration.eq_def, if_neg (by omega), if_neg hfirst.not_ge, if_neg hlast.not_ge]
  cases side with
  | low =>
      simp only [indexFrom_lt hd (by omega) hfirst]
      rw [if_neg (hne _ (getD_mem hs))]
  | high =>
      simp only [indexFrom_le hd (by omega) hfirst, shorter_eq_notLonger hne]
      rw [if_neg (hne _ (getD_mem (by omega)))]

/-- The value that no duration equals leads back to its percentile. -/
theorem percentileAtDuration_between (hd : durations.Pairwise (· ≤ ·)) (hn : 2 ≤ durations.length)
    (h0 : 0 ≤ percentile) (h100 : percentile ≤ 100)
    (hne : ∀ d ∈ durations, (d : ℚ) ≠ durationAtPercentile durations percentile) :
    percentileAtDuration durations (durationAtPercentile durations percentile) side = percentile := by
  rcases durationAtPercentile_cases hd hn h0 h100 with ⟨k, hk, he⟩ | ⟨k, hk, hlow, hhigh, hint⟩
  · exact absurd he.symm (hne _ (getD_mem hk))
  · generalize durationAtPercentile durations percentile = value at hne hlow hhigh hint
    have hfirst : (durations.getD 0 0 : ℚ) < value :=
      (Nat.cast_le.mpr (getD_le hd (Nat.zero_le k) (by omega))).trans_lt hlow
    have hlast : value < durations.getD (durations.length - 1) 0 :=
      hhigh.trans_le (Nat.cast_le.mpr (getD_le hd (by omega) (by omega)))
    have hs : shorter durations value = k + 1 := by
      have h₁ := (lt_shorter_iff hd (show k < durations.length by omega)).mpr hlow
      have h₂ := (lt_shorter_iff hd hk).not.mpr hhigh.le.not_gt
      omega
    rw [percentileAtDuration_gap hd hn hfirst hlast hne, hs, hint]

/-- A value that is a duration is ranked behind the shorter durations on the low side. -/
theorem percentileAtDuration_low (hd : durations.Pairwise (· ≤ ·)) (hn : 2 ≤ durations.length)
    (hfirst : (durations.getD 0 0 : ℚ) < value) (hlast : value < durations.getD (durations.length - 1) 0)
    (hmem : ∃ d ∈ durations, (d : ℚ) = value) :
    percentileAtDuration durations value .low = shorter durations value / (durations.length - 1) * 100 := by
  obtain ⟨d, hm, rfl⟩ := hmem
  obtain ⟨k, hk, rfl⟩ := List.mem_iff_getElem.mp hm
  rw [← List.getD_eq_getElem _ 0 hk] at hfirst hlast ⊢
  have hlt : shorter durations (durations.getD k 0) < durations.length := shorter_lt hd (by omega) hlast.le
  -- the duration behind the shorter ones is the value itself
  have heq : (durations.getD (shorter durations (durations.getD k 0)) 0 : ℚ) = durations.getD k 0 := by
    have hk' : ¬ k < shorter durations (durations.getD k 0) := (lt_shorter_iff hd hk).not.mpr (lt_irrefl _)
    refine le_antisymm (Nat.cast_le.mpr (getD_le hd (by omega) hk)) ?_
    exact not_lt.mp ((lt_shorter_iff hd hlt).not.mp (lt_irrefl _))
  rw [percentileAtDuration, if_neg (by omega), if_neg hfirst.not_ge, if_neg hlast.not_ge]
  simp only [indexFrom_lt hd (by omega) hfirst, heq, if_true]

/-- A value that is a duration is ranked behind all durations up to it on the high side. -/
theorem percentileAtDuration_high (hd : durations.Pairwise (· ≤ ·)) (hn : 2 ≤ durations.length)
    (hfirst : (durations.getD 0 0 : ℚ) < value) (hlast : value < durations.getD (durations.length - 1) 0)
    (hmem : ∃ d ∈ durations, (d : ℚ) = value) :
    percentileAtDuration durations value .high = notLonger durations value / (durations.length - 1) * 100 := by
  obtain ⟨d, hm, rfl⟩ := hmem
  obtain ⟨k, hk, rfl⟩ := List.mem_iff_getElem.mp hm
  rw [← List.getD_eq_getElem _ 0 hk] at hfirst hlast ⊢
  have hk' : k < notLonger durations (durations.getD k 0) := (lt_notLonger_iff hd hk).mpr (le_refl _)
  have hle : notLonger durations (durations.getD k 0) ≤ durations.length := List.countP_le_length
  have heq : (durations.getD (notLonger durations (durations.getD k 0) - 1) 0 : ℚ) = durations.getD k 0 := by
    refine le_antisymm ?_ (Nat.cast_le.mpr (getD_le hd (by omega) (by omega)))
    exact (lt_notLonger_iff hd (by omega)).mp (by omega)
  rw [percentileAtDuration, if_neg (by omega), if_neg hfirst.not_ge, if_neg hlast.not_ge]
  simp only [indexFrom_le hd (by omega) hfirst, heq, if_true]

end SliceProfiler.Viewer
