import SliceProfiler.Viewer.Lemmas.Percentile

/-!
# Ranks after the way through durations

When the latency window of the page selects the ranks of the percentiles that it stems from.
-/

namespace SliceProfiler.Viewer

open Lib

variable {durations : List Nat} {low high : Nat}

/-! ## Ranks of percentiles -/

theorem ceil_percent (n percent : Nat) : ⌈(n * percent / 100 : ℚ)⌉₊ = n * percent ⌈/⌉ 100 := by
  refine eq_of_forall_ge_iff fun c => ?_
  rw [Nat.ceil_le, ceilDiv_le_iff_le_mul (by decide), div_le_iff₀ (by norm_num)]
  have h : (n * percent : ℚ) ≤ c * 100 ↔ n * percent ≤ c * 100 := by exact_mod_cast Iff.rfl
  rw [h, Nat.mul_comm c]

theorem ceil_hundred (n : Nat) : ⌈(n * 100 / 100 : ℚ)⌉₊ = n := by
  rw [mul_div_assoc, div_self (by norm_num), mul_one, Nat.ceil_natCast]

theorem ceilDiv_le (n : Nat) {percent : Nat} (h : percent ≤ 100) : n * percent ⌈/⌉ 100 ≤ n := by
  rw [ceilDiv_le_iff_le_mul (by decide), Nat.mul_comm 100]
  exact Nat.mul_le_mul_left n h

theorem ceil_position {n k : Nat} (hk : 0 < k) (hkn : k < n) :
    ⌈(n * (k / (n - 1) * 100) / 100 : ℚ)⌉₊ = k + 1 := by
  have hn : (0 : ℚ) < n - 1 := by
    have : (2 : ℚ) ≤ n := by exact_mod_cast (show 2 ≤ n by omega)
    linarith
  have heq : (n * (k / (n - 1) * 100) / 100 : ℚ) = k + k / (n - 1) := by
    field_simp
    ring
  have hpos : (0 : ℚ) < k / (n - 1) := div_pos (by exact_mod_cast hk) hn
  have hone : (k : ℚ) / (n - 1) ≤ 1 := by
    have : (k : ℚ) + 1 ≤ n := by exact_mod_cast hkn
    rw [div_le_one hn]
    linarith
  rw [heq, Nat.ceil_eq_iff (by omega)]
  constructor
  · rw [Nat.add_sub_cancel]; linarith
  · push_cast; linarith

/-- The rank of a position between `k - 1` and `k`, the fraction `t` behind `k - 1`. -/
theorem ceil_between {n k : Nat} (hk : 0 < k) (hkn : k < n) {t : ℚ} (h0 : 0 < t) (h1 : t < 1) :
    ⌈(n * ((k - 1 + t) / (n - 1) * 100) / 100 : ℚ)⌉₊ = if n * t ≤ n - k then k else k + 1 := by
  have hk' : (1 : ℚ) ≤ k := by exact_mod_cast hk
  have hkn' : (k : ℚ) + 1 ≤ n := by exact_mod_cast hkn
  have hn : (0 : ℚ) < n - 1 := by linarith
  have heq : (n * ((k - 1 + t) / (n - 1) * 100) / 100 : ℚ) = n * (k - 1 + t) / (n - 1) := by
    field_simp
  rw [heq]
  split
  · rename_i h
    rw [Nat.ceil_eq_iff (by omega), lt_div_iff₀ hn, div_le_iff₀ hn, Nat.cast_sub hk, Nat.cast_one]
    constructor <;> nlinarith
  · rename_i h
    rw [Nat.ceil_eq_iff (by omega), lt_div_iff₀ hn, div_le_iff₀ hn, Nat.add_sub_cancel, Nat.cast_add, Nat.cast_one]
    constructor <;> nlinarith

/-! ## Edges -/

/-- The low percentile keeps its rank: it is `0`, or no duration is equal to its value, or its rank is the one
behind the shorter durations. -/
def KeepsLowRank (durations : List Nat) (low : Nat) : Prop :=
  low = 0 ∨ (∀ d ∈ durations, (d : ℚ) ≠ durationAtPercentile durations low) ∨
    0 < shorter durations (durationAtPercentile durations low) ∧
      durations.length * low ⌈/⌉ 100 = shorter durations (durationAtPercentile durations low) + 1

/-- The high percentile keeps its rank: it is `100`, or no duration is equal to its value, or its rank is the one
behind the durations that are not longer, as far as there is one. -/
def KeepsHighRank (durations : List Nat) (high : Nat) : Prop :=
  high = 100 ∨ (∀ d ∈ durations, (d : ℚ) ≠ durationAtPercentile durations high) ∨
    durations.length * high ⌈/⌉ 100 =
      min durations.length (notLonger durations (durationAtPercentile durations high) + 1)

/-- Both percentiles keep their ranks, or have the same value. -/
def KeepsRanks (durations : List Nat) (range : PercentileRange) : Prop :=
  durationAtPercentile durations range.high ≤ durationAtPercentile durations range.low ∨
    KeepsLowRank durations range.low ∧ KeepsHighRank durations range.high

theorem KeepsLowRank.rank (h : KeepsLowRank durations low) (hd : durations.Pairwise (· ≤ ·))
    (hn : 2 ≤ durations.length) (hlow : low ≤ 100)
    (hlast : durationAtPercentile durations low < durations.getD (durations.length - 1) 0) :
    min durations.length ⌈(durations.length * percentileAtDuration durations (durationAtPercentile durations low) .low
      / 100 : ℚ)⌉₊ = durations.length * low ⌈/⌉ 100 := by
  have hsame : (∀ d ∈ durations, (d : ℚ) ≠ durationAtPercentile durations low) →
      min durations.length ⌈(durations.length * percentileAtDuration durations
        (durationAtPercentile durations low) .low / 100 : ℚ)⌉₊ = durations.length * low ⌈/⌉ 100 := by
    intro hne
    rw [percentileAtDuration_between hd hn (Nat.cast_nonneg low) (by exact_mod_cast hlow) hne, ceil_percent,
      Nat.min_eq_right (ceilDiv_le _ hlow)]
  rcases h with rfl | hne | ⟨hpos, hrank⟩
  · rw [Nat.cast_zero, durationAtPercentile_zero hn, percentileAtDuration_first (le_refl _)]
    simp
  · exact hsame hne
  · by_cases hmem : ∃ d ∈ durations, (d : ℚ) = durationAtPercentile durations low
    · have hfirst := (lt_shorter_iff hd (by omega)).mp hpos
      have hlt := shorter_lt hd (by omega) hlast.le
      rw [percentileAtDuration_low hd hn hfirst hlast hmem, ceil_position hpos hlt, hrank]
      omega
    · exact hsame fun d hd he => hmem ⟨d, hd, he⟩

theorem KeepsHighRank.rank (h : KeepsHighRank durations high) (hd : durations.Pairwise (· ≤ ·))
    (hn : 2 ≤ durations.length) (hhigh : high ≤ 100)
    (hfirst : (durations.getD 0 0 : ℚ) < durationAtPercentile durations high) :
    min durations.length ⌈(durations.length * percentileAtDuration durations (durationAtPercentile durations high) .high
      / 100 : ℚ)⌉₊ = durations.length * high ⌈/⌉ 100 := by
  have hsame : (∀ d ∈ durations, (d : ℚ) ≠ durationAtPercentile durations high) →
      min durations.length ⌈(durations.length * percentileAtDuration durations
        (durationAtPercentile durations high) .high / 100 : ℚ)⌉₊ = durations.length * high ⌈/⌉ 100 := by
    intro hne
    rw [percentileAtDuration_between hd hn (Nat.cast_nonneg high) (by exact_mod_cast hhigh) hne, ceil_percent,
      Nat.min_eq_right (ceilDiv_le _ hhigh)]
  have hlast : (durations.getD (durations.length - 1) 0 : ℚ) ≤ durationAtPercentile durations high →
      min durations.length ⌈(durations.length * percentileAtDuration durations
        (durationAtPercentile durations high) .high / 100 : ℚ)⌉₊ = durations.length := by
    intro hle
    rw [percentileAtDuration_last hn hfirst hle, ceil_hundred, Nat.min_self]
  rcases h with rfl | hne | hrank
  · rw [hlast (by rw [Nat.cast_ofNat, durationAtPercentile_hundred hn]), Nat.mul_comm, ← smul_eq_mul,
      smul_ceilDiv (by decide)]
  · exact hsame hne
  · rcases le_or_gt (durations.getD (durations.length - 1) 0 : ℚ) (durationAtPercentile durations high) with hle | hgt
    · have hall := (notLonger_lt_iff hd (by omega)).not.mpr hle.not_gt
      rw [hlast hle, hrank]
      omega
    · by_cases hmem : ∃ d ∈ durations, (d : ℚ) = durationAtPercentile durations high
      · have hpos := notLonger_pos hd (by omega) hfirst.le
        have hlt := (notLonger_lt_iff hd (by omega)).mpr hgt
        rw [percentileAtDuration_high hd hn hfirst hgt hmem, ceil_position hpos hlt, hrank]
      · exact hsame fun d hd he => hmem ⟨d, hd, he⟩

/-! ## The latency window -/

/-- The window and the range of the durations share more than a point. -/
def Overlaps (durations : List Nat) (w : Window) : Prop :=
  (durations.getD 0 0 : ℚ) < durations.getD (durations.length - 1) 0 ∧ w.low < w.high ∧
    w.low < durations.getD (durations.length - 1) 0 ∧ (durations.getD 0 0 : ℚ) < w.high

instance {w : Window} : Decidable (Overlaps durations w) := inferInstanceAs (Decidable (_ ∧ _))

theorem cut_lt_iff {first last low high : ℚ} :
    max first (min last low) < max (max first (min last low)) (min last high) ↔
      first < last ∧ low < high ∧ low < last ∧ first < high := by
  rw [lt_max_iff, or_iff_right (lt_irrefl _), max_lt_iff, lt_min_iff, lt_min_iff, min_lt_iff, min_lt_iff]
  constructor
  · rintro ⟨⟨hfl, hfh⟩, h₁, h₂⟩
    have hlast := h₁.resolve_left (lt_irrefl _)
    exact ⟨hfl, h₂.elim (fun hl => hlast.trans hl) id, hlast, hfh⟩
  · rintro ⟨hfl, hlh, hll, hfh⟩
    exact ⟨⟨hfl, hfh⟩, .inr hll, .inr hlh⟩

/-- A window that overlaps the durations is cut to their range and sets the percentiles. Any other one is cut to a
point, which leaves them. -/
theorem percentile_syncLatencyWindow {s : State} {w : Window} (hne : durations ≠ [])
    (hw : s.latency.getD ⟨durationAtPercentile durations s.percentile.low,
      durationAtPercentile durations s.percentile.high⟩ = w) :
    (s.syncLatencyWindow durations).2.percentile = if Overlaps durations w then
      ⟨percentileAtDuration durations (max (durations.getD 0 0) w.low) .low,
        percentileAtDuration durations (min (durations.getD (durations.length - 1) 0) w.high) .high⟩
      else s.percentile := by
  have hlen : durations.length ≠ 0 := fun h => hne (List.length_eq_zero_iff.mp h)
  simp only [State.syncLatencyWindow, hlen, if_false, hw]
  by_cases ho : Overlaps durations w
  · rw [if_pos (cut_lt_iff.mpr ho), if_pos ho]
    obtain ⟨hfl, hlh, hll, hfh⟩ := ho
    rw [min_eq_right hll.le, max_eq_right (max_le (le_min hfl.le hfh.le) (le_min hll.le hlh.le))]
  · rw [if_neg (cut_lt_iff.not.mpr ho), if_neg ho]

theorem rankBounds_percentile {n : Nat} {range : PercentileRange} (hlow : range.low ≤ 100) (hhigh : range.high ≤ 100) :
    rankBounds n ⟨range.low, range.high⟩ = (n * range.low ⌈/⌉ 100, n * range.high ⌈/⌉ 100) := by
  simp only [rankBounds, ceil_percent, Nat.min_eq_right (ceilDiv_le n hlow), Nat.min_eq_right (ceilDiv_le n hhigh)]

/-- The first latency window leads to the ranks of the percentiles. -/
theorem rankBounds_syncLatencyWindow {s : State} {range : PercentileRange} (hd : durations.Pairwise (· ≤ ·))
    (hlatency : s.latency = none) (hpercentile : s.percentile = ⟨range.low, range.high⟩) (hlow : range.low ≤ 100)
    (hhigh : range.high ≤ 100) (hk : KeepsRanks durations range) :
    rankBounds durations.length (s.syncLatencyWindow durations).2.percentile =
      (durations.length * range.low ⌈/⌉ 100, durations.length * range.high ⌈/⌉ 100) := by
  by_cases hempty : durations = []
  · simp only [State.syncLatencyWindow, hempty, List.length_nil, if_true, hpercentile,
      rankBounds_percentile hlow hhigh]
  · have hn : 0 < durations.length := List.length_pos_iff.mpr hempty
    have hbounds : ∀ k : Nat, k ≤ 100 → (durations.getD 0 0 : ℚ) ≤ durationAtPercentile durations k ∧
        durationAtPercentile durations k ≤ durations.getD (durations.length - 1) 0 :=
      fun k hk => durationAtPercentile_bounds hd hn (Nat.cast_nonneg k) (by exact_mod_cast hk)
    obtain ⟨hl0, -⟩ := hbounds range.low hlow
    obtain ⟨-, hh1⟩ := hbounds range.high hhigh
    rw [percentile_syncLatencyWindow hempty (by rw [hlatency, hpercentile, Option.getD_none]), hpercentile,
      max_eq_right hl0, min_eq_right hh1]
    split
    · rename_i ho
      obtain ⟨hfl, hlh, hll, hfh⟩ := ho
      have hn2 : 2 ≤ durations.length := two_le_length hfl
      rcases hk with hle | ⟨hkl, hkh⟩
      · exact absurd hlh hle.not_gt
      · rw [rankBounds, hkl.rank hd hn2 hlow hll, hkh.rank hd hn2 hhigh hfh]
    · exact rankBounds_percentile hlow hhigh

end SliceProfiler.Viewer
