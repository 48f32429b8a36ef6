import Mathlib.Tactic.FieldSimp
import SliceProfiler.Core.Lemmas.Query
import SliceProfiler.Lib.Interpolate

/-!
# Interpolated percentiles

The position of a percentile is on a scale from `0` to the last index. It is never behind the first rank that the
same percentile selects, which is on a scale of the number of durations.
-/

namespace SliceProfiler

open Lib

variable {durations : List Nat} {percentile : ℚ}

/-- The position of a percentile among `count` durations. -/
def r7Rank (count : Nat) (percentile : ℚ) : ℚ := max 0 (min 100 percentile) / 100 * (count - 1 : Nat)

/-- The two indices at which `percentileR7` reads. -/
def r7Indices (count : Nat) (percentile : ℚ) : Nat × Nat :=
  (⌊r7Rank count percentile⌋₊, ⌈r7Rank count percentile⌉₊)

theorem clamp_eq (h0 : 0 ≤ percentile) (h100 : percentile ≤ 100) : max 0 (min 100 percentile) = percentile := by
  rw [min_eq_right h100, max_eq_right h0]

theorem r7Rank_nonneg (count : Nat) (percentile : ℚ) : 0 ≤ r7Rank count percentile :=
  mul_nonneg (div_nonneg (le_max_left _ _) (by norm_num)) (Nat.cast_nonneg _)

theorem r7Rank_mono {count : Nat} {low high : ℚ} (h : low ≤ high) : r7Rank count low ≤ r7Rank count high := by
  refine mul_le_mul_of_nonneg_right ?_ (Nat.cast_nonneg _)
  exact div_le_div_of_nonneg_right (max_le_max_left 0 (min_le_min_left 100 h)) (by norm_num)

theorem r7Rank_zero (count : Nat) : r7Rank count 0 = 0 := by
  simp [r7Rank]

theorem r7Rank_hundred (count : Nat) : r7Rank count 100 = (count - 1 : Nat) := by
  simp [r7Rank]

theorem r7Rank_le (count : Nat) (percentile : ℚ) : r7Rank count percentile ≤ (count - 1 : Nat) := by
  refine mul_le_of_le_one_left (Nat.cast_nonneg _) ?_
  rw [div_le_one (by norm_num)]
  exact max_le (by norm_num) (min_le_left _ _)

theorem r7Indices_lt (hn : 0 < durations.length) (percentile : ℚ) :
    (r7Indices durations.length percentile).1 < durations.length ∧
      (r7Indices durations.length percentile).2 < durations.length := by
  have hle := r7Rank_le durations.length percentile
  have hfloor : (r7Indices durations.length percentile).1 ≤ durations.length - 1 := Nat.floor_le_of_le hle
  have hceil : (r7Indices durations.length percentile).2 ≤ durations.length - 1 := Nat.ceil_le.mpr hle
  omega

theorem percentileR7_eq (hn : 0 < durations.length) : percentileR7 durations percentile =
    some (interpolate (fun k => (durations.getD k 0 : ℚ)) (r7Rank durations.length percentile)) := by
  match durations with
  | [first] => simp [percentileR7, interpolate, r7Rank]
  | first :: second :: rest => rfl

/-- The two indices are inside the list, and the value is on the line between the durations there. -/
structure R7Reads (durations : List Nat) (percentile : ℚ) : Prop where
  lower : (r7Indices durations.length percentile).1 < durations.length
  upper : (r7Indices durations.length percentile).2 < durations.length
  value : percentileR7 durations percentile = some ((durations.get ⟨_, lower⟩ : ℚ) +
    ((durations.get ⟨_, upper⟩ : ℚ) - durations.get ⟨_, lower⟩) *
      (r7Rank durations.length percentile - (r7Indices durations.length percentile).1))

theorem r7Reads (hn : 0 < durations.length) : R7Reads durations percentile := by
  have hlt := r7Indices_lt hn percentile
  refine ⟨hlt.1, hlt.2, ?_⟩
  have hget : ∀ {k} (hk : k < durations.length), (durations.get ⟨k, hk⟩ : ℚ) = durations.getD k 0 := by
    intro k hk
    rw [List.getD_eq_getElem _ _ hk, List.get_eq_getElem]
  rw [percentileR7_eq hn, hget, hget]
  rfl

theorem percentileR7_zero (hn : 0 < durations.length) :
    percentileR7 durations 0 = some (durations.getD 0 0 : ℚ) := by
  have h := interpolate_natCast (f := fun k => (durations.getD k 0 : ℚ)) 0
  rw [percentileR7_eq hn, r7Rank_zero, ← h, Nat.cast_zero]

theorem percentileR7_hundred (hn : 0 < durations.length) :
    percentileR7 durations 100 = some (durations.getD (durations.length - 1) 0 : ℚ) := by
  rw [percentileR7_eq hn, r7Rank_hundred, interpolate_natCast]

theorem percentileR7_mono (hd : durations.Pairwise (· ≤ ·)) (hn : 0 < durations.length) {low high : ℚ}
    (h : low ≤ high) : ∃ a b, percentileR7 durations low = some a ∧ percentileR7 durations high = some b ∧ a ≤ b :=
  ⟨_, _, percentileR7_eq hn, percentileR7_eq hn,
    interpolate_mono (getD_monotoneOn hd hn) (r7Rank_nonneg _ _) (r7Rank_mono h) (r7Rank_le _ _)⟩

/-! ## Against the selected ranks -/

theorem ceil_r7Rank_le (count : Nat) {low : Nat} (hl : low ≤ 100) :
    ⌈r7Rank count low⌉₊ ≤ (count * low + 99) / 100 := by
  have hrank : r7Rank count low = ((low * (count - 1) : Nat) : ℚ) / 100 := by
    rw [r7Rank, clamp_eq (Nat.cast_nonneg _) (by exact_mod_cast hl)]
    push_cast
    ring
  have hmul : low * (count - 1) ≤ count * low := (Nat.mul_le_mul_left low (Nat.sub_le _ _)).trans_eq (Nat.mul_comm _ _)
  have hle : low * (count - 1) ≤ (count * low + 99) / 100 * 100 := by omega
  rw [Nat.ceil_le, hrank, div_le_iff₀ (by norm_num)]
  exact_mod_cast hle

/-- Where the arithmetic of the lower bound saturates, that of the upper one does too, and the range is empty. -/
theorem start_eq_of_lt {count : Nat} {range : PercentileRange} (hl : range.low ≤ range.high)
    (h : (rankBounds count range).1 < (rankBounds count range).2) :
    (rankBounds count range).1 = min ((count * range.low + 99) / 100) count := by
  have hmul : count * range.low ≤ count * range.high := Nat.mul_le_mul_left count hl
  simp only [rankBounds, satAdd64, satMul64, saturatingAdd, saturatingMul] at h ⊢
  generalize u64Max = max at h ⊢
  omega

theorem mem_selected_durations {p : Profile} {q : Query} {d : Nat}
    (hd : d ∈ (selected p q).map (·.durationNs)) :
    ∃ k, (rankBounds (candidates p q).length q.percentile).1 ≤ k ∧ k < (candidates p q).length ∧
      k < (rankBounds (candidates p q).length q.percentile).2 ∧
      ((candidates p q).map (·.durationNs)).getD k 0 = d := by
  obtain ⟨i, hi, rfl⟩ := List.mem_map.mp hd
  obtain ⟨k, hk, rfl⟩ := List.mem_iff_getElem.mp hi
  simp only [selected, List.length_take, List.length_drop] at hk
  refine ⟨(rankBounds (candidates p q).length q.percentile).1 + k, by omega, by omega, by omega, ?_⟩
  rw [List.getD_eq_getElem _ _ (by rw [List.length_map]; omega), List.getElem_map]
  simp only [selected, List.getElem_take, List.getElem_drop]

theorem percentileLow_le_latencyMin {p : Profile} {q : Query} {r : QueryResult} (h : executeQuery p q = .ok r)
    (hs : r.selectedInvocationIds ≠ []) :
    ∃ low latency, r.percentileLowValueNs = some low ∧ r.latencyMinNs = some latency ∧ low ≤ latency := by
  obtain ⟨hlh, hh, -⟩ := executeQuery_checks h
  simp only [executeQuery, bind_eq_ok] at h
  obtain ⟨_, -, _, -, t, -, h⟩ := h
  cases h
  simp only [ne_eq, List.map_eq_nil_iff] at hs
  have hne : (selected p q).map (·.durationNs) ≠ [] := mt List.map_eq_nil_iff.mp hs
  obtain ⟨latency, hmin⟩ := Option.isSome_iff_exists.mp (List.isSome_min?_of_ne_nil hne)
  obtain ⟨k, hstart, hk, hstop, hd⟩ := mem_selected_durations (List.min?_mem hmin)
  have hn : ((candidates p q).map (·.durationNs)).length = (candidates p q).length := List.length_map _
  have hpos : 0 < ((candidates p q).map (·.durationNs)).length := by omega
  refine ⟨_, latency, percentileR7_eq hpos, hmin, ?_⟩
  have hceil : ⌈r7Rank (candidates p q).length q.percentile.low⌉₊ ≤ k := by
    have hrank := ceil_r7Rank_le (candidates p q).length (show q.percentile.low ≤ 100 by omega)
    have hbound := start_eq_of_lt (show q.percentile.low ≤ q.percentile.high by omega) (hstart.trans_lt hstop)
    have hle := Nat.ceil_le.mpr (r7Rank_le (candidates p q).length q.percentile.low)
    omega
  rw [hn, ← hd]
  exact (interpolate_le_ceil (getD_monotoneOn (candidates_durations_sorted) hpos)
    (hn ▸ r7Rank_le _ _)).trans (Nat.cast_le.mpr (getD_le (candidates_durations_sorted) hceil (by omega)))

/-! ## The latencies of a query -/

/-- The durations between the rank bounds. -/
def rankBand (durations : List Nat) (range : PercentileRange) : List Nat :=
  let (start, stop) := rankBounds durations.length range
  (durations.drop start).take (stop - start)

/-- Everything that a result tells of latencies comes from the durations. -/
structure QueryResult.Measures (r : QueryResult) (durations : List Nat) (range : PercentileRange) : Prop where
  available : r.availableInvocationCount = durations.length
  selected : r.selectedInvocationIds.length = (rankBand durations range).length
  latencyMin : r.latencyMinNs = (rankBand durations range).min?
  latencyMax : r.latencyMaxNs = (rankBand durations range).max?
  percentileLow : r.percentileLowValueNs = percentileR7 durations range.low
  percentileHigh : r.percentileHighValueNs = percentileR7 durations range.high

theorem executeQuery_measures {p : Profile} {q : Query} {r : QueryResult} (h : executeQuery p q = .ok r) :
    r.Measures ((candidates p q).map (·.durationNs)) q.percentile := by
  have hband : rankBand ((candidates p q).map (·.durationNs)) q.percentile = (selected p q).map (·.durationNs) := by
    simp only [rankBand, selected, List.length_map, List.map_take, List.map_drop]
  simp only [executeQuery, bind_eq_ok] at h
  obtain ⟨_, -, _, -, t, -, h⟩ := h
  cases h
  constructor
  · rw [List.length_map]
  · rw [hband, List.length_map, List.length_map]
  · rw [hband]
  · rw [hband]
  · rfl
  · rfl

end SliceProfiler
