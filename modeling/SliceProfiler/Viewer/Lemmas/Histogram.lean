import SliceProfiler.Viewer.Histogram

/-!
# The buckets of the histogram

A bucket holds the durations inside its interval, except that the last one also holds those at the end of the range.
-/

namespace SliceProfiler.Viewer

open Lib

variable {s : State} {durations : List Nat} {h : Histogram}

/-! ## The range -/

theorem min?_le_of_mem {d : Nat} (hd : d ∈ durations) : durations.min?.getD 0 ≤ d := by
  cases hm : durations.min? with
  | none => exact Nat.zero_le d
  | some m => exact (List.min?_eq_some_iff.mp hm).2 d hd

theorem le_max?_of_mem {d : Nat} (hd : d ∈ durations) : d ≤ durations.max?.getD 0 := by
  cases hm : durations.max? with
  | none => rw [List.max?_eq_none_iff.mp hm] at hd; cases hd
  | some m => exact (List.max?_eq_some_iff.mp hm).2 d hd

theorem max?_mem_of_ne_nil (hne : durations ≠ []) : durations.max?.getD 0 ∈ durations := by
  cases hm : durations.max? with
  | none => exact absurd (List.max?_eq_none_iff.mp hm) hne
  | some m => exact (List.max?_eq_some_iff.mp hm).1

theorem histogramRange_auto (hs : s.histogramBucketSizeNs = none) : s.histogramRange durations =
    ⟨(durations.min?.getD 0 : Nat), (durations.max?.getD 0 : Nat)⟩ := by
  simp only [State.histogramRange, hs]

theorem histogramRange_fixed {w : ℚ} (hs : s.histogramBucketSizeNs = some w) (hw : 0 < w) (durations : List Nat) :
    (s.histogramRange durations).low = ⌊((durations.min?.getD 0 : Nat) : ℚ) / w⌋ * w ∧
    (s.histogramRange durations).high - (s.histogramRange durations).low =
      max 1 ⌈((durations.max?.getD 0 : Nat) - (s.histogramRange durations).low) / w⌉ * w := by
  simp only [State.histogramRange, hs, if_neg hw.ne', add_sub_cancel_left, and_self]

theorem histogramRange_low_le (hw : ∀ w, s.histogramBucketSizeNs = some w → 0 < w) {d : Nat} (hd : d ∈ durations) :
    (s.histogramRange durations).low ≤ d := by
  have hmin : ((durations.min?.getD 0 : Nat) : ℚ) ≤ d := Nat.cast_le.mpr (min?_le_of_mem hd)
  cases hs : s.histogramBucketSizeNs with
  | none => rw [histogramRange_auto hs]; exact hmin
  | some w =>
      rw [(histogramRange_fixed hs (hw w hs) _).1]
      refine le_trans ?_ hmin
      rw [← le_div_iff₀ (hw w hs)]
      exact Int.floor_le _

theorem histogramBins_pos (s : State) (durations : List Nat) : 0 < s.histogramBins durations := by
  unfold State.histogramBins
  dsimp only
  split
  · decide
  · split
    · decide
    · exact Nat.lt_of_lt_of_le Nat.one_pos (le_max_left _ _)

theorem max_lt_end_iff (hne : durations ≠ []) (hw : ∀ w, s.histogramBucketSizeNs = some w → 0 < w) :
    ((durations.max?.getD 0 : Nat) : ℚ) < (s.histogramRange durations).low +
      max 1 ((s.histogramRange durations).high - (s.histogramRange durations).low) ↔ s.EndsInsideBucket durations := by
  have hle : ((durations.min?.getD 0 : Nat) : ℚ) ≤ (durations.max?.getD 0 : Nat) :=
    Nat.cast_le.mpr (min?_le_of_mem (max?_mem_of_ne_nil hne))
  have hlow : (s.histogramRange durations).low ≤ (durations.max?.getD 0 : Nat) :=
    histogramRange_low_le hw (max?_mem_of_ne_nil hne)
  cases hs : s.histogramBucketSizeNs with
  | none =>
      rw [histogramRange_auto hs]
      simp only [State.EndsInsideBucket, hs]
      constructor
      · intro hlt
        by_contra hne'
        have hone : ((durations.min?.getD 0 : Nat) : ℚ) + 1 ≤ (durations.max?.getD 0 : Nat) := by
          exact_mod_cast lt_of_le_of_ne hle (Ne.symm hne')
        rw [max_eq_right (by linarith)] at hlt
        linarith
      · intro he
        rw [he, sub_self, max_eq_left (by norm_num)]
        linarith
  | some w =>
      have hpos := hw w hs
      obtain ⟨hl, hspan⟩ := histogramRange_fixed hs hpos durations
      rw [hl] at hlow
      rw [hspan, hl]
      simp only [State.EndsInsideBucket, hs]
      exact lt_end_iff hpos hlow

/-! ## The buckets -/

theorem paintHistogram_eq_some (hp : s.paintHistogram durations = some h) :
    h.min = (s.histogramRange durations).low ∧ h.bins = s.histogramBins durations ∧
      h.span = max 1 ((s.histogramRange durations).high - (s.histogramRange durations).low) ∧
      h.bucketByIndex = durations.map (fun d : Nat => bucketOf h.min h.span h.bins d) ∧
      h.counts = countInto h.bins h.bucketByIndex := by
  unfold State.paintHistogram at hp
  split at hp
  · cases hp
  · cases hp
    exact ⟨rfl, rfl, rfl, rfl, rfl⟩

theorem bucketHigh_eq (h : Histogram) (index : ℤ) :
    h.bucketHigh index = bucketEdge h.min h.span h.bins (index + 1) := rfl

/-- Only the end of the range can be outside the interval of its bucket. -/
theorem honest_iff (hne : durations ≠ []) (hw : ∀ w, s.histogramBucketSizeNs = some w → 0 < w)
    (hp : s.paintHistogram durations = some h) : h.Honest durations ↔ s.EndsInsideBucket durations := by
  obtain ⟨hmin, hbins, hspan, hbuckets, hcounts⟩ := paintHistogram_eq_some hp
  have hb : 0 < h.bins := hbins ▸ histogramBins_pos s durations
  have hs : 0 < h.span := by
    rw [hspan]
    exact lt_max_of_lt_left one_pos
  rw [← max_lt_end_iff hne hw, ← hspan, ← hmin]
  constructor
  · intro hh
    obtain ⟨k, hk, he⟩ := List.mem_iff_getElem.mp (max?_mem_of_ne_nil hne)
    have hk' : durations[k]? = some (durations.max?.getD 0) := List.getElem?_eq_some_iff.mpr ⟨hk, he⟩
    have hin := (hh.within k _ _ (by rw [hbuckets, List.getElem?_map, hk']; rfl) hk').2
    rwa [bucketHigh_eq, lt_bucketEdge_iff hb hs] at hin
  · intro hlt
    have hindices : ∀ index ∈ h.bucketByIndex, 0 ≤ index ∧ index < h.bins := by
      intro index hi
      rw [hbuckets] at hi
      obtain ⟨d, hd, rfl⟩ := List.mem_map.mp hi
      exact ⟨bucketOf_nonneg hb hs (hmin ▸ histogramRange_low_le hw hd), bucketOf_lt _ _ _ _⟩
    have hlen : h.bucketByIndex.length = durations.length := by rw [hbuckets, List.length_map]
    refine ⟨hlen, hindices, by rw [hcounts, length_countInto], fun index hi => by rw [hcounts, getElem?_countInto hi],
      by rw [hcounts, sum_countInto hindices, hlen], ?_⟩
    intro k index d hk hd
    rw [hbuckets, List.getElem?_map, hd, Option.map_some, Option.some.injEq] at hk
    subst hk
    have hmax : (d : ℚ) ≤ (durations.max?.getD 0 : Nat) := Nat.cast_le.mpr (le_max?_of_mem (List.mem_of_getElem? hd))
    exact ⟨bucketEdge_bucketOf_le hb hs, (lt_bucketEdge_iff hb hs).mpr (hmax.trans_lt hlt)⟩

end SliceProfiler.Viewer
