import SliceProfiler.Viewer.Drawing
import SliceProfiler.Viewer.Lemmas.Eligible
import SliceProfiler.Viewer.Lemmas.Histogram
import SliceProfiler.Viewer.Lemmas.Page

/-!
# The drawing of the histogram
-/

namespace SliceProfiler.Viewer

open Lib

variable {s : State} {durations : List Nat} {h : Histogram} {width : ℚ} {range : Nat × Nat} {a b : Bar}

/-! ## A painted histogram -/

/-- What the drawing uses of the buckets. -/
structure IsPainted (h : Histogram) (durations : List Nat) : Prop where
  bins : 0 < h.bins
  span : h.span = max 1 (h.max - h.min)
  buckets : h.bucketByIndex = durations.map fun d : Nat => bucketOf h.min h.span h.bins d
  counts : h.counts = countInto h.bins h.bucketByIndex
  indices : ∀ index ∈ h.bucketByIndex, 0 ≤ index ∧ index < h.bins
  within : ∀ d ∈ durations, h.min ≤ (d : ℚ) ∧ (d : ℚ) ≤ h.max

theorem le_histogramRange_high (hw : ∀ w, s.histogramBucketSizeNs = some w → 0 < w) {d : Nat} (hd : d ∈ durations) :
    (d : ℚ) ≤ (s.histogramRange durations).high := by
  have hmax : (d : ℚ) ≤ (durations.max?.getD 0 : Nat) := Nat.cast_le.mpr (le_max?_of_mem hd)
  cases hs : s.histogramBucketSizeNs with
  | none => rw [histogramRange_auto hs]; exact hmax
  | some w =>
      have hpos := hw w hs
      obtain ⟨-, hspan⟩ := histogramRange_fixed hs hpos durations
      have hceil : ((durations.max?.getD 0 : Nat) - (s.histogramRange durations).low) / w ≤
          max 1 ⌈((durations.max?.getD 0 : Nat) - (s.histogramRange durations).low) / w⌉ := by
        exact (Int.le_ceil _).trans (by exact_mod_cast le_max_right _ _)
      rw [div_le_iff₀ hpos] at hceil
      push_cast at hceil hspan
      linarith

theorem painted (hw : ∀ w, s.histogramBucketSizeNs = some w → 0 < w) (hp : s.paintHistogram durations = some h) :
    IsPainted h durations := by
  have hmax : h.max = (s.histogramRange durations).high := by
    unfold State.paintHistogram at hp
    split at hp
    · cases hp
    · cases hp
      rfl
  obtain ⟨hmin, hbins, hspan, hbuckets, hcounts⟩ := paintHistogram_eq_some hp
  have hb : 0 < h.bins := hbins ▸ histogramBins_pos s durations
  have hwithin : ∀ d ∈ durations, h.min ≤ (d : ℚ) ∧ (d : ℚ) ≤ h.max := fun d hd =>
    ⟨hmin ▸ histogramRange_low_le hw hd, hmax ▸ le_histogramRange_high hw hd⟩
  have hs : 0 < h.span := hspan ▸ lt_max_of_lt_left one_pos
  refine ⟨hb, by rw [hspan, hmin, hmax], hbuckets, hcounts, ?_, hwithin⟩
  intro index hi
  rw [hbuckets] at hi
  obtain ⟨d, hd, rfl⟩ := List.mem_map.mp hi
  exact ⟨bucketOf_nonneg hb hs (hwithin d hd).1, bucketOf_lt _ _ _ _⟩

namespace IsPainted

variable (hh : IsPainted h durations)
include hh

theorem span_pos : 0 < h.span := hh.span ▸ lt_max_of_lt_left one_pos

theorem length_counts : h.counts.length = h.bins := by rw [hh.counts, length_countInto]

/-! ## Bars -/

theorem getElem?_bars {k : Nat} : (histogramBars h width range)[k]? = some a ↔ ∃ c, h.counts[k]? = some c ∧
    a = histogramBar h width k c (decide ((k : ℤ) ∈ (h.bucketByIndex.drop range.1).take (range.2 - range.1))) := by
  simp only [histogramBars, List.getElem?_mapIdx, List.getElem?_zip_eq_some, Option.map_eq_some_iff, Prod.exists]
  constructor
  · rintro ⟨c, m, ⟨hc, hm⟩, rfl⟩
    have hk : k < h.bins := by
      rw [← hh.length_counts]
      exact (List.getElem?_eq_some_iff.mp hc).1
    rw [getElem?_markInto hk] at hm
    exact ⟨c, hc, by rw [Option.some.inj hm]⟩
  · rintro ⟨c, hc, rfl⟩
    have hk : k < h.bins := by
      rw [← hh.length_counts]
      exact (List.getElem?_eq_some_iff.mp hc).1
    exact ⟨c, _, ⟨hc, getElem?_markInto hk⟩, rfl⟩

theorem length_bars : (histogramBars h width range).length = h.bins := by
  simp [histogramBars, hh.length_counts, length_markInto]

end IsPainted

theorem one_le_peak (h : Histogram) : 1 ≤ peak h := le_max_left _ _

theorem count_le_peak {k c : Nat} (hc : h.counts[k]? = some c) : (c : ℚ) ≤ peak h :=
  (Nat.cast_le.mpr (le_max?_of_mem (List.mem_of_getElem? hc))).trans (le_max_right _ _)

/-- The highest bar has the count of the peak. -/
theorem exists_peak (hsum : 0 < h.counts.sum) :
    ∃ (k : Nat) (c : Nat), h.counts[k]? = some c ∧ 0 < c ∧ (c : ℚ) = peak h := by
  have hne : h.counts ≠ [] := by
    rintro hnil
    simp [hnil] at hsum
  obtain ⟨k, hk, he⟩ := List.mem_iff_getElem.mp (max?_mem_of_ne_nil hne)
  have hpos : 0 < h.counts.max?.getD 0 := by
    by_contra hzero
    have hall : ∀ c ∈ h.counts, c = 0 := fun c hc => by
      have := le_max?_of_mem hc
      omega
    rw [List.sum_eq_zero hall] at hsum
    exact absurd hsum (lt_irrefl 0)
  refine ⟨k, h.counts.max?.getD 0, List.getElem?_eq_some_iff.mpr ⟨hk, he⟩, hpos, ?_⟩
  rw [peak, max_eq_right (by exact_mod_cast hpos)]

theorem histogramBar_base {k c : Nat} {m : Bool} (hc : (c : ℚ) ≤ peak h) :
    20 < (histogramBar h width k c m).y ∧
      (histogramBar h width k c m).y + (histogramBar h width k c m).height = 98 := by
  have hpos : 0 < peak h := one_pos.trans_le (one_le_peak h)
  simp only [histogramBar]
  by_cases h0 : c = 0
  · simp only [h0, if_true]
    norm_num
  · simp only [h0, if_false]
    have hle : (c : ℚ) / peak h ≤ 1 := (div_le_one hpos).mpr hc
    constructor <;> linarith

theorem drawHistogram_bars (hh : IsPainted h durations) (hne : durations ≠ []) (size clientWidth : Nat) :
    (drawHistogram s h size clientWidth).Bars h := by
  have hb : (0 : ℚ) < h.bins := by exact_mod_cast hh.bins
  have hpeak : 0 < peak h := one_pos.trans_le (one_le_peak h)
  have hget : ∀ (k : Nat) a, (drawHistogram s h size clientWidth).bars[k]? = some a ↔ ∃ c, h.counts[k]? = some c ∧
      a = histogramBar h (histogramWidth clientWidth) k c (decide ((k : ℤ) ∈
        (h.bucketByIndex.drop (rankBounds size s.percentile).1).take
          ((rankBounds size s.percentile).2 - (rankBounds size s.percentile).1))) :=
    fun _ _ => hh.getElem?_bars
  have hmem : ∀ a ∈ (drawHistogram s h size clientWidth).bars, ∃ k c m, h.counts[k]? = some c ∧
      a = histogramBar h (histogramWidth clientWidth) k c m := by
    intro a ha
    obtain ⟨k, hk⟩ := List.mem_iff_getElem?.mp ha
    obtain ⟨c, hc, rfl⟩ := (hget k a).mp hk
    exact ⟨k, c, _, hc, rfl⟩
  refine ⟨hh.length_bars, ?_, ?_, ?_, ?_, ?_, ?_, ?_⟩
  · intro a ha
    obtain ⟨c, -, rfl⟩ := (hget 0 a).mp ha
    simp [histogramBar]
  · intro k a b ha hb'
    obtain ⟨c, -, rfl⟩ := (hget k a).mp ha
    obtain ⟨c', -, rfl⟩ := (hget (k + 1) b).mp hb'
    simp only [histogramBar]
    push_cast
    field_simp
    ring
  · intro a ha
    obtain ⟨c, -, rfl⟩ := (hget _ a).mp ha
    simp only [histogramBar, drawHistogram]
    rw [Nat.cast_pred hh.bins]
    field_simp
    ring
  · intro a ha
    obtain ⟨k, c, m, -, rfl⟩ := hmem a ha
    simp only [histogramBar, drawHistogram, sub_pos]
    rw [lt_div_iff₀ hb]
  · intro a ha
    obtain ⟨k, c, m, hc, rfl⟩ := hmem a ha
    exact histogramBar_base (count_le_peak hc)
  · intro k a c ha hc hpos
    obtain ⟨c', hc', rfl⟩ := (hget k a).mp ha
    rw [hc, Option.some.injEq] at hc'
    subst hc'
    simp only [histogramBar, if_neg hpos.ne']
    rw [mul_right_comm, div_mul_cancel₀ _ hpeak.ne']
  · have hsum : 0 < h.counts.sum := by
      rw [hh.counts, sum_countInto hh.indices, hh.buckets, List.length_map]
      exact List.length_pos_iff.mpr hne
    obtain ⟨k, c, hc, hpos, he⟩ := exists_peak hsum
    refine ⟨_, List.mem_of_getElem? ((hget k _).mpr ⟨c, hc, rfl⟩), ?_⟩
    simp only [histogramBar, if_neg hpos.ne', he, div_self hpeak.ne', one_mul]

/-! ## Marks -/

theorem bucketOf_mono {low span : ℚ} {bins d d' : Nat} (hspan : 0 < span) (hd : d ≤ d') :
    bucketOf low span bins d ≤ bucketOf low span bins d' := by
  have hd' : (d : ℚ) ≤ d' := Nat.cast_le.mpr hd
  refine min_le_min_left _ (Int.floor_le_floor ?_)
  exact mul_le_mul_of_nonneg_right ((div_le_div_iff_of_pos_right hspan).mpr (by linarith)) (Nat.cast_nonneg _)

/-- The marks are those of the chosen invocations. -/
theorem drawHistogram_marks {p : Profile} {size clientWidth : Nat} (hh : IsPainted h (s.durations p))
    (hsize : size = (s.eligible p).length) :
    (drawHistogram (s.calculate p).2 h size clientWidth).Marks h (s.calculate p).1.chosen := by
  subst hsize
  have hslice : (h.bucketByIndex.drop (s.calculate p).1.rankStart).take
      ((s.calculate p).1.rankEnd - (s.calculate p).1.rankStart) =
      (s.calculate p).1.chosen.map fun i => bucketOf h.min h.span h.bins i.durationNs := by
    rw [hh.buckets, State.durations, List.map_map, ← List.map_drop, ← List.map_take]
    rfl
  have hget : ∀ (k : Nat) a, (drawHistogram (s.calculate p).2 h (s.eligible p).length clientWidth).bars[k]? = some a ↔
      ∃ c, h.counts[k]? = some c ∧ a = histogramBar h (histogramWidth clientWidth) k c
        (decide ((k : ℤ) ∈ (s.calculate p).1.chosen.map fun i => bucketOf h.min h.span h.bins i.durationNs)) := by
    intro k a
    rw [← hslice]
    exact hh.getElem?_bars
  have hsel : ∀ (k : Nat) a, (drawHistogram (s.calculate p).2 h (s.eligible p).length clientWidth).bars[k]? = some a →
      (a.selected = true ↔ (k : ℤ) ∈ (h.bucketByIndex.drop (s.calculate p).1.rankStart).take
        ((s.calculate p).1.rankEnd - (s.calculate p).1.rankStart)) := by
    intro k a ha
    obtain ⟨c, -, rfl⟩ := (hget k a).mp ha
    rw [hslice]
    exact decide_eq_true_iff
  refine ⟨fun k a ha => ?_, fun j k l a b c hjk hkl ha hb hc hsa hsc hk => ?_⟩
  · rw [hsel k a ha, hslice, List.mem_map]
  · rw [hsel j a ha] at hsa
    rw [hsel l c hc] at hsc
    have hsorted : h.bucketByIndex.Pairwise (· ≤ ·) := by
      rw [hh.buckets, List.pairwise_map]
      exact durations_sorted.imp fun hd => bucketOf_mono hh.span_pos hd
    have hmem : (k : ℤ) ∈ h.bucketByIndex := by
      obtain ⟨v, hv, -⟩ := (hget k b).mp hb
      have hbins : k < h.bins := by
        rw [← hh.length_counts]
        exact (List.getElem?_eq_some_iff.mp hv).1
      rw [hh.counts, getElem?_countInto hbins] at hk
      exact List.count_pos_iff.mp (Nat.pos_of_ne_zero fun h0 => hk (by rw [h0]))
    exact (hsel k b hb).mpr (mem_slice_of_between hsorted hsa hsc hmem (by exact_mod_cast hjk) (by exact_mod_cast hkl))

/-! ## The axis -/

theorem xFor_of_mem {v : ℚ} (hspan : 0 < h.span) (hwidth : 0 < width) (hlow : h.min ≤ v) (hhigh : v ≤ h.min + h.span) :
    xFor h width v = (v - h.min) / h.span * width := by
  have h0 : 0 ≤ (v - h.min) / h.span := div_nonneg (by linarith) hspan.le
  have h1 : (v - h.min) / h.span ≤ 1 := (div_le_one hspan).mpr (by linarith)
  rw [xFor, min_eq_right (mul_le_of_le_one_left hwidth.le h1), max_eq_right (mul_nonneg h0 hwidth.le)]

theorem xFor_bounds (hwidth : 0 ≤ width) (v : ℚ) : 0 ≤ xFor h width v ∧ xFor h width v ≤ width :=
  ⟨le_max_left _ _, max_le hwidth (min_le_left _ _)⟩

theorem histogramWidth_pos (clientWidth : Nat) : 0 < histogramWidth clientWidth :=
  lt_max_of_lt_left (by norm_num)

/-- A field of the ticks that is a function of their values. -/
theorem map_histogramAxis (h : Histogram) (width : ℚ) {f : AxisTick → ℚ} {g : ℚ → ℚ}
    (hf : ∀ v anchor, f ⟨xFor h width v, v, anchor⟩ = g v) :
    (histogramAxis h width).map f = (ticks 13 h.min h.max h.span).map g := by
  refine List.ext_getElem? fun k => ?_
  simp only [histogramAxis, List.getElem?_map, List.getElem?_mapIdx, Option.map_map, Function.comp_def, hf]

theorem drawHistogram_axis (hh : IsPainted h durations) (hmin : h.min ≤ h.max) (size clientWidth : Nat) :
    (drawHistogram s h size clientWidth).Axis h := by
  have hspan := hh.span_pos
  have hmax : h.max ≤ h.min + h.span := by
    have := le_max_right 1 (h.max - h.min)
    rw [← hh.span] at this
    linarith
  have hvalues : (histogramAxis h (histogramWidth clientWidth)).map (·.value) = ticks 13 h.min h.max h.span := by
    rw [map_histogramAxis h _ fun v _ => (rfl : _ = id v), List.map_id]
  have hxs : (histogramAxis h (histogramWidth clientWidth)).map (·.x) =
      (ticks 13 h.min h.max h.span).map (xFor h (histogramWidth clientWidth)) :=
    map_histogramAxis h _ fun _ _ => rfl
  have hlength : (histogramAxis h (histogramWidth clientWidth)).length = (ticks 13 h.min h.max h.span).length := by
    rw [← hvalues, List.length_map]
  refine ⟨fun v => ?_, niceStep_round _, fun fuel hf => ?_, ?_, fun hone => ?_, fun hlt => ?_, fun t ht => ?_⟩
  · rw [drawHistogram, hvalues, mem_ticks hspan hmax le_rfl]
  · rw [drawHistogram, hvalues, ticks_eq hspan hmax hf]
  · rw [drawHistogram, hlength]
    exact length_ticks_le hspan hmax le_rfl
  · rw [drawHistogram, hlength]
    refine six_le_length_ticks hspan hmax ?_ le_rfl
    rw [hh.span, max_eq_right (by linarith)]
    linarith
  · rw [drawHistogram, hxs, List.pairwise_map]
    refine (ticks_strict hspan hmax hlt le_rfl).imp_of_mem fun {v w} hv hw hvw => ?_
    have hin : ∀ v ∈ ticks 13 h.min h.max h.span, h.min ≤ v ∧ v ≤ h.min + h.span := by
      intro v hv
      rcases (mem_ticks hspan hmax le_rfl).mp hv with rfl | rfl | ⟨-, h₁, h₂⟩
      · exact ⟨le_rfl, by linarith⟩
      · exact ⟨hmin, hmax⟩
      · exact ⟨h₁.le, by linarith⟩
    have hwidth := histogramWidth_pos clientWidth
    rw [xFor_of_mem hspan hwidth (hin v hv).1 (hin v hv).2, xFor_of_mem hspan hwidth (hin w hw).1 (hin w hw).2]
    exact mul_lt_mul_of_pos_right ((div_lt_div_iff_of_pos_right hspan).mpr (by linarith)) hwidth
  · have hmem : t.x ∈ (histogramAxis h (histogramWidth clientWidth)).map (·.x) := List.mem_map_of_mem ht
    rw [hxs] at hmem
    obtain ⟨v, -, hv⟩ := List.mem_map.mp hmem
    rw [← hv]
    exact xFor_bounds (histogramWidth_pos clientWidth).le v

/-! ## Reading a position -/

theorem drawHistogram_reads {window : Window} {size clientWidth : Nat} (hh : IsPainted h durations)
    (hs : s.latency = some window) (hlow : h.min ≤ window.low) (hordered : window.low ≤ window.high)
    (hhigh : window.high ≤ h.min + h.span) : (drawHistogram s h size clientWidth).Reads h window := by
  have hspan := hh.span_pos
  have hwidth := histogramWidth_pos clientWidth
  have hvalue : ∀ x, 0 ≤ x → x ≤ 1 → (⟨h.min, h.max⟩ : Window).valueAt x = h.min + x * h.span := by
    intro x h0 h1
    rw [Window.valueAt, min_eq_right h1, max_eq_right h0, hh.span]
  have hposition : ∀ v, h.min ≤ v → v ≤ h.min + h.span →
      (⟨h.min, h.max⟩ : Window).valueAt (xFor h (histogramWidth clientWidth) v / histogramWidth clientWidth) = v := by
    intro v h0 h1
    rw [xFor_of_mem hspan hwidth h0 h1, mul_div_cancel_right₀ _ hwidth.ne',
      hvalue _ (div_nonneg (by linarith) hspan.le) ((div_le_one hspan).mpr (by linarith)), div_mul_cancel₀ _ hspan.ne']
    ring
  have hlatency : s.latency.getD ⟨0, 0⟩ = window := by rw [hs, Option.getD_some]
  refine ⟨fun x h0 h1 => ?_, hposition, ?_, ?_, ?_⟩
  · have hle : x * h.span ≤ h.span := mul_le_of_le_one_left hspan.le h1
    have hnonneg : 0 ≤ x * h.span := mul_nonneg h0 hspan.le
    rw [hvalue x h0 h1, drawHistogram, xFor_of_mem hspan hwidth (by linarith) (by linarith), add_sub_cancel_left,
      mul_div_cancel_right₀ _ hspan.ne']
  · simp only [drawHistogram, hlatency]
    exact hposition _ hlow (by linarith)
  · simp only [drawHistogram, hlatency]
    exact hposition _ (by linarith) hhigh
  · simp only [drawHistogram, hlatency]
    rw [xFor_of_mem hspan hwidth hlow (by linarith), xFor_of_mem hspan hwidth (by linarith) hhigh, ← sub_mul, ← sub_div]
    congr 3
    ring

/-! ## The drawing behind a rendering -/

variable {p : Profile}

theorem bucketSize_calculate : (s.calculate p).2.histogramBucketSizeNs = s.histogramBucketSizeNs := by
  simp only [State.calculate, State.syncLatencyWindow]
  split <;> rfl

theorem exists_painted (hne : s.durations p ≠ []) (hw : ∀ w, s.histogramBucketSizeNs = some w → 0 < w) :
    ∃ h, (s.calculate p).2.paintHistogram (s.durations p) = some h ∧ IsPainted h (s.durations p) := by
  have hp : ∃ h, (s.calculate p).2.paintHistogram (s.durations p) = some h := by
    rw [State.paintHistogram, if_neg hne]
    exact ⟨_, rfl⟩
  obtain ⟨h, hp⟩ := hp
  exact ⟨h, hp, painted (by rwa [bucketSize_calculate]) hp⟩

/-- The latency window is inside the range of the histogram. -/
theorem exists_window (hh : IsPainted h (s.durations p)) (hne : s.durations p ≠ []) :
    ∃ window, (s.calculate p).2.latency = some window ∧ h.min ≤ window.low ∧ window.low ≤ window.high ∧
      window.high ≤ h.max := by
  have hpos : 0 < (s.durations p).length := List.length_pos_iff.mpr hne
  obtain ⟨window, hwindow, hinside⟩ := inDurations_calculate (s := s) (p := p)
  simp only [durations_calculate, if_neg hpos.ne'] at hinside
  obtain ⟨hlow, hordered, hhigh⟩ := hinside
  have hfirst := (hh.within _ (getD_mem hpos)).1
  have hlast := (hh.within _ (getD_mem (Nat.sub_lt hpos one_pos))).2
  exact ⟨window, hwindow, hfirst.trans hlow, hordered, hhigh.trans hlast⟩

end SliceProfiler.Viewer
