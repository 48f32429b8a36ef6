import Mathlib.Tactic.Linarith
import SliceProfiler.Viewer.Lemmas.Display
import SliceProfiler.Viewer.Lemmas.Layout
import SliceProfiler.Viewer.Lemmas.Timeline
import SliceProfiler.Viewer.Lemmas.Whole
import SliceProfiler.Viewer.Page

/-!
# What the events keep

The percentiles of a window that is not empty are strictly ordered. Each event keeps the page consistent, and a
rendering settles it.
-/

namespace SliceProfiler.Viewer

open Lib

variable {p : Profile} {q : Query} {s : State} {durations : List Nat} {value low high : ℚ}

/-! ## Percentiles of a window -/

/-- The rank of a value between the first and the last duration, with the part of the gap that it has passed. -/
def place (durations : List Nat) (value : ℚ) : ℚ :=
  let k := shorter durations value
  if k = 0 then 0
  else k - 1 + (value - durations.getD (k - 1) 0) / (durations.getD k 0 - durations.getD (k - 1) 0)

/-- The durations around a value. -/
theorem getD_shorter (hd : durations.Pairwise (· ≤ ·)) (hn : 0 < durations.length)
    (hfirst : (durations.getD 0 0 : ℚ) < value) (hlast : value ≤ durations.getD (durations.length - 1) 0) :
    (durations.getD (shorter durations value - 1) 0 : ℚ) < value ∧
      value ≤ durations.getD (shorter durations value) 0 := by
  have hpos : 0 < shorter durations value := shorter_pos hd hn hfirst
  have hlt : shorter durations value < durations.length := shorter_lt hd hn hlast
  exact ⟨(lt_shorter_iff hd (by omega)).mp (by omega), not_lt.mp ((lt_shorter_iff hd hlt).not.mp (lt_irrefl _))⟩

theorem place_bounds (hd : durations.Pairwise (· ≤ ·)) (hn : 0 < durations.length)
    (hfirst : (durations.getD 0 0 : ℚ) < value) (hlast : value ≤ durations.getD (durations.length - 1) 0) :
    (shorter durations value : ℚ) - 1 < place durations value ∧ place durations value ≤ shorter durations value := by
  have hpos : 0 < shorter durations value := shorter_pos hd hn hfirst
  obtain ⟨hbelow, habove⟩ := getD_shorter hd hn hfirst hlast
  have hgap :
      (0 : ℚ) < durations.getD (shorter durations value) 0 - durations.getD (shorter durations value - 1) 0 := by
    linarith
  rw [place, if_neg (by omega)]
  constructor
  · have := div_pos (show 0 < value - durations.getD (shorter durations value - 1) 0 by linarith) hgap
    linarith
  · have := (div_le_one hgap).mpr (show value - durations.getD (shorter durations value - 1) 0 ≤ _ by linarith)
    linarith

theorem place_first (hd : durations.Pairwise (· ≤ ·)) (hn : 0 < durations.length) :
    place durations (durations.getD 0 0) = 0 := by
  have hzero : ¬ 0 < shorter durations (durations.getD 0 0) := (lt_shorter_iff hd hn).not.mpr (lt_irrefl _)
  rw [place, if_pos (by omega)]

theorem place_lt (hd : durations.Pairwise (· ≤ ·)) (hn : 0 < durations.length)
    (hfirst : (durations.getD 0 0 : ℚ) ≤ low) (hlt : low < high)
    (hlast : high ≤ durations.getD (durations.length - 1) 0) : place durations low < place durations high := by
  have hpos : 0 < shorter durations high := shorter_pos hd hn (hfirst.trans_lt hlt)
  have hone : (1 : ℚ) ≤ shorter durations high := by exact_mod_cast hpos
  obtain ⟨hhigh, -⟩ := place_bounds hd hn (hfirst.trans_lt hlt) hlast
  rcases hfirst.eq_or_lt with rfl | hfirst
  · rw [place_first hd hn]
    linarith
  · obtain ⟨-, hlow⟩ := place_bounds hd hn hfirst (hlt.le.trans hlast)
    have hle : shorter durations low ≤ shorter durations high :=
      List.countP_mono_left fun d _ h => decide_eq_true ((of_decide_eq_true h).trans hlt)
    rcases hle.eq_or_lt with heq | hrank
    · obtain ⟨hbelow, habove⟩ := getD_shorter hd hn (hfirst.trans hlt) hlast
      rw [place, place, heq, if_neg (by omega), if_neg (by omega)]
      have := div_lt_div_of_pos_right (show low - durations.getD (shorter durations high - 1) 0 <
        high - durations.getD (shorter durations high - 1) 0 by linarith) (sub_pos.mpr (hbelow.trans_le habove))
      linarith
    · have : (shorter durations low : ℚ) + 1 ≤ shorter durations high := by exact_mod_cast hrank
      linarith

theorem percentileAtDuration_place (hd : durations.Pairwise (· ≤ ·)) (hn : 2 ≤ durations.length)
    (hfirst : (durations.getD 0 0 : ℚ) < value) (hlast : value < durations.getD (durations.length - 1) 0)
    (hne : ∀ d ∈ durations, (d : ℚ) ≠ value) (side : Side) :
    percentileAtDuration durations value side = place durations value / (durations.length - 1) * 100 := by
  obtain ⟨hbelow, habove⟩ := getD_shorter hd (by omega) hfirst hlast.le
  have hpos : 0 < shorter durations value := shorter_pos hd (by omega) hfirst
  have hone : (1 : ℚ) ≤ durations.getD (shorter durations value) 0 - durations.getD (shorter durations value - 1) 0 :=
    one_le_sub (by exact_mod_cast hbelow.trans_le habove)
  rw [percentileAtDuration_gap hd hn hfirst hlast hne, interpolated, place, if_neg (by omega)]
  simp only [max_eq_right hone]

theorem percentileAtDuration_low_place (hd : durations.Pairwise (· ≤ ·)) (hn : 2 ≤ durations.length)
    (hfirst : (durations.getD 0 0 : ℚ) ≤ value) (hlast : value < durations.getD (durations.length - 1) 0) :
    percentileAtDuration durations value .low = place durations value / (durations.length - 1) * 100 := by
  rcases hfirst.eq_or_lt with rfl | hfirst
  · rw [percentileAtDuration_first le_rfl, place_first hd (by omega), zero_div, zero_mul]
  · by_cases hmem : ∃ d ∈ durations, (d : ℚ) = value
    · obtain ⟨hbelow, habove⟩ := getD_shorter hd (by omega) hfirst hlast.le
      have hpos : 0 < shorter durations value := shorter_pos hd (by omega) hfirst
      -- the value is the duration at its rank
      have heq : (durations.getD (shorter durations value) 0 : ℚ) = value := by
        obtain ⟨d, hm, rfl⟩ := hmem
        obtain ⟨k, hk, rfl⟩ := List.mem_iff_getElem.mp hm
        rw [← List.getD_eq_getElem _ 0 hk] at habove ⊢
        have hrank : shorter durations (durations.getD k 0) ≤ k :=
          not_lt.mp ((lt_shorter_iff hd hk).not.mpr (lt_irrefl _))
        exact le_antisymm (by exact_mod_cast getD_le hd hrank hk) habove
      have hgap : value - durations.getD (shorter durations value - 1) 0 ≠ 0 := by linarith
      rw [percentileAtDuration_low hd hn hfirst hlast hmem, place, if_neg (by omega), heq, div_self hgap,
        sub_add_cancel]
    · exact percentileAtDuration_place hd hn hfirst hlast (fun d hm he => hmem ⟨d, hm, he⟩) _

theorem place_le_percentileAtDuration_high (hd : durations.Pairwise (· ≤ ·)) (hn : 2 ≤ durations.length)
    (hfirst : (durations.getD 0 0 : ℚ) < value) (hlast : value ≤ durations.getD (durations.length - 1) 0) :
    place durations value / (durations.length - 1) * 100 ≤ percentileAtDuration durations value .high ∧
      percentileAtDuration durations value .high ≤ 100 := by
  have hwidth : (0 : ℚ) < durations.length - 1 := by
    have : (2 : ℚ) ≤ durations.length := by exact_mod_cast hn
    linarith
  have hpart : ∀ {r : ℚ}, r ≤ durations.length - 1 → r / (durations.length - 1) * 100 ≤ 100 := fun h => by
    have := (div_le_one hwidth).mpr h
    linarith
  obtain ⟨-, hle⟩ := place_bounds hd (by omega) hfirst hlast
  have hrank : (shorter durations value : ℚ) + 1 ≤ durations.length := by
    exact_mod_cast shorter_lt hd (by omega) hlast
  rcases hlast.eq_or_lt with heq | hlast
  · rw [percentileAtDuration_last hn hfirst heq.ge]
    exact ⟨hpart (by linarith), le_rfl⟩
  · by_cases hmem : ∃ d ∈ durations, (d : ℚ) = value
    · have hlonger : (notLonger durations value : ℚ) + 1 ≤ durations.length := by
        exact_mod_cast (notLonger_lt_iff hd (by omega)).mpr hlast
      have hmono : (shorter durations value : ℚ) ≤ notLonger durations value := by
        exact_mod_cast shorter_le_notLonger (w := ⟨value, value⟩) le_rfl
      rw [percentileAtDuration_high hd hn hfirst hlast hmem]
      refine ⟨?_, hpart (by linarith)⟩
      have := div_le_div_of_nonneg_right (hle.trans hmono) hwidth.le
      linarith
    · rw [percentileAtDuration_place hd hn hfirst hlast (fun d hm he => hmem ⟨d, hm, he⟩) .high]
      exact ⟨le_rfl, hpart (by linarith)⟩

/-- Two edges inside the durations have percentiles in the same strict order. -/
theorem percentiles_of_window (hd : durations.Pairwise (· ≤ ·)) (hfirst : (durations.getD 0 0 : ℚ) ≤ low)
    (hlt : low < high) (hlast : high ≤ durations.getD (durations.length - 1) 0) :
    Window.Percentiles ⟨percentileAtDuration durations low .low, percentileAtDuration durations high .high⟩ := by
  have hn : 2 ≤ durations.length := two_le_length (hfirst.trans_lt (hlt.trans_le hlast))
  have hwidth : (0 : ℚ) < durations.length - 1 := by
    have : (2 : ℚ) ≤ durations.length := by exact_mod_cast hn
    linarith
  obtain ⟨hhigh, hhundred⟩ := place_le_percentileAtDuration_high hd hn (hfirst.trans_lt hlt) hlast
  have hplace := place_lt hd (by omega) hfirst hlt hlast
  have hnonneg : 0 ≤ place durations low := by
    rcases hfirst.eq_or_lt with rfl | hfirst
    · exact (place_first hd (by omega)).ge
    · have hone : (1 : ℚ) ≤ shorter durations low := by exact_mod_cast shorter_pos hd (by omega) hfirst
      have := (place_bounds hd (by omega) hfirst (hlt.le.trans hlast)).1
      linarith
  have heq := percentileAtDuration_low_place hd hn hfirst (hlt.trans_le hlast)
  constructor
  · rw [heq]
    exact mul_nonneg (div_nonneg hnonneg hwidth.le) (by norm_num)
  · rw [heq]
    have := div_lt_div_of_pos_right hplace hwidth
    linarith
  · exact hhundred

theorem percentiles_syncLatencyWindow (hd : durations.Pairwise (· ≤ ·)) (h : s.percentile.Percentiles) :
    (s.syncLatencyWindow durations).2.percentile.Percentiles := by
  by_cases hne : durations = []
  · simpa [State.syncLatencyWindow, hne] using h
  · have hpos : 0 < durations.length := List.length_pos_iff.mpr hne
    have hends : (durations.getD 0 0 : ℚ) ≤ durations.getD (durations.length - 1) 0 :=
      Nat.cast_le.mpr (getD_le hd (Nat.zero_le _) (by omega))
    simp only [State.syncLatencyWindow, hpos.ne', if_false]
    split
    · rename_i hlt
      exact percentiles_of_window hd (le_max_left _ _) hlt (max_le (max_le hends (min_le_left _ _)) (min_le_left _ _))
    · exact h

theorem clampPercentileWindow_percentiles (drag : Option Drag) (low high : ℚ) :
    (clampPercentileWindow drag low high).Percentiles := by
  have hlow : (0 : ℚ) ≤ max 0 (min 99 (round low)) := le_max_left _ _
  have hlow' : max 0 (min 99 (round low)) ≤ 99 := max_le (by norm_num) (min_le_left _ _)
  have hhigh : (1 : ℚ) ≤ max 1 (min 100 (round high)) := le_max_left _ _
  have hhigh' : max 1 (min 100 (round high)) ≤ 100 := max_le (by norm_num) (min_le_left _ _)
  unfold clampPercentileWindow
  generalize max 0 (min 99 (round low)) = low at *
  generalize max 1 (min 100 (round high)) = high at *
  dsimp only
  split_ifs with hle hedge
  · exact ⟨by dsimp only; linarith, sub_one_lt _, hhigh'⟩
  · exact ⟨hlow, lt_add_one _, by dsimp only; linarith⟩
  · exact ⟨hlow, not_le.mp hle, hhigh'⟩

theorem percentiles_commitPercentile (h : s.percentile.Percentiles) (drag : Option Drag) (edge : Edge)
    (entered : Option ℚ) : (s.commitPercentile p drag edge entered).percentile.Percentiles := by
  unfold State.commitPercentile
  cases entered with
  | none => exact h
  | some entered =>
      dsimp only
      split
      · exact h
      · cases edge with
        | low => exact clampPercentileWindow_percentiles _ _ _
        | high => exact clampPercentileWindow_percentiles _ _ _

theorem rankBounds_le_of_percentiles {w : Window} (h : w.Percentiles) (n : Nat) :
    (rankBounds n w).1 ≤ (rankBounds n w).2 := by
  have hmul : (n * w.low / 100 : ℚ) ≤ n * w.high / 100 :=
    div_le_div_of_nonneg_right (mul_le_mul_of_nonneg_left h.ordered.le (Nat.cast_nonneg n)) (by norm_num)
  exact min_le_min_left _ (Nat.ceil_mono hmul)

/-! ## The time window -/

section Time

variable {t w : TimeWindow} {startValue : ℚ}

theorem TimeWindow.Proper.near (h : t.Proper p) : t.Near p := by
  obtain ⟨hlow, hordered, hhigh⟩ := h
  exact ⟨by linarith, by linarith, hordered.le, by linarith, by linarith, by linarith⟩

theorem TimeWindow.Near.moveEdge (h : t.Near p) (hv : InCapture p value) (edge : Edge) :
    (t.moveEdge edge value).Near p := by
  obtain ⟨hlow, hfrom, hordered, hto, hhigh, hwidth⟩ := h
  obtain ⟨hv₁, hv₂⟩ := hv
  have hone := one_le_capture p
  cases edge with
  | low =>
      unfold TimeWindow.moveEdge
      rcases le_total value (t.toNs - 1) with hle | hle
      · rw [min_eq_left hle]
        exact ⟨by dsimp only; linarith, hv₂, by dsimp only; linarith, hto, hhigh, by dsimp only; linarith⟩
      · rw [min_eq_right hle]
        exact ⟨by dsimp only; linarith, by dsimp only; linarith, by dsimp only; linarith, hto, hhigh,
          by dsimp only; linarith⟩
  | high =>
      unfold TimeWindow.moveEdge
      rcases le_total value (t.fromNs + 1) with hle | hle
      · rw [max_eq_right hle]
        exact ⟨hlow, hfrom, by dsimp only; linarith, by dsimp only; linarith, by dsimp only; linarith,
          by dsimp only; linarith⟩
      · rw [max_eq_left hle]
        exact ⟨hlow, hfrom, by dsimp only; linarith, hv₁, by dsimp only; linarith, by dsimp only; linarith⟩

theorem timeMove_near (h : w.Near p) : (t.dragTo p .timeMove w startValue value).Near p := by
  obtain ⟨hlow, hfrom, hordered, hto, hhigh, hwidth⟩ := h
  have hone := one_le_capture p
  simp only [TimeWindow.dragTo]
  generalize value - startValue = delta
  have hshift : (bounds p).fromNs - w.fromNs ≤
      max ((bounds p).fromNs - w.fromNs) (min ((bounds p).toNs - w.toNs) delta) := le_max_left _ _
  have hcases : max ((bounds p).fromNs - w.fromNs) (min ((bounds p).toNs - w.toNs) delta) ≤
      max ((bounds p).fromNs - w.fromNs) ((bounds p).toNs - w.toNs) := max_le_max_left _ (min_le_left _ _)
  generalize max ((bounds p).fromNs - w.fromNs) (min ((bounds p).toNs - w.toNs) delta) = shift at *
  rcases le_max_iff.mp hcases with hc | hc
  · exact ⟨by dsimp only; linarith, by dsimp only; linarith, by dsimp only; linarith, by dsimp only; linarith,
      by dsimp only; linarith, by dsimp only; linarith⟩
  · exact ⟨by dsimp only; linarith, by dsimp only; linarith, by dsimp only; linarith, by dsimp only; linarith,
      by dsimp only; linarith, by dsimp only; linarith⟩

theorem timeSelect_near (hs : InCapture p startValue) (hv : InCapture p value) :
    (t.dragTo p .timeSelect w startValue value).Near p := by
  obtain ⟨hs₁, hs₂⟩ := hs
  obtain ⟨hv₁, hv₂⟩ := hv
  have hlow : ((bounds p).fromNs : ℚ) ≤ min startValue value := le_min hs₁ hv₁
  have hhigh : max startValue value ≤ (bounds p).toNs := max_le hs₂ hv₂
  have hordered : min startValue value ≤ max startValue value := min_le_max
  simp only [TimeWindow.dragTo]
  generalize min startValue value = fromNs at *
  generalize max startValue value = toNs at *
  have hto : fromNs ≤ (if fromNs = toNs then min ((bounds p).toNs : ℚ) (fromNs + 1) else toNs) ∧
      (if fromNs = toNs then min ((bounds p).toNs : ℚ) (fromNs + 1) else toNs) ≤ (bounds p).toNs := by
    split
    · exact ⟨le_min (by linarith) (by linarith), min_le_left _ _⟩
    · exact ⟨hordered, hhigh⟩
  generalize (if fromNs = toNs then min ((bounds p).toNs : ℚ) (fromNs + 1) else toNs) = toNs' at *
  obtain ⟨hle, hle'⟩ := hto
  exact ⟨by dsimp only; linarith, by dsimp only; linarith, hle, by dsimp only; linarith, by dsimp only; linarith,
    by dsimp only; linarith⟩

theorem TimeWindow.Near.dragTo (h : t.Near p) (hw : w.Near p) (hs : InCapture p startValue) (hv : InCapture p value)
    (kind : TimeDrag) : (t.dragTo p kind w startValue value).Near p := by
  cases kind with
  | timeFrom => exact h.moveEdge hv .low
  | timeTo => exact h.moveEdge hv .high
  | timeMove => exact timeMove_near hw
  | timeSelect => exact timeSelect_near hs hv

theorem near_act (h : s.time.Near p) (a : Action) : (s.act p a).time.Near p := by
  cases a with
  | commitTime edge entered =>
      cases entered with
      | none => exact h
      | some entered => exact h.moveEdge (clampTime_inCapture p _) edge
  | dragTime kind start moves =>
      have hfold : ∀ t : TimeWindow, t.Near p → (moves.foldl (fun t x =>
          t.dragTo p kind s.time (timelineValue p start) (timelineValue p x)) t).Near p := by
        induction moves with
        | nil => exact fun _ ht => ht
        | cons x moves ih =>
            exact fun t ht => ih _ (ht.dragTo h (timelineValue_inCapture p _) (timelineValue_inCapture p _) kind)
      exact hfold _ h
  | toggleThread => exact h
  | checkThread => exact h
  | setBucketSize => exact h
  | setMetric => exact h
  | setSearch => exact h

end Time

/-! ## The state behind a rendering -/

theorem durations_calculate : (s.calculate p).2.durations p = s.durations p := by
  rw [State.durations, State.durations]
  exact congrArg _ (eligible_syncLatencyWindow p)

theorem calculate_again : (s.calculate p).2.calculate p = ((s.calculate p).1, (s.calculate p).2) :=
  calculate_display (s.calculate p).2.metric (s.calculate p).2.histogramBucketSizeNs (s.calculate p).2.search

theorem flame_calculate : (s.calculate p).2.flame p = s.flame p := by
  simp only [State.flame, calculate_again]

theorem inDurations_calculate : (s.calculate p).2.InDurations p := by
  simp only [State.InDurations, durations_calculate]
  by_cases hne : s.durations p = []
  · refine ⟨⟨0, 0⟩, ?_, by simp [hne]⟩
    have hempty : (s.eligible p).map (·.durationNs) = [] := hne
    simp [State.calculate, State.syncLatencyWindow, hempty]
  · have hpos : 0 < (s.durations p).length := List.length_pos_iff.mpr hne
    obtain ⟨w, hw, hinside⟩ := latency_syncLatencyWindow (s := s) durations_sorted hne
    exact ⟨w, hw, by rwa [if_neg hpos.ne']⟩

/-- The latency window is a window after any synchronization. -/
theorem latency_syncLatencyWindow_nonneg (hd : durations.Pairwise (· ≤ ·)) :
    ∃ w, (s.syncLatencyWindow durations).2.latency = some w ∧ 0 ≤ w.low ∧ w.low ≤ w.high := by
  by_cases hne : durations = []
  · exact ⟨⟨0, 0⟩, by simp [State.syncLatencyWindow, hne], le_rfl, le_rfl⟩
  · obtain ⟨w, hw, hfirst, hle, -⟩ := latency_syncLatencyWindow (s := s) hd hne
    exact ⟨w, hw, (Nat.cast_nonneg _).trans hfirst, hle⟩

/-! ## Rendering -/

namespace Page

variable {localeCompare : String → String → Ordering} {pg : Page}

theorem render_state (pg : Page) : (pg.render localeCompare p).state = (pg.state.calculate p).2 := rfl

theorem render_histogram (pg : Page) : (pg.render localeCompare p).histogram =
    if (pg.state.durations p).length = 0 then pg.histogram.map fun view => { view with handles := false }
    else some ⟨pg.state.durations p, (pg.state.calculate p).2.histogramRange (pg.state.durations p), true⟩ := by
  simp only [render, calculate, durations_calculate]
  rfl

theorem Sound.render (h : pg.Sound p) : (pg.render localeCompare p).Consistent p where
  percentile := percentiles_syncLatencyWindow durations_sorted h.percentile
  time := by
    rw [render_state, calculate_time]
    exact h.time
  drag := h.drag
  histogram := by
    intro view hview
    rw [render_histogram] at hview
    split at hview
    · obtain ⟨view', hview', rfl⟩ := Option.map_eq_some_iff.mp hview
      exact h.histogram view' hview'
    · rename_i hne
      cases hview
      exact ⟨fun he => hne (congrArg List.length he), durations_sorted⟩
  timelineScale := h.timelineScale
  latency := latency_syncLatencyWindow_nonneg durations_sorted
  zoom := nodeAtPath_renderFlame

theorem render_root (pg : Page) : (pg.render localeCompare p).root = (pg.state.flame p).root := rfl

theorem render_zoomPath (pg : Page) : (pg.render localeCompare p).zoomPath =
    (Viewer.renderFlame localeCompare pg.clientWidth ⟨[], (pg.state.flame p).root⟩ pg.zoomPath).zoomPath := rfl

theorem render_items (pg : Page) : (pg.render localeCompare p).items =
    (Viewer.renderFlame localeCompare pg.clientWidth ⟨[], (pg.state.flame p).root⟩ pg.zoomPath).items := rfl

theorem render_drag (pg : Page) : (pg.render localeCompare p).drag = pg.drag := rfl

theorem render_timelineScale (pg : Page) : (pg.render localeCompare p).timelineScale = pg.timelineScale := rfl

theorem render_clientWidth (pg : Page) : (pg.render localeCompare p).clientWidth = pg.clientWidth := rfl

theorem ext_fields : ∀ {a b : Page}, a.state = b.state → a.drag = b.drag → a.histogram = b.histogram → a.root = b.root →
    a.zoomPath = b.zoomPath → a.items = b.items → a.timelineScale = b.timelineScale → a.clientWidth = b.clientWidth →
    a = b := by
  rintro ⟨⟩ ⟨⟩ rfl rfl rfl rfl rfl rfl rfl rfl
  rfl

theorem render_again (pg : Page) : (pg.render localeCompare p).render localeCompare p = pg.render localeCompare p := by
  apply ext_fields
  · rw [render_state, render_state, calculate_again]
  · exact render_drag _
  · rw [render_histogram, render_state, durations_calculate, calculate_again, render_histogram]
    split
    · rw [Option.map_map]
      rfl
    · rfl
  · rw [render_root, render_root, render_state, flame_calculate]
  · rw [render_zoomPath, render_state, flame_calculate, render_zoomPath, render_clientWidth, renderFlame_again]
  · rw [render_items, render_state, flame_calculate, render_zoomPath, render_items, render_clientWidth,
      renderFlame_again]
  · exact render_timelineScale _
  · exact render_clientWidth _

theorem Sound.settled (h : pg.Sound p) : (pg.render localeCompare p).Settled localeCompare p where
  latency := inDurations_calculate
  ranks := rankBounds_le_of_percentiles h.render.percentile _
  stable := render_again pg
  zooms := by
    intro k item hk hpath
    have hroot : ((pg.render localeCompare p).state.flame p).root = (pg.render localeCompare p).root := by
      rw [render_state, flame_calculate, render_root]
    simp only [handle, hk]
    refine ⟨?_, hroot⟩
    rw [← hroot] at hpath
    exact zoomPath_renderFlame.trans (if_pos hpath)

/-! ## Events -/

theorem Sound.setState (h : pg.Sound p) (hpercentile : s.percentile.Percentiles) (htime : s.time.Near p) :
    Sound p { pg with state := s } :=
  { h with percentile := hpercentile, time := htime }

theorem Sound.act (h : pg.Sound p) (a : Action) : Sound p { pg with state := pg.state.act p a } := by
  refine h.setState ?_ (near_act h.time a)
  rw [percentile_act]
  exact h.percentile

theorem Sound.commitPercentile (h : pg.Sound p) (edge : Edge) (entered : Option ℚ) :
    Sound p { pg with state := pg.state.commitPercentile p pg.drag edge entered } := by
  refine h.setState (percentiles_commitPercentile h.percentile _ _ _) ?_
  have htime : (pg.state.commitPercentile p pg.drag edge entered).time = pg.state.time := by
    unfold State.commitPercentile
    cases entered with
    | none => rfl
    | some entered => dsimp only; split <;> rfl
  rw [htime]
  exact h.time

/-- Whatever the search finds, the flame graph is drawn again. -/
theorem Sound.redraw (h : pg.Sound p) : (pg.redraw localeCompare p).Consistent p where
  percentile := percentiles_syncLatencyWindow durations_sorted h.percentile
  time := by
    have htime : (pg.redraw localeCompare p).state.time = pg.state.time := calculate_time _ _
    rw [htime]
    exact h.time
  drag := h.drag
  histogram := h.histogram
  timelineScale := h.timelineScale
  latency := latency_syncLatencyWindow_nonneg durations_sorted
  zoom := nodeAtPath_renderFlame

theorem Consistent.pressTimeline (h : pg.Consistent p) (kind : TimeDrag) (pointerId : Nat) (x : ℚ) :
    Consistent p { pg with drag := some (.time ⟨kind, pointerId, timelineValue p x, pg.state.time⟩) } := by
  refine { h with drag := fun d hd => ?_ }
  cases hd
  exact ⟨h.time, timelineValue_inCapture p x⟩

theorem Consistent.pressHistogram (h : pg.Consistent p) (kind : LatencyDrag) (pointerId : Nat) (x : ℚ) :
    (pg.pressHistogram kind pointerId x).Consistent p := by
  unfold Page.pressHistogram
  split
  · exact h
  · split
    · exact h
    · refine { h with drag := fun d hd => ?_ }
      cases hd

theorem Consistent.moveTime (h : pg.Consistent p) {d : TimelineDrag} (hd : pg.drag = some (.time d)) (x : ℚ) :
    (pg.moveTime p d x).Consistent p := by
  obtain ⟨hw, hs⟩ := h.drag d hd
  exact { h with time := h.time.dragTo hw hs (timelineValue_inCapture p x) d.kind }

theorem syncLatencyWindow_time : (s.syncLatencyWindow durations).2.time = s.time := by
  unfold State.syncLatencyWindow
  split <;> rfl

/-- The handlers of an older drawing keep the page consistent, too. -/
theorem Consistent.moveLatency (h : pg.Consistent p) (d : HistogramDrag) (x : ℚ) :
    (pg.moveLatency d x).Consistent p := by
  unfold Page.moveLatency
  split
  · exact h
  · rename_i view hview
    have hsorted := (h.histogram view hview).2
    refine { h with
      percentile := percentiles_syncLatencyWindow hsorted h.percentile
      time := ?_
      latency := latency_syncLatencyWindow_nonneg hsorted }
    rw [syncLatencyWindow_time]
    exact h.time

theorem Consistent.wheel (h : pg.Consistent p) (x factor : ℚ) : (pg.wheel localeCompare p x factor).Consistent p := by
  unfold Page.wheel
  dsimp only
  split
  · exact h
  · refine Sound.render { h.toSound with timelineScale := ⟨le_max_left _ _, max_le (by norm_num) (min_le_left _ _)⟩ }

theorem Consistent.handle (h : pg.Consistent p) (e : PageEvent) : (pg.handle localeCompare p e).Consistent p := by
  cases e with
  | act a =>
      cases a with
      | setSearch text => exact (h.toSound.act _).redraw
      | toggleThread | checkThread | commitTime | dragTime | setBucketSize | setMetric => exact (h.toSound.act _).render
  | commitPercentile edge entered => exact (h.toSound.commitPercentile edge entered).render
  | pressTimeline kind pointerId x => exact h.pressTimeline kind pointerId x
  | pressHistogram kind pointerId x => exact h.pressHistogram kind pointerId x
  | move pointerId x =>
      simp only [Page.handle]
      split
      · exact h
      · rename_i d hd
        split
        · exact h
        · cases d with
          | time d => exact h.moveTime hd x
          | latency d => exact h.moveLatency d x
  | release pointerId =>
      simp only [Page.handle]
      split
      · exact h
      · split
        · exact h
        · exact Sound.render { h.toSound with drag := fun d hd => by cases hd }
  | clickFrame k =>
      simp only [Page.handle]
      split
      · exact h
      · exact Sound.render { h.toSound with }
  | clickPath k => exact Sound.render { h.toSound with }
  | wheel x factor => exact h.wheel x factor
  | resize clientWidth => exact Sound.render { h.toSound with }

theorem Consistent.settled (h : pg.Consistent p) {e : PageEvent} (he : pg.Renders e) :
    (pg.handle localeCompare p e).Settled localeCompare p := by
  cases e with
  | act a =>
      cases a with
      | setSearch => exact he.elim
      | toggleThread | checkThread | commitTime | dragTime | setBucketSize | setMetric =>
          exact (h.toSound.act _).settled
  | commitPercentile edge entered => exact (h.toSound.commitPercentile edge entered).settled
  | release pointerId =>
      obtain ⟨d, hd, hid⟩ := he
      simp only [Page.handle, hd, hid, ne_eq, not_true_eq_false, if_false]
      exact Sound.settled { h.toSound with drag := fun d hd => by cases hd }
  | clickFrame k =>
      simp only [Page.handle, List.getElem?_eq_getElem (show k < pg.items.length from he)]
      exact Sound.settled { h.toSound with }
  | clickPath k => exact Sound.settled { h.toSound with }
  | resize clientWidth => exact Sound.settled { h.toSound with }
  | pressTimeline | pressHistogram | move | wheel => exact he.elim

theorem initial_sound (p : Profile) (hq : q.percentile.low < q.percentile.high) (hh : q.percentile.high ≤ 100)
    (clientWidth : Nat) : Sound p { state := initialState p q, clientWidth } where
  percentile := ⟨Nat.cast_nonneg _, Nat.cast_lt.mpr hq, Nat.cast_le_ofNat.mpr hh⟩
  time := (initialState_proper p q).near
  drag d hd := by cases hd
  histogram view hview := by cases hview
  timelineScale := ⟨le_rfl, by norm_num⟩

theorem consistent_after (hq : q.percentile.low < q.percentile.high) (hh : q.percentile.high ≤ 100) (clientWidth : Nat)
    (events : List PageEvent) : (after localeCompare p q clientWidth events).Consistent p := by
  induction events using List.reverseRecOn with
  | nil => exact (initial_sound p hq hh clientWidth).render
  | append_singleton events e ih =>
      rw [after, List.foldl_append]
      exact ih.handle e

/-! ## Events of one chart -/

/-- Without a drag in the histogram the page handles the events of the timeline as the timeline does. -/
theorem timeline_handle (h : ∀ d, pg.drag ≠ some (.latency d)) (e : TimelineEvent) :
    (pg.handle localeCompare p e.onPage).timeline = pg.timeline.handle p e ∧
      ∀ d, (pg.handle localeCompare p e.onPage).drag ≠ some (.latency d) := by
  cases e with
  | press kind pointerId x => exact ⟨rfl, by rintro d ⟨⟩⟩
  | commitTime edge entered => exact ⟨rfl, h⟩
  | move pointerId x =>
      simp only [TimelineEvent.onPage, Page.handle, Timeline.handle, timeline]
      cases hd : pg.drag with
      | none => exact ⟨by simp [hd], by simp [hd]⟩
      | some d =>
          cases d with
          | latency d => exact absurd hd (h d)
          | time d =>
              by_cases hid : d.pointerId = pointerId
              · simp [Drag.pointerId, hid, moveTime, hd]
              · simp [Drag.pointerId, hid, hd]
  | release pointerId =>
      simp only [TimelineEvent.onPage, Page.handle, Timeline.handle, timeline]
      cases hd : pg.drag with
      | none => exact ⟨by simp [hd], by simp [hd]⟩
      | some d =>
          cases d with
          | latency d => exact absurd hd (h d)
          | time d =>
              by_cases hid : d.pointerId = pointerId
              · simp [Drag.pointerId, hid, render_state, render_drag]
              · simp [Drag.pointerId, hid, hd]

/-- The moves of a drag in the histogram set the state of the drag as a whole. -/
theorem move_dragHistogram {handles : Bool}
    (hview : pg.histogram = some ⟨pg.state.durations p, pg.state.histogramRange (pg.state.durations p), handles⟩)
    (kind : LatencyDrag) (pointerId : Nat) (start : ℚ)
    (hdrag : pg.drag = some (.latency ⟨kind, pointerId,
      (pg.state.histogramRange (pg.state.durations p)).valueAt start, pg.state.latency.getD ⟨0, 0⟩⟩)) (l : List ℚ) :
    (l.map (PageEvent.move pointerId)).foldl (Page.handle localeCompare p) pg =
      { pg with state := pg.state.dragHistogram p kind start l } := by
  induction l using List.reverseRecOn with
  | nil => rfl
  | append_singleton l x ih =>
      rw [List.map_append, List.foldl_append, ih]
      simp [Page.handle, hdrag, Drag.pointerId, moveLatency, hview, State.dragHistogram]

end Page

end SliceProfiler.Viewer
