import SliceProfiler.Viewer.Lemmas.Eligible
import SliceProfiler.Viewer.Lemmas.Rank

/-!
# Ranks of a latency window

The two edges of a latency window become percentiles on the scale of the last position, and the percentiles
become ranks on the scale of the number of durations.
-/

namespace SliceProfiler.Viewer

open Lib

variable {durations : List Nat} {value low high : ℚ}

/-! ## Edges -/

/-- The value is no duration, and close enough to the last shorter duration: the fraction of the way to the next one
is at most the part of the durations that are not shorter. -/
def EdgeKeeps (durations : List Nat) (value : ℚ) : Prop :=
  (∀ d ∈ durations, (d : ℚ) ≠ value) ∧
    durations.length * (value - durations.getD (shorter durations value - 1) 0) ≤
      (durations.length - shorter durations value) *
        ((durations.getD (shorter durations value) 0 : ℚ) - durations.getD (shorter durations value - 1) 0)

/-- The rank of the low edge is the number of shorter durations. -/
def LowKeeps (durations : List Nat) (low : ℚ) : Prop := low = durations.getD 0 0 ∨ EdgeKeeps durations low

/-- The rank of the high edge is the number of durations that are not longer. -/
def HighKeeps (durations : List Nat) (high : ℚ) : Prop :=
  high = durations.getD (durations.length - 1) 0 ∨ EdgeKeeps durations high

theorem rank_gap (side : Side) (hd : durations.Pairwise (· ≤ ·)) (hn : 2 ≤ durations.length)
    (hfirst : (durations.getD 0 0 : ℚ) < value) (hlast : value < durations.getD (durations.length - 1) 0)
    (hne : ∀ d ∈ durations, (d : ℚ) ≠ value) :
    EdgeKeeps durations value ∧
        ⌈(durations.length * percentileAtDuration durations value side / 100 : ℚ)⌉₊ = shorter durations value ∨
      ¬ EdgeKeeps durations value ∧
        ⌈(durations.length * percentileAtDuration durations value side / 100 : ℚ)⌉₊ = shorter durations value + 1 := by
  have hpos : 0 < shorter durations value := shorter_pos hd (by omega) hfirst
  have hlt : shorter durations value < durations.length := shorter_lt hd (by omega) hlast.le
  have hbelow : (durations.getD (shorter durations value - 1) 0 : ℚ) < value :=
    (lt_shorter_iff hd (by omega)).mp (by omega)
  have habove : value < durations.getD (shorter durations value) 0 :=
    lt_of_le_of_ne (not_lt.mp ((lt_shorter_iff hd hlt).not.mp (lt_irrefl _))) (hne _ (getD_mem hlt)).symm
  have hgap : (1 : ℚ) ≤ durations.getD (shorter durations value) 0 - durations.getD (shorter durations value - 1) 0 :=
    one_le_sub (by exact_mod_cast hbelow.trans habove)
  rw [percentileAtDuration_gap hd hn hfirst hlast hne]
  simp only [interpolated, max_eq_right hgap]
  have hgap' :
      (0 : ℚ) < durations.getD (shorter durations value) 0 - durations.getD (shorter durations value - 1) 0 := by
    linarith
  rw [ceil_between hpos hlt (div_pos (by linarith) hgap') ((div_lt_one hgap').mpr (by linarith))]
  split
  · rename_i h
    rw [← mul_div_assoc, div_le_iff₀ hgap'] at h
    exact .inl ⟨⟨hne, h⟩, rfl⟩
  · rename_i h
    rw [← mul_div_assoc, div_le_iff₀ hgap'] at h
    exact .inr ⟨fun hk => h hk.2, rfl⟩

theorem rank_low (hd : durations.Pairwise (· ≤ ·)) (hn : 2 ≤ durations.length)
    (hfirst : (durations.getD 0 0 : ℚ) ≤ low) (hlast : low < durations.getD (durations.length - 1) 0) :
    LowKeeps durations low ∧
        ⌈(durations.length * percentileAtDuration durations low .low / 100 : ℚ)⌉₊ = shorter durations low ∨
      ¬ LowKeeps durations low ∧
        ⌈(durations.length * percentileAtDuration durations low .low / 100 : ℚ)⌉₊ = shorter durations low + 1 := by
  rcases hfirst.eq_or_lt with heq | hfirst
  · have hs : shorter durations low = 0 := by
      have := (lt_shorter_iff hd (show 0 < durations.length by omega)).not.mpr heq.not_lt
      omega
    rw [percentileAtDuration_first heq.ge, mul_zero, zero_div, Nat.ceil_zero, hs]
    exact .inl ⟨.inl heq.symm, rfl⟩
  · by_cases hmem : ∃ d ∈ durations, (d : ℚ) = low
    · right
      rw [percentileAtDuration_low hd hn hfirst hlast hmem,
        ceil_position (shorter_pos hd (by omega) hfirst) (shorter_lt hd (by omega) hlast.le)]
      refine ⟨?_, rfl⟩
      rintro (heq | ⟨hne, -⟩)
      · exact hfirst.ne' heq
      · obtain ⟨d, hd, he⟩ := hmem
        exact hne d hd he
    · have hne : ∀ d ∈ durations, (d : ℚ) ≠ low := fun d hd he => hmem ⟨d, hd, he⟩
      rcases rank_gap .low hd hn hfirst hlast hne with ⟨hk, hr⟩ | ⟨hk, hr⟩
      · exact .inl ⟨.inr hk, hr⟩
      · exact .inr ⟨fun h => hk (h.resolve_left hfirst.ne'), hr⟩

theorem rank_high (hd : durations.Pairwise (· ≤ ·)) (hn : 2 ≤ durations.length)
    (hfirst : (durations.getD 0 0 : ℚ) < high) (hlast : high ≤ durations.getD (durations.length - 1) 0) :
    HighKeeps durations high ∧
        ⌈(durations.length * percentileAtDuration durations high .high / 100 : ℚ)⌉₊ = notLonger durations high ∨
      ¬ HighKeeps durations high ∧ notLonger durations high < durations.length ∧
        ⌈(durations.length * percentileAtDuration durations high .high / 100 : ℚ)⌉₊ = notLonger durations high + 1 := by
  have hle : notLonger durations high ≤ durations.length := List.countP_le_length
  rcases hlast.eq_or_lt with heq | hlast
  · have hall := (notLonger_lt_iff hd (by omega)).not.mpr heq.not_lt
    rw [percentileAtDuration_last hn hfirst heq.ge, ceil_hundred]
    exact .inl ⟨.inl heq, by omega⟩
  · have hlt := (notLonger_lt_iff hd (by omega)).mpr hlast
    have hpos := notLonger_pos hd (by omega) hfirst.le
    by_cases hmem : ∃ d ∈ durations, (d : ℚ) = high
    · right
      rw [percentileAtDuration_high hd hn hfirst hlast hmem, ceil_position hpos (by omega)]
      refine ⟨?_, by omega, rfl⟩
      rintro (heq | ⟨hne, -⟩)
      · exact hlast.ne heq
      · obtain ⟨d, hd, he⟩ := hmem
        exact hne d hd he
    · have hne : ∀ d ∈ durations, (d : ℚ) ≠ high := fun d hd he => hmem ⟨d, hd, he⟩
      rw [shorter_eq_notLonger hne] at hlt ⊢
      rcases rank_gap .high hd hn hfirst hlast hne with ⟨hk, hr⟩ | ⟨hk, hr⟩
      · exact .inl ⟨.inr hk, hr⟩
      · exact .inr ⟨fun h => hk (h.resolve_left hlast.ne), by omega, hr⟩

/-! ## The window -/

/-- The chosen invocations are the eligible ones in the window. -/
def State.Selects (p : Profile) (s : State) (w : Window) : Prop :=
  ∀ i, i ∈ (s.calculate p).1.chosen ↔ i ∈ s.eligible p ∧ w.low ≤ (i.durationNs : ℚ) ∧ (i.durationNs : ℚ) ≤ w.high

/-- The window selects its durations. When it is a point, the percentiles that the page had before still count. -/
structure KeepsWindow (durations : List Nat) (percentile w : Window) : Prop where
  overlap : w.low < w.high → (∃ d ∈ durations, w.low ≤ (d : ℚ) ∧ (d : ℚ) ≤ w.high) →
    LowKeeps durations w.low ∧ HighKeeps durations w.high
  gap : w.low < w.high → (¬ ∃ d ∈ durations, w.low ≤ (d : ℚ) ∧ (d : ℚ) ≤ w.high) →
    LowKeeps durations w.low → HighKeeps durations w.high
  point : w.low = w.high → ∀ k < durations.length,
    (durations.length * percentile.low ≤ 100 * k ∧ 100 * k < durations.length * percentile.high) ↔
      (durations.getD k 0 : ℚ) = w.low

theorem rankBounds_fst_le {n k : Nat} (hk : k < n) (range : Window) :
    (rankBounds n range).1 ≤ k ↔ n * range.low ≤ 100 * k := by
  rw [rankBounds, min_le_iff, or_iff_right (by omega), Nat.ceil_le, div_le_iff₀ (by norm_num), mul_comm (k : ℚ)]

theorem lt_rankBounds_snd {n k : Nat} (hk : k < n) (range : Window) :
    k < (rankBounds n range).2 ↔ 100 * k < n * range.high := by
  rw [rankBounds, lt_min_iff, and_iff_right hk, Nat.lt_ceil, lt_div_iff₀ (by norm_num), mul_comm (k : ℚ)]

theorem syncLatencyWindow_inside {s : State} {w : Window} (hne : durations ≠ []) (hs : s.latency = some w)
    (hfirst : (durations.getD 0 0 : ℚ) ≤ w.low)
    (hlast : w.high ≤ durations.getD (durations.length - 1) 0) :
    (s.syncLatencyWindow durations).2.percentile = if w.low < w.high then
      ⟨percentileAtDuration durations w.low .low, percentileAtDuration durations w.high .high⟩ else s.percentile := by
  rw [percentile_syncLatencyWindow hne (by rw [hs, Option.getD_some]), max_eq_right hfirst, min_eq_right hlast]
  refine if_congr ⟨fun ho => ho.2.1, fun hlt => ?_⟩ rfl rfl
  exact ⟨hfirst.trans_lt (hlt.trans_le hlast), hlt, hlt.trans_le hlast, hfirst.trans_lt hlt⟩

section Inside

variable {s : State} {w : Window}

/-- The positions of the durations in the window. -/
theorem inside_iff (hd : durations.Pairwise (· ≤ ·)) {k : Nat} (hk : k < durations.length) :
    w.low ≤ (durations.getD k 0 : ℚ) ∧ (durations.getD k 0 : ℚ) ≤ w.high ↔
      shorter durations w.low ≤ k ∧ k < notLonger durations w.high := by
  rw [lt_notLonger_iff hd hk, ← not_lt, ← lt_shorter_iff hd hk, not_lt]

theorem exists_inside_iff (hd : durations.Pairwise (· ≤ ·)) :
    (∃ d ∈ durations, w.low ≤ (d : ℚ) ∧ (d : ℚ) ≤ w.high) ↔
      shorter durations w.low < notLonger durations w.high := by
  constructor
  · rintro ⟨d, hmem, hin⟩
    obtain ⟨k, hk, rfl⟩ := List.mem_iff_getElem.mp hmem
    rw [← List.getD_eq_getElem _ 0 hk, inside_iff hd hk] at hin
    exact hin.1.trans_lt hin.2
  · intro h
    have hk : shorter durations w.low < durations.length := h.trans_le List.countP_le_length
    exact ⟨_, getD_mem hk, (inside_iff hd hk).mpr ⟨le_refl _, h⟩⟩

theorem shorter_le_notLonger (hle : w.low ≤ w.high) : shorter durations w.low ≤ notLonger durations w.high :=
  List.countP_mono_left fun d _ hd => by
    simp only [decide_eq_true_eq] at hd ⊢
    exact hd.le.trans hle

/-- The ranks of a window that is no point: both edges count when the window has durations, and otherwise it only
matters that the high edge does not exceed the low one. -/
theorem ranks_iff_of_lt (hd : durations.Pairwise (· ≤ ·)) (hfirst : (durations.getD 0 0 : ℚ) ≤ w.low)
    (hlt : w.low < w.high) (hlast : w.high ≤ durations.getD (durations.length - 1) 0) (percentile : Window) :
    (∀ k < durations.length,
      (rankBounds durations.length
            ⟨percentileAtDuration durations w.low .low, percentileAtDuration durations w.high .high⟩).1 ≤ k ∧
          k < (rankBounds durations.length
            ⟨percentileAtDuration durations w.low .low, percentileAtDuration durations w.high .high⟩).2 ↔
        w.low ≤ (durations.getD k 0 : ℚ) ∧ (durations.getD k 0 : ℚ) ≤ w.high) ↔
      KeepsWindow durations percentile w := by
  have hn : 2 ≤ durations.length := two_le_length (hfirst.trans_lt (hlt.trans_le hlast))
  have hin : ∀ k < durations.length, _ := fun k hk => inside_iff (w := w) hd hk
  have ha : shorter durations w.low < durations.length := shorter_lt hd (by omega) (hlt.trans_le hlast).le
  have hab : shorter durations w.low ≤ notLonger durations w.high := shorter_le_notLonger hlt.le
  have hb : notLonger durations w.high ≤ durations.length := List.countP_le_length
  have hnopoint : w.low ≠ w.high := hlt.ne
  simp only [rankBounds]
  rcases rank_low hd hn hfirst (hlt.trans_le hlast) with ⟨hl, rl⟩ | ⟨hl, rl⟩
  · rcases rank_high hd hn (hfirst.trans_lt hlt) hlast with ⟨hh, rh⟩ | ⟨hh, hbn, rh⟩
    · refine iff_of_true (fun k hk => ?_) ⟨fun _ _ => ⟨hl, hh⟩, fun _ _ _ => hh, fun heq => absurd heq hnopoint⟩
      rw [hin k hk, rl, rh]
      omega
    · refine iff_of_false (fun h => ?_) fun h => ?_
      · -- one duration behind the window is chosen
        have hbehind := h _ hbn
        rw [hin _ hbn, rl, rh] at hbehind
        omega
      · by_cases ho : ∃ d ∈ durations, w.low ≤ (d : ℚ) ∧ (d : ℚ) ≤ w.high
        · exact hh (h.overlap hlt ho).2
        · exact hh (h.gap hlt ho hl)
  · by_cases ho : ∃ d ∈ durations, w.low ≤ (d : ℚ) ∧ (d : ℚ) ≤ w.high
    · refine iff_of_false (fun h => ?_) fun h => hl (h.overlap hlt ho).1
      -- the first duration of the window is not chosen
      have hfirst' := h _ ha
      rw [hin _ ha, rl] at hfirst'
      have := (exists_inside_iff hd).mp ho
      omega
    · refine iff_of_true (fun k hk => ?_)
        ⟨fun _ ho' => absurd ho' ho, fun _ _ hl' => absurd hl' hl, fun heq => absurd heq hnopoint⟩
      have hempty := (exists_inside_iff hd).not.mp ho
      rw [hin k hk, rl]
      rcases rank_high hd hn (hfirst.trans_lt hlt) hlast with ⟨-, rh⟩ | ⟨-, -, rh⟩
      · rw [rh]; omega
      · rw [rh]; omega

theorem ranks_iff_keepsWindow (hd : durations.Pairwise (· ≤ ·)) (hne : durations ≠ [])
    (hs : s.latency = some w) (hfirst : (durations.getD 0 0 : ℚ) ≤ w.low) (hle : w.low ≤ w.high)
    (hlast : w.high ≤ durations.getD (durations.length - 1) 0) :
    (∀ k < durations.length,
      (rankBounds durations.length (s.syncLatencyWindow durations).2.percentile).1 ≤ k ∧
          k < (rankBounds durations.length (s.syncLatencyWindow durations).2.percentile).2 ↔
        w.low ≤ (durations.getD k 0 : ℚ) ∧ (durations.getD k 0 : ℚ) ≤ w.high) ↔
      KeepsWindow durations s.percentile w := by
  rw [syncLatencyWindow_inside hne hs hfirst hlast]
  rcases hle.eq_or_lt with heq | hlt
  · have hpoint : ∀ d : Nat, w.low ≤ (d : ℚ) ∧ (d : ℚ) ≤ w.high ↔ (d : ℚ) = w.low := by
      intro d
      rw [← heq]
      exact ⟨fun h => le_antisymm h.2 h.1, fun h => ⟨h.ge, h.le⟩⟩
    rw [if_neg heq.not_lt]
    simp only [hpoint]
    constructor
    · intro h
      refine ⟨fun hlt => absurd hlt heq.not_lt, fun hlt => absurd hlt heq.not_lt, fun _ k hk => ?_⟩
      rw [← rankBounds_fst_le hk, ← lt_rankBounds_snd hk]
      exact h k hk
    · intro h k hk
      rw [rankBounds_fst_le hk, lt_rankBounds_snd hk]
      exact h.point heq k hk
  · rw [if_pos hlt]
    exact ranks_iff_of_lt hd hfirst hlt hlast s.percentile

/-- The latency window of a page with invocations is between their durations. -/
theorem latency_syncLatencyWindow (hd : durations.Pairwise (· ≤ ·)) (hne : durations ≠ []) :
    ∃ w, (s.syncLatencyWindow durations).2.latency = some w ∧ (durations.getD 0 0 : ℚ) ≤ w.low ∧ w.low ≤ w.high ∧
      w.high ≤ durations.getD (durations.length - 1) 0 := by
  have hpos : 0 < durations.length := List.length_pos_iff.mpr hne
  have hends : (durations.getD 0 0 : ℚ) ≤ durations.getD (durations.length - 1) 0 :=
    Nat.cast_le.mpr (getD_le hd (Nat.zero_le _) (by omega))
  simp only [State.syncLatencyWindow, hpos.ne', if_false]
  exact ⟨_, rfl, le_max_left .., le_max_left .., max_le (max_le hends (min_le_left ..)) (min_le_left ..)⟩

theorem eligible_syncLatencyWindow (p : Profile) : (s.syncLatencyWindow durations).2.eligible p = s.eligible p := by
  unfold State.syncLatencyWindow
  split <;> rfl

/-- A drag in the histogram sets a latency window between the durations of the page, and changes nothing else that
selects them. -/
theorem latency_dragHistogram {p : Profile} (hne : s.durations p ≠ []) (drag : LatencyDrag) (start : ℚ)
    {moves : List ℚ} (hmoves : moves ≠ []) :
    (s.dragHistogram p drag start moves).eligible p = s.eligible p ∧
      ∃ w, (s.dragHistogram p drag start moves).latency = some w ∧
        ((s.durations p).getD 0 0 : ℚ) ≤ w.low ∧ w.low ≤ w.high ∧
        w.high ≤ (s.durations p).getD ((s.durations p).length - 1) 0 := by
  constructor
  · rw [State.dragHistogram]
    refine List.foldlRecOn moves _ (motive := fun t : State => t.eligible p = s.eligible p) rfl fun t ht x _ => ?_
    rw [eligible_syncLatencyWindow]
    exact ht
  · obtain rfl | ⟨init, x, rfl⟩ := List.eq_nil_or_concat' moves
    · exact absurd rfl hmoves
    rw [State.dragHistogram, List.foldl_append]
    exact latency_syncLatencyWindow durations_sorted hne

end Inside

end SliceProfiler.Viewer
