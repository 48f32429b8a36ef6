import SliceProfiler.Viewer.Lemmas.Window

/-!
# Pages that show everything

The stored latency window is cut to each population that the page shows. Whether the population is chosen as a whole
depends on its durations and on the window and the percentiles that the populations before it have left.
-/

namespace SliceProfiler.Viewer

open Lib

variable {p : Profile} {s : State} {durations : List Nat} {w : Window}

/-- The chosen invocations are the eligible ones. -/
def State.ShowsAll (p : Profile) (s : State) : Prop :=
  ∀ i, i ∈ (s.calculate p).1.chosen ↔ i ∈ p.invocations ∧ i.functionId = s.functionId ∧ i.complete = true ∧
    i.valid = true ∧ i.tid ∈ s.threads ∧ s.time.fromNs ≤ i.startNs ∧ (i.startNs : ℚ) < s.time.toNs

/-- Only the longest duration is behind the window, and the rank of the high edge is rounded up to it. -/
def RoundsToLast (durations : List Nat) (high : ℚ) : Prop :=
  notLonger durations high + 1 = durations.length ∧ ¬ EdgeKeeps durations high

/-- A population with the durations is chosen as a whole. -/
def LeavesWhole (durations : List Nat) (percentile w : Window) : Prop :=
  durations = [] ∨
    if Overlaps durations w then
      w.low ≤ durations.getD 0 0 ∧
        ((durations.getD (durations.length - 1) 0 : ℚ) ≤ w.high ∨ RoundsToLast durations w.high)
    else percentile.low ≤ 0 ∧ 100 * (durations.length - 1) < durations.length * percentile.high

instance (high : ℚ) : Decidable (EdgeKeeps durations high) := inferInstanceAs (Decidable (_ ∧ _))

instance (high : ℚ) : Decidable (RoundsToLast durations high) := inferInstanceAs (Decidable (_ ∧ _))

instance (percentile : Window) : Decidable (LeavesWhole durations percentile w) := inferInstanceAs (Decidable (_ ∨ _))

/-- The window and the percentiles in front of an action leave the population after it whole. -/
def State.KeepsAll (p : Profile) (s : State) (a : Action) : Prop :=
  ∀ w ∈ s.latency, LeavesWhole ((s.act p a).durations p) s.percentile w

instance (a : Action) : Decidable (s.KeepsAll p a) :=
  inferInstanceAs (Decidable (∀ w ∈ s.latency, LeavesWhole ((s.act p a).durations p) s.percentile w))

/-! ## The ranks of the whole population -/

/-- All positions are between the ranks when the first and the last one are. -/
theorem ranks_all_iff (hn : 0 < durations.length) (range : Window) :
    (∀ k < durations.length, (rankBounds durations.length range).1 ≤ k ∧ k < (rankBounds durations.length range).2) ↔
      (rankBounds durations.length range).1 = 0 ∧ durations.length ≤ (rankBounds durations.length range).2 := by
  constructor
  · intro h
    have hfirst := (h 0 hn).1
    have hlast := (h (durations.length - 1) (by omega)).2
    omega
  · rintro ⟨hfirst, hlast⟩ k hk
    omega

theorem ranks_all_iff_percentile (hn : 0 < durations.length) (percentile : Window) :
    (∀ k < durations.length,
      (rankBounds durations.length percentile).1 ≤ k ∧ k < (rankBounds durations.length percentile).2) ↔
      percentile.low ≤ 0 ∧ 100 * (durations.length - 1) < durations.length * percentile.high := by
  have hpos : (0 : ℚ) < durations.length := Nat.cast_pos.mpr hn
  have hpred : ((durations.length - 1 : Nat) : ℚ) = durations.length - 1 := by rw [Nat.cast_sub hn, Nat.cast_one]
  rw [ranks_all_iff hn, ← Nat.le_zero, rankBounds_fst_le hn, Nat.cast_zero, mul_zero, ← hpred,
    ← lt_rankBounds_snd (by omega)]
  refine and_congr ⟨fun h => ?_, fun h => mul_nonpos_of_nonneg_of_nonpos hpos.le h⟩ (by omega)
  exact not_lt.mp fun hlt => h.not_gt (mul_pos hpos hlt)

/-- The low edge keeps everything only at the shortest duration; the high edge at the longest one, or when its rank is
rounded up to it. -/
theorem ranks_all_iff_edges (hd : durations.Pairwise (· ≤ ·)) {low high : ℚ}
    (hfirst : (durations.getD 0 0 : ℚ) ≤ low) (hlt : low < high)
    (hlast : high ≤ durations.getD (durations.length - 1) 0) :
    (∀ k < durations.length,
      (rankBounds durations.length
            ⟨percentileAtDuration durations low .low, percentileAtDuration durations high .high⟩).1 ≤ k ∧
          k < (rankBounds durations.length
            ⟨percentileAtDuration durations low .low, percentileAtDuration durations high .high⟩).2) ↔
      low = durations.getD 0 0 ∧
        (high = durations.getD (durations.length - 1) 0 ∨ RoundsToLast durations high) := by
  have hn : 2 ≤ durations.length := two_le_length (hfirst.trans_lt (hlt.trans_le hlast))
  rw [ranks_all_iff (by omega)]
  refine and_congr ?_ ?_
  · rcases hfirst.eq_or_lt with heq | hfirst
    · refine iff_of_true ?_ heq.symm
      rw [rankBounds, percentileAtDuration_first heq.ge, mul_zero, zero_div, Nat.ceil_zero, Nat.min_zero]
    · refine iff_of_false (fun h => ?_) hfirst.ne'
      have hpos := shorter_pos hd (by omega) hfirst
      simp only [rankBounds] at h
      rcases rank_low hd hn hfirst.le (hlt.trans_le hlast) with ⟨-, hr⟩ | ⟨-, hr⟩ <;> omega
  · have hle : notLonger durations high ≤ durations.length := List.countP_le_length
    simp only [rankBounds, le_min_iff, le_refl, true_and]
    rcases hlast.eq_or_lt with heq | hlast
    · refine iff_of_true ?_ (.inl heq)
      rw [percentileAtDuration_last hn (hfirst.trans_lt hlt) heq.ge, ceil_hundred]
    · have hlt' := (notLonger_lt_iff hd (by omega)).mpr hlast
      rw [or_iff_right hlast.ne, RoundsToLast]
      rcases rank_high hd hn (hfirst.trans_lt hlt) hlast.le with ⟨hk, hr⟩ | ⟨hk, hb, hr⟩
      · rw [hr]
        refine iff_of_false (by omega) fun h => h.2 (hk.resolve_left hlast.ne)
      · rw [hr]
        exact ⟨fun h => ⟨by omega, fun he => hk (.inr he)⟩, fun h => by omega⟩

theorem leavesWhole_first : LeavesWhole durations ⟨0, 100⟩
    ⟨durationAtPercentile durations 0, durationAtPercentile durations 100⟩ := by
  by_cases hne : durations = []
  · exact .inl hne
  right
  have hpos : (0 : ℚ) < durations.length := Nat.cast_pos.mpr (List.length_pos_iff.mpr hne)
  split
  · rename_i ho
    have hn : 2 ≤ durations.length := two_le_length ho.1
    rw [durationAtPercentile_zero hn, durationAtPercentile_hundred hn]
    exact ⟨le_refl _, .inl (le_refl _)⟩
  · exact ⟨le_refl _, by linarith⟩

/-! ## Populations and actions -/

theorem showsAll_iff_ranks (hn : (p.invocations.map (·.id)).Nodup) : s.ShowsAll p ↔
    ∀ k < (s.durations p).length,
      (rankBounds (s.durations p).length (s.syncLatencyWindow (s.durations p)).2.percentile).1 ≤ k ∧
        k < (rankBounds (s.durations p).length (s.syncLatencyWindow (s.durations p)).2.percentile).2 := by
  have hranks := chosen_iff_ranks (s := s) hn fun _ => True
  simp only [and_true, iff_true, mem_eligible] at hranks
  exact hranks

theorem showsAll_iff (hn : (p.invocations.map (·.id)).Nodup)
    (hw : s.latency.getD ⟨durationAtPercentile (s.durations p) s.percentile.low,
      durationAtPercentile (s.durations p) s.percentile.high⟩ = w) :
    s.ShowsAll p ↔ LeavesWhole (s.durations p) s.percentile w := by
  rw [showsAll_iff_ranks hn, LeavesWhole]
  by_cases hne : s.durations p = []
  · simp [hne]
  have hpos : 0 < (s.durations p).length := List.length_pos_iff.mpr hne
  rw [or_iff_right hne, percentile_syncLatencyWindow hne hw]
  split
  · rename_i ho
    obtain ⟨hfl, hlh, hll, hfh⟩ := ho
    rw [ranks_all_iff_edges durations_sorted (le_max_left ..)
      (max_lt (lt_min hfl hfh) (lt_min hll hlh)) (min_le_left ..), max_eq_left_iff, min_eq_left_iff]
    refine and_congr_right fun _ => ?_
    rcases le_or_gt ((s.durations p).getD ((s.durations p).length - 1) 0 : ℚ) w.high with hlast | hlast
    · exact iff_of_true (.inl hlast) (.inl hlast)
    · rw [min_eq_right hlast.le]
  · exact ranks_all_iff_percentile hpos s.percentile

theorem latency_act (s : State) (a : Action) : (s.act p a).latency = s.latency := by
  cases a with
  | commitTime edge entered => cases entered <;> rfl
  | _ => rfl

theorem percentile_act (s : State) (a : Action) : (s.act p a).percentile = s.percentile := by
  cases a with
  | commitTime edge entered => cases entered <;> rfl
  | _ => rfl

theorem latency_calculate : ∃ w, (s.calculate p).2.latency = some w := by
  simp only [State.calculate, State.syncLatencyWindow]
  split <;> exact ⟨_, rfl⟩

end SliceProfiler.Viewer
