import SliceProfiler.Core.Lemmas.Metrics
import SliceProfiler.Viewer.Lemmas.Flame
import SliceProfiler.Viewer.Lemmas.Window

/-!
# Controls that only change what the page displays

A rendering leaves a latency window and percentiles that the next rendering does not change any more. The metric, the
bucket size and the search text are not read before that.
-/

namespace SliceProfiler.Viewer

open Lib

/-- The page with another metric, another bucket size of the histogram and another search text. -/
def State.display (s : State) (metric : Metric) (bucketSizeNs : Option ℚ) (search : String) : State :=
  { s with metric, histogramBucketSizeNs := bucketSizeNs, search }

variable {p : Profile} {s : State} {durations : List Nat}

/-! ## The second rendering -/

/-- A value that was cut to two bounds, in this order, is not cut again. -/
theorem cut_cut (first last value : ℚ) :
    max first (min last (max first (min last value))) = max first (min last value) := by
  rcases le_total first last with h | h
  · rw [min_eq_right (max_le h (min_le_left ..)), max_eq_right (le_max_left ..)]
  · have hcut : max first (min last value) = first := max_eq_left ((min_le_left ..).trans h)
    rw [hcut, min_eq_left h, max_eq_left h]

/-- A latency window that was cut to the durations stays as it is, and gives the same percentiles again. -/
theorem syncLatencyWindow_again {t : State} (hlatency : t.latency = (s.syncLatencyWindow durations).2.latency)
    (hpercentile : t.percentile = (s.syncLatencyWindow durations).2.percentile) :
    t.syncLatencyWindow durations = ((s.syncLatencyWindow durations).1, t) := by
  obtain ⟨functionId, threads, time, percentile, latency, bucketSize, metric, search⟩ := t
  simp only [State.syncLatencyWindow] at hlatency hpercentile ⊢
  by_cases hd : durations.length = 0
  · simp only [hd, if_true] at hlatency ⊢
    rw [hlatency]
  · simp only [hd, if_false] at hlatency hpercentile ⊢
    subst hlatency hpercentile
    simp only [Option.getD_some, cut_cut]
    split
    · rfl
    · rfl

theorem eligible_display (metric : Metric) (bucketSizeNs : Option ℚ) (search : String) :
    ((s.calculate p).2.display metric bucketSizeNs search).eligible p = s.eligible p :=
  eligible_syncLatencyWindow p

theorem calculate_display (metric : Metric) (bucketSizeNs : Option ℚ) (search : String) :
    ((s.calculate p).2.display metric bucketSizeNs search).calculate p =
      ((s.calculate p).1, (s.calculate p).2.display metric bucketSizeNs search) := by
  have hsync : ((s.calculate p).2.display metric bucketSizeNs search).syncLatencyWindow (s.durations p) =
      ((s.syncLatencyWindow (s.durations p)).1, (s.calculate p).2.display metric bucketSizeNs search) :=
    syncLatencyWindow_again rfl rfl
  rw [State.durations] at hsync
  rw [State.calculate]
  simp only [eligible_display, hsync]
  rfl

/-! ## The totals -/

theorem startsAt_congr {t : State} (h : t.functionId = s.functionId) : t.startsAt p = s.startsAt p := by
  funext f
  rw [State.startsAt, State.startsAt, State.selectedName, State.selectedName, h]

/-- What a sample adds to the totals does not depend on the metric. -/
theorem aggregateSample_totals {t : State} (h : t.functionId = s.functionId) {ids : Finset Nat} {a b : Aggregation}
    (hcpu : a.cpu = b.cpu) (hoff : a.off = b.off) (sample : Sample) :
    (t.aggregateSample p ids a sample).cpu = (s.aggregateSample p ids b sample).cpu ∧
      (t.aggregateSample p ids a sample).off = (s.aggregateSample p ids b sample).off := by
  simp only [State.aggregateSample, startsAt_congr h]
  by_cases hid : sample.invocationId ∈ ids
  · rw [if_neg (not_not.mpr hid), if_neg (not_not.mpr hid)]
    cases (Map.ofList (p.stacks.map fun k => (k.id, k))).lookup sample.stackId with
    | none => exact ⟨hcpu, hoff⟩
    | some stack =>
        dsimp only
        cases stack.frames.findIdx? (s.startsAt p) with
        | none => exact ⟨hcpu, hoff⟩
        | some startFrame => simp only [hcpu, hoff, and_self]
  · rw [if_pos hid, if_pos hid]
    exact ⟨hcpu, hoff⟩

theorem aggregate_totals {t : State} (h : t.functionId = s.functionId) (ids : Finset Nat) :
    (t.aggregate p ids).cpu = (s.aggregate p ids).cpu ∧ (t.aggregate p ids).off = (s.aggregate p ids).off := by
  unfold State.aggregate
  induction p.samples using List.reverseRecOn with
  | nil => exact ⟨rfl, rfl⟩
  | append_singleton samples sample ih =>
      simp only [List.foldl_append, List.foldl_cons, List.foldl_nil]
      exact aggregateSample_totals h ih.1 ih.2 sample

/-! ## The three trees -/

/-- The three trees have the same nodes, and the values of the first one are the sums of the other two. -/
structure Node.SplitsInto (wall cpu off : Node) : Prop where
  nodes : ∀ path, (wall.at path).isSome = (cpu.at path).isSome ∧ (wall.at path).isSome = (off.at path).isSome
  value : ∀ path, wall.valueAt path = cpu.valueAt path + off.valueAt path

/-- A query for the function and the metric of the page. -/
def State.query (s : State) : Query := ⟨s.functionId, none, none, ⟨0, 100⟩, s.metric⟩

theorem shows_display (metric : Metric) (bucketSizeNs : Option ℚ) (search : String) :
    (s.display metric bucketSizeNs search).Shows (s.query.under metric) :=
  ⟨rfl, rfl⟩

theorem reached_shown {q : Query} (metric : Metric) {name : Option String} {samples : List ResolvedSample}
    {path : List String} : Reached path (samples.map (shownEntry (q.under metric) name)) ↔
      Reached path (samples.map (shownEntry q name)) := by
  simp only [Reached, List.mem_map, exists_exists_and_eq_and]
  rfl

theorem Node.SumsOver.isSome {n : Node} {q : Query} {name : Option String} {samples : List ResolvedSample}
    (h : n.SumsOver q name samples) (path : List String) :
    (n.at path).isSome = true ↔ path = [] ∨ Reached path (samples.map (shownEntry q name)) := by
  rw [← Option.isSome_map (f := Node.value), h.value]
  split
  · rename_i hr; simp [hr]
  · rename_i hr; simp [hr]

theorem aggregate_display (hw : p.WellFormed) (ids : Finset Nat) (bucketSizeNs : Option ℚ) (search : String) :
    ((s.display .wall bucketSizeNs search).aggregate p ids).root.SplitsInto
      ((s.display .cpu bucketSizeNs search).aggregate p ids).root
      ((s.display .offCpu bucketSizeNs search).aggregate p ids).root := by
  have hsums : ∀ metric, ((s.display metric bucketSizeNs search).aggregate p ids).root.SumsOver
      (s.query.under metric) (s.query.selectedName p)
      (p.resolvedSamples.filter (visits s.query (s.query.selectedName p) ids)) :=
    fun metric => aggregate_sumsOver hw (shows_display metric bucketSizeNs search) ids
  have hvalue : ∀ metric path, ((s.display metric bucketSizeNs search).aggregate p ids).root.valueAt path =
      p.weight (s.query.under metric) ids (p.goesThrough s.query path) := by
    intro metric path
    rw [(hsums metric).valueAt]
    exact weightUnder_shown (q := s.query.under metric) ids path
  constructor
  · intro path
    have hnodes : ∀ metric, (((s.display metric bucketSizeNs search).aggregate p ids).root.at path).isSome = true ↔ _ :=
      fun metric => ((hsums metric).isSome path).trans (or_congr_right (reached_shown metric))
    exact ⟨Bool.eq_iff_iff.mpr ((hnodes .wall).trans (hnodes .cpu).symm),
      Bool.eq_iff_iff.mpr ((hnodes .wall).trans (hnodes .offCpu).symm)⟩
  · intro path
    rw [hvalue, hvalue, hvalue, weight_wall]

end SliceProfiler.Viewer
