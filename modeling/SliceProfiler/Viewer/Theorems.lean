import Mathlib.Data.List.Perm.Subperm
import SliceProfiler.Core.Theorems
import SliceProfiler.Lib.Runs
import SliceProfiler.Lib.Text
import SliceProfiler.Viewer.Lemmas.Display
import SliceProfiler.Viewer.Lemmas.Drawing
import SliceProfiler.Viewer.Lemmas.Eligible
import SliceProfiler.Viewer.Lemmas.Flame
import SliceProfiler.Viewer.Lemmas.Histogram
import SliceProfiler.Viewer.Lemmas.Lanes
import SliceProfiler.Viewer.Lemmas.Layout
import SliceProfiler.Viewer.Lemmas.Page
import SliceProfiler.Viewer.Lemmas.Render
import SliceProfiler.Viewer.Lemmas.Timeline
import SliceProfiler.Viewer.Lemmas.Whole

/-!
# Theorems on the viewer

The first population of the page is the one that the query engine selects. A latency window selects the
invocations inside it when its edges keep their ranks, and a run of actions shows everything as long as the stored
window leaves each population whole. For any selected ids the flame graph of the page has the values of the tree
that the query engine builds, and its rectangles nest unless a node is taken for the root. Controls that only change
the display leave the population alone. The page reads its data back from the script elements.
-/

namespace SliceProfiler.Viewer

open Lib

variable {p : Profile} {q : Query} {s : State}

theorem renderHtml_eq_ok : renderHtml p q = .ok s ↔
    p.validate = .ok () ∧ (∃ r, executeQuery p q = .ok r) ∧ s = initialState p q := by
  simp only [renderHtml, bind_eq_ok, mapError_eq_ok, Except.ok.injEq]
  constructor
  · rintro ⟨_, hv, r, hr, rfl⟩
    exact ⟨hv, ⟨r, hr⟩, rfl⟩
  · rintro ⟨hv, ⟨r, hr⟩, rfl⟩
    exact ⟨(), hv, r, hr, rfl⟩

theorem length_candidates_le (hn : (p.invocations.map (·.id)).Nodup) {n : Nat} (hids : ∀ i ∈ p.invocations, i.id < n) :
    (candidates p q).length ≤ n := by
  have hsub : (candidates p q).map (·.id) ⊆ List.range n := by
    intro k hk
    obtain ⟨i, hi, rfl⟩ := List.mem_map.mp hk
    exact List.mem_range.mpr (hids i (mem_candidates.mp hi).1)
  have hle := (List.subperm_of_subset (candidates_ids_nodup hn) hsub).length_le
  rwa [List.length_map, List.length_range] at hle

/-- The first population of the page is the one that the query engine selects for the query that the page shows. -/
theorem viewer_selects (h : renderHtml p q = .ok s) (hids : ∀ i ∈ p.invocations, i.id < 2 ^ 53)
    (hend : ∀ i ∈ candidates p (shownQuery p q), i.startNs ≠ (bounds p).toNs)
    (hk : KeepsRanks ((candidates p (shownQuery p q)).map (·.durationNs)) q.percentile) :
    (∃ r, executeQuery p (shownQuery p q) = .ok r ∧
      (s.calculate p).1.chosen.map (·.id) = r.selectedInvocationIds) ∧
    ((∀ t, q.time = some t → (bounds p).fromNs < t.toNs ∧ t.fromNs < (bounds p).toNs) → shownQuery p q = q) := by
  obtain ⟨hv, ⟨_, hr⟩, rfl⟩ := renderHtml_eq_ok.mp h
  obtain ⟨hlh, hh, ht⟩ := executeQuery_checks hr
  have hw := Profile.WellFormed.of_validate hv
  refine ⟨?_, shownQuery_eq ht⟩
  have htime : ∀ t, (shownQuery p q).time = some t → t.fromNs < t.toNs :=
    fun t hshown => ht t (Option.eq_some_of_filter_eq_some hshown)
  obtain ⟨r, hok, hsel, -⟩ := executeQuery_ok (q := shownQuery p q) hw hlh hh htime
  refine ⟨r, hok, ?_⟩
  have hlen : 100 * (candidates p (shownQuery p q)).length < 2 ^ 64 := by
    have := length_candidates_le (q := shownQuery p q) hw.invocationIds hids
    omega
  have hsync := rankBounds_syncLatencyWindow (s := initialState p q) candidates_durations_sorted rfl rfl
    (hlh.le.trans hh) hh hk
  rw [List.length_map] at hsync
  have hranks := SliceProfiler.rankBounds_eq hlen (hlh.le.trans hh) hh
  rw [hsel]
  simp only [State.calculate, eligible_initialState hw hend, hsync, selected]
  rw [show (shownQuery p q).percentile = q.percentile from rfl, hranks]

/-- Three calls that take 10, 20 and 30 nanoseconds. -/
def threeCalls : Profile where
  formatVersion := 1
  metadata := ⟨0, ["target"], "6.6", 1000000⟩
  functions := [loopFunction]
  threads := [⟨7, none⟩]
  invocations := [⟨1, 1, none, 7, 0, 10, true, true⟩, ⟨2, 1, none, 7, 10, 30, true, true⟩,
    ⟨3, 1, none, 7, 30, 60, true, true⟩]
  «stacks» := []
  samples := []
  quality := { eventsGenerated := 6, completeInvocations := 3 }

def shortest : Query := ⟨1, none, some ⟨0, 100⟩, ⟨0, 25⟩, .wall⟩

theorem viewer_selects_shortest :
    ∃ r, executeQuery threeCalls shortest = .ok r ∧
      ((initialState threeCalls shortest).calculate threeCalls).1.chosen.map (·.id) = r.selectedInvocationIds := by
  have hrender : renderHtml threeCalls shortest = .ok (initialState threeCalls shortest) :=
    renderHtml_eq_ok.mpr ⟨by decide, ⟨_, rfl⟩, rfl⟩
  have h := viewer_selects hrender (by decide) (by decide)
    (.inr ⟨.inl rfl, .inr (.inl (by decide +kernel))⟩)
  rw [h.2 (by rintro t ⟨⟩; decide)] at h
  exact h.1

def lowerHalf : Query := ⟨1, none, none, ⟨0, 50⟩, .wall⟩

def pastCapture : Query := ⟨1, none, some ⟨1000, 2000⟩, ⟨0, 100⟩, .wall⟩

/-- The three calls, and one that starts and ends at the end of the capture. -/
def instantCall : Profile :=
  { threeCalls with
    invocations := threeCalls.invocations ++ [⟨4, 1, none, 7, 60, 60, true, true⟩]
    quality := { eventsGenerated := 8, completeInvocations := 4 } }

def everything : Query := ⟨1, none, none, ⟨0, 100⟩, .wall⟩

/-- The page chooses one call more when the upper percentile has exactly the duration of a call, none of the calls that
start at the end of the capture, and all calls for a time range behind the capture. -/
theorem viewer_disagrees :
    (renderHtml threeCalls lowerHalf = .ok (initialState threeCalls lowerHalf) ∧
      (executeQuery threeCalls lowerHalf).toOption.map (·.selectedInvocationIds) = some [1, 2] ∧
      ((initialState threeCalls lowerHalf).calculate threeCalls).1.chosen.map (·.id) = [1, 2, 3]) ∧
    (renderHtml instantCall everything = .ok (initialState instantCall everything) ∧
      (executeQuery instantCall everything).toOption.map (·.selectedInvocationIds) = some [4, 1, 2, 3] ∧
      ((initialState instantCall everything).calculate instantCall).1.chosen.map (·.id) = [1, 2, 3]) ∧
    (renderHtml threeCalls pastCapture = .ok (initialState threeCalls pastCapture) ∧
      (executeQuery threeCalls pastCapture).toOption.map (·.selectedInvocationIds) = some [] ∧
      ((initialState threeCalls pastCapture).calculate threeCalls).1.chosen.map (·.id) = [1, 2, 3]) := by
  refine ⟨⟨?_, by decide, by decide +kernel⟩, ⟨?_, by decide, by decide +kernel⟩, ⟨?_, by decide, by decide +kernel⟩⟩
  · exact renderHtml_eq_ok.mpr ⟨by decide, ⟨_, rfl⟩, rfl⟩
  · exact renderHtml_eq_ok.mpr ⟨by decide, ⟨_, rfl⟩, rfl⟩
  · exact renderHtml_eq_ok.mpr ⟨by decide, ⟨_, rfl⟩, rfl⟩

/-! ## Latency windows -/

theorem selects_iff_keepsWindow (hv : p.validate = .ok ()) {w : Window} (hs : s.latency = some w)
    (hfirst : ((s.durations p).getD 0 0 : ℚ) ≤ w.low) (hle : w.low ≤ w.high)
    (hlast : w.high ≤ (s.durations p).getD ((s.durations p).length - 1) 0) :
    s.Selects p w ↔ KeepsWindow (s.durations p) s.percentile w := by
  have hn := (Profile.WellFormed.of_validate hv).invocationIds
  have hranks := chosen_iff_ranks (s := s) hn fun d => w.low ≤ (d : ℚ) ∧ (d : ℚ) ≤ w.high
  by_cases hempty : s.durations p = []
  · rw [hempty] at hranks hfirst hlast ⊢
    have hpoint : ¬ w.low < w.high := fun hlt => absurd (hfirst.trans_lt (hlt.trans_le hlast)) (lt_irrefl _)
    refine iff_of_true (hranks.mpr fun k hk => ?_)
      ⟨fun hlt => absurd hlt hpoint, fun hlt => absurd hlt hpoint, fun _ k hk => ?_⟩
    · cases hk
    · cases hk
  · exact hranks.trans (ranks_iff_keepsWindow durations_sorted hempty hs hfirst hle hlast)

/-- A latency window between the durations of the page selects exactly the invocations inside it when its edges keep
their ranks, and only then. -/
theorem latencyWindow_selects_iff (hv : p.validate = .ok ()) {w : Window} (hs : s.latency = some w)
    (hfirst : ((s.durations p).getD 0 0 : ℚ) ≤ w.low) (hle : w.low ≤ w.high)
    (hlast : w.high ≤ (s.durations p).getD ((s.durations p).length - 1) 0) :
    s.Selects p w ↔ KeepsWindow (s.durations p) s.percentile w := by
  exact selects_iff_keepsWindow hv hs hfirst hle hlast

/-- Every drag in the histogram leaves such a window. -/
theorem dragHistogram_selects_iff (hv : p.validate = .ok ()) (hne : s.durations p ≠ []) (drag : LatencyDrag) (start : ℚ)
    {moves : List ℚ} (hmoves : moves ≠ []) : ∃ w, (s.dragHistogram p drag start moves).latency = some w ∧
      ((s.dragHistogram p drag start moves).Selects p w ↔
        KeepsWindow (s.durations p) (s.dragHistogram p drag start moves).percentile w) := by
  obtain ⟨heligible, w, hw, hfirst, hle, hlast⟩ := latency_dragHistogram hne drag start hmoves
  have hdurations : (s.dragHistogram p drag start moves).durations p = s.durations p := by
    rw [State.durations, heligible, State.durations]
  rw [← hdurations] at hfirst hlast ⊢
  exact ⟨w, hw, selects_iff_keepsWindow hv hw hfirst hle hlast⟩

/-- Behind a rendering, a press in the histogram and the moves of its pointer are such a drag. -/
theorem page_dragHistogram (localeCompare : String → String → Ordering) (pg : Page) (hne : pg.state.durations p ≠ [])
    (kind : LatencyDrag) (pointerId : Nat) (start : ℚ) (l : List ℚ) :
    ((PageEvent.pressHistogram kind pointerId start :: l.map (PageEvent.move pointerId)).foldl
      (Page.handle localeCompare p) (pg.render localeCompare p)).state =
        (pg.state.calculate p).2.dragHistogram p kind start l := by
  have hview : (pg.render localeCompare p).histogram = some ⟨(pg.state.calculate p).2.durations p,
      (pg.state.calculate p).2.histogramRange ((pg.state.calculate p).2.durations p), true⟩ := by
    rw [Page.render_histogram, durations_calculate, if_neg (List.length_pos_iff.mpr hne).ne']
  have hpress : (pg.render localeCompare p).handle localeCompare p (.pressHistogram kind pointerId start) =
      { pg.render localeCompare p with
        drag := some (.latency ⟨kind, pointerId,
          ((pg.state.calculate p).2.histogramRange ((pg.state.calculate p).2.durations p)).valueAt start,
          (pg.state.calculate p).2.latency.getD ⟨0, 0⟩⟩) } := by
    simp only [Page.handle, Page.pressHistogram, hview]
    rfl
  rw [List.foldl_cons, hpress]
  exact congrArg Page.state (Page.move_dragHistogram (by exact hview) kind pointerId start rfl l)

/-- The page of the three calls, with all of them shown. -/
def threeCallsPage : State := ((initialState threeCalls everything).calculate threeCalls).2

/-- A selection in the histogram from 12 nanoseconds to its end. -/
def fromTwelve : State := threeCallsPage.dragHistogram threeCalls .latencySelect (1 / 10) [1 / 2, 1]

theorem fromTwelve_selects : fromTwelve.Selects threeCalls ⟨12, 30⟩ := by
  have hd : fromTwelve.durations threeCalls = [10, 20, 30] := by decide +kernel
  have hlatency : fromTwelve.latency = some ⟨12, 30⟩ := by decide +kernel
  refine (latencyWindow_selects_iff (p := threeCalls) (s := fromTwelve) (by decide) hlatency
    (by rw [hd]; decide +kernel)
    (by decide +kernel) (by rw [hd]; decide +kernel)).mpr ?_
  rw [hd]
  refine ⟨fun _ _ => ⟨.inr ⟨by decide +kernel, by decide +kernel⟩, .inl (by decide +kernel)⟩, fun _ hnone => ?_,
    fun heq => absurd heq (by decide +kernel)⟩
  exact absurd ⟨20, by decide +kernel⟩ hnone

/-- A selection in the histogram from 15 to 20 nanoseconds. -/
def fifteenToTwenty : State := threeCallsPage.dragHistogram threeCalls .latencySelect (1 / 4) [1 / 2]

/-- The call of 30 nanoseconds is chosen too. -/
theorem fifteenToTwenty_exceeds : renderHtml threeCalls everything = .ok (initialState threeCalls everything) ∧
    fifteenToTwenty.latency = some ⟨15, 20⟩ ∧ fifteenToTwenty.durations threeCalls = [10, 20, 30] ∧
    (fifteenToTwenty.calculate threeCalls).1.chosen.map (·.durationNs) = [20, 30] ∧
    ¬ fifteenToTwenty.Selects threeCalls ⟨15, 20⟩ := by
  have hchosen :
      (⟨3, 1, none, 7, 30, 60, true, true⟩ : Invocation) ∈ (fifteenToTwenty.calculate threeCalls).1.chosen := by
    decide +kernel
  refine ⟨renderHtml_eq_ok.mpr ⟨by decide, ⟨_, rfl⟩, rfl⟩, by decide +kernel, by decide +kernel, by decide +kernel,
    fun h => ?_⟩
  exact absurd ((h _).mp hchosen).2.2 (by decide +kernel)

/-! ## The histogram -/

/-- The label of each bucket holds for all that it counts exactly when no duration is at the end of the range. -/
theorem paintHistogram_honest_iff {durations : List Nat} (hne : durations ≠ [])
    (hw : ∀ w, s.histogramBucketSizeNs = some w → 0 < w) :
    ∃ h, s.paintHistogram durations = some h ∧ (h.Honest durations ↔ s.EndsInsideBucket durations) := by
  have hp : ∃ h, s.paintHistogram durations = some h := by
    rw [State.paintHistogram, if_neg hne]
    exact ⟨_, rfl⟩
  obtain ⟨h, hp⟩ := hp
  exact ⟨h, hp, honest_iff hne hw hp⟩

/-- Buckets of 7 nanoseconds hold what their labels say, since 30 is no multiple of 7. -/
theorem sevens_honest :
    ∃ h, { threeCallsPage with histogramBucketSizeNs := some 7 }.paintHistogram [10, 20, 30] = some h ∧
      h.Honest [10, 20, 30] := by
  obtain ⟨h, hp, hiff⟩ := paintHistogram_honest_iff (s := { threeCallsPage with histogramBucketSizeNs := some 7 })
    (show [10, 20, 30] ≠ [] by decide) (by rintro w ⟨⟩; norm_num)
  refine ⟨h, hp, hiff.mpr (.inl fun k => ?_)⟩
  intro he
  have : (30 : ℤ) = k * 7 := by exact_mod_cast he
  omega

/-- Under Auto the longest of the three calls is in the bucket that ends at its duration. -/
theorem threeCalls_histogram : threeCallsPage.durations threeCalls = [10, 20, 30] ∧
    threeCallsPage.histogramBucketSizeNs = none ∧
    ∃ h, threeCallsPage.paintHistogram [10, 20, 30] = some h ∧ h.bucketByIndex = [0, 15, 29] ∧ h.bucketHigh 29 = 30 ∧
      ¬ h.Honest [10, 20, 30] := by
  refine ⟨by decide +kernel, by decide +kernel, _, rfl, by decide +kernel, by decide +kernel, fun hh => ?_⟩
  exact absurd (hh.within 2 29 30 (by decide +kernel) rfl).2 (by decide +kernel)

/-! ## The time window -/

/-- The time window is proper in every state of a run exactly when each event of the run has room. A drag of the whole
window keeps its width in any state. -/
theorem timeWindow_proper_iff (p : Profile) (q : Query) (events : List TimelineEvent) :
    ((∀ pre, pre <+: events → (pre.foldl (Timeline.handle p) (Timeline.initial p q)).state.time.Proper p) ↔
      Along (fun t e => some (t.handle p e)) (Timeline.Room p) (Timeline.initial p q) events) ∧
    ∀ (t : Timeline) (pointerId : Nat) (x : ℚ) (l : List (Nat × ℚ)),
      ((moves l).foldl (Timeline.handle p) (t.handle p (.press .timeMove pointerId x))).state.time.width =
        t.state.time.width :=
  ⟨along_some_iff (Timeline.Proper p) (fun t => t.state.time.Proper p) (fun _ e h => handle_window_iff h e)
    (fun _ _ h hr => h.handle hr) (.initial p q) (Timeline.Proper.initial p q).window,
    fun t pointerId x l => (timeMove_keepsWidth t pointerId x l).1⟩

/-- The events of the timeline alone lead the page where they lead the timeline. -/
theorem timeline_after (localeCompare : String → String → Ordering) (p : Profile) (q : Query) (clientWidth : Nat)
    (events : List TimelineEvent) :
    (Page.after localeCompare p q clientWidth (events.map TimelineEvent.onPage)).timeline =
      events.foldl (Timeline.handle p) (Timeline.initial p q) := by
  suffices h : (Page.after localeCompare p q clientWidth (events.map TimelineEvent.onPage)).timeline =
      events.foldl (Timeline.handle p) (Timeline.initial p q) ∧
      ∀ d, (Page.after localeCompare p q clientWidth (events.map TimelineEvent.onPage)).drag ≠ some (.latency d) from
      h.1
  induction events using List.reverseRecOn with
  | nil => exact ⟨rfl, by rintro d ⟨⟩⟩
  | append_singleton events e ih =>
      rw [List.map_append, List.map_singleton, Page.after, List.foldl_concat, List.foldl_concat, ← ih.1]
      exact Page.timeline_handle ih.2 e

/-- A selection that stays at the right end of the chart is empty. A window of half a nanosecond at the left end has an
edge in front of the capture once the low field is edited. -/
theorem threeCalls_improper : renderHtml threeCalls everything = .ok (initialState threeCalls everything) ∧
    (∃ t, [TimelineEvent.press .timeSelect 1 1, .move 1 1].foldl (Timeline.handle threeCalls)
      (Timeline.initial threeCalls everything) = t ∧ t.state.time = ⟨60, 60⟩ ∧ ¬ t.state.time.Proper threeCalls) ∧
    ∃ t, [TimelineEvent.press .timeSelect 1 0, .move 1 (1 / 120), .release 1, .commitTime .low (some 0)].foldl
      (Timeline.handle threeCalls) (Timeline.initial threeCalls everything) = t ∧ t.state.time = ⟨-1 / 2, 1 / 2⟩ ∧
        ¬ t.state.time.Proper threeCalls := by
  refine ⟨renderHtml_eq_ok.mpr ⟨by decide, ⟨_, rfl⟩, rfl⟩, ⟨_, rfl, ?_⟩, ⟨_, rfl, ?_⟩⟩
  · have he : ([TimelineEvent.press .timeSelect 1 1, .move 1 1].foldl (Timeline.handle threeCalls)
        (Timeline.initial threeCalls everything)).state.time = ⟨60, 60⟩ := by decide +kernel
    rw [he]
    exact ⟨rfl, fun h => lt_irrefl _ h.ordered⟩
  · have he : ([TimelineEvent.press .timeSelect 1 0, .move 1 (1 / 120), .release 1, .commitTime .low (some 0)].foldl
        (Timeline.handle threeCalls) (Timeline.initial threeCalls everything)).state.time = ⟨-1 / 2, 1 / 2⟩ := by
      decide +kernel
    rw [he]
    exact ⟨rfl, fun h => absurd h.low (by decide +kernel)⟩

/-! ## Runs of actions -/

/-- A page that starts with the percentiles from 0 to 100 shows all eligible invocations at first, and after each action
of a run exactly when the stored window and percentiles leave each population whole. -/
theorem showsAll_along (h : renderHtml p q = .ok s) (hq : q.percentile = ⟨0, 100⟩) (actions : List Action) :
    s.ShowsAll p ∧
      (Along (State.step p) (fun t a => (t.act p a).ShowsAll p) (s.calculate p).2 actions ↔
        Along (State.step p) (State.KeepsAll p) (s.calculate p).2 actions) := by
  obtain ⟨hv, -, rfl⟩ := renderHtml_eq_ok.mp h
  have hn := (Profile.WellFormed.of_validate hv).invocationIds
  constructor
  · have hp : (initialState p q).percentile = ⟨0, 100⟩ := by simp [initialState, hq]
    rw [showsAll_iff hn rfl, hp]
    exact leavesWhole_first
  · refine along_congr (fun t => ∃ w, t.latency = some w) ?_ ?_ latency_calculate
    · rintro t a t' - ht
      cases ht
      exact latency_calculate
    · rintro t a ⟨w, hw⟩
      rw [showsAll_iff (w := w) hn (by rw [latency_act, hw, Option.getD_some]), percentile_act, State.KeepsAll]
      simp only [hw, Option.mem_def, Option.some.injEq, forall_eq']

/-- A whole drag by one pointer is the action of the page. -/
theorem drag_eq_dragTime (s : State) (drag : TimeDrag) (pointerId : Nat) (start : ℚ) (l : List ℚ) :
    (TimelineEvent.press drag pointerId start :: moves (l.map fun x => (pointerId, x)) ++
      [TimelineEvent.release pointerId]).foldl
        (Timeline.handle p) ⟨s, none⟩ = ⟨((s.act p (.dragTime drag start l)).calculate p).2, none⟩ := by
  have hmoves : (moves (l.map fun x => (pointerId, x))).foldl (Timeline.handle p)
      ⟨s, some ⟨drag, pointerId, timelineValue p start, s.time⟩⟩ =
        ⟨s.act p (.dragTime drag start l), some ⟨drag, pointerId, timelineValue p start, s.time⟩⟩ := by
    induction l using List.reverseRecOn with
    | nil => rfl
    | append_singleton l x ih =>
        rw [List.map_append, moves, List.map_append, List.foldl_append, ← moves, ih]
        simp [Timeline.handle, State.act]
  have hpress : Timeline.handle p ⟨s, none⟩ (.press drag pointerId start) =
      ⟨s, some ⟨drag, pointerId, timelineValue p start, s.time⟩⟩ := rfl
  rw [List.foldl_concat, List.foldl_cons, hpress, hmoves]
  simp [Timeline.handle]

/-- Two calls on each of two threads. They take 10 and 20 nanoseconds on the first thread, and 5 and 30 on the second.
-/
def twoThreads : Profile where
  formatVersion := 1
  metadata := ⟨0, ["target"], "6.6", 1000000⟩
  functions := [loopFunction]
  threads := [⟨7, none⟩, ⟨8, none⟩]
  invocations := [⟨1, 1, none, 7, 0, 10, true, true⟩, ⟨2, 1, none, 7, 10, 30, true, true⟩,
    ⟨3, 1, none, 8, 0, 5, true, true⟩, ⟨4, 1, none, 8, 5, 35, true, true⟩]
  «stacks» := []
  samples := []
  quality := { eventsGenerated := 8, completeInvocations := 4 }

theorem twoThreads_rendered : renderHtml twoThreads everything = .ok (initialState twoThreads everything) :=
  renderHtml_eq_ok.mpr ⟨by decide, ⟨_, rfl⟩, rfl⟩

/-- The durations on the second thread hold those on the first one, which may be taken out and put back. -/
theorem firstThread_restored : Along (State.step twoThreads) (fun t a => (t.act twoThreads a).ShowsAll twoThreads)
    ((initialState twoThreads everything).calculate twoThreads).2
    [.setMetric .cpu, .toggleThread 7, .setSearch "main", .toggleThread 7] :=
  (showsAll_along twoThreads_rendered rfl _).2.mpr (by decide +kernel)

/-- The second thread is taken out and put back; its shorter call stays out. -/
theorem secondThread_lost : renderHtml twoThreads everything = .ok (initialState twoThreads everything) ∧
    everything.percentile = ⟨0, 100⟩ ∧
    ¬ Along (State.step twoThreads) (fun t a => (t.act twoThreads a).ShowsAll twoThreads)
      ((initialState twoThreads everything).calculate twoThreads).2 [.toggleThread 8, .toggleThread 8] := by
  refine ⟨twoThreads_rendered, rfl, fun hrun => ?_⟩
  have hback := ((hrun.2 _ rfl).1 ⟨3, 1, none, 8, 0, 5, true, true⟩).mpr (by decide +kernel)
  revert hback
  decide +kernel

/-! ## The flame graph -/

/-- The two trees have the same value at every path, and so the same nodes with a positive value. -/
structure Node.Agrees (n : Node) (root : FlameNode) : Prop where
  value : ∀ path, n.valueAt path = root.valueAt path
  positive : ∀ path v, 0 < v →
    ((∃ m, n.at path = some m ∧ m.value = v) ↔ ∃ m, root.at path = some m ∧ m.valueNs = v)
  distinct : n.Distinct
  ordered : root.Ordered

theorem valueAt_eq_iff {n : Node} {path : List String} {v : Nat} (h : 0 < v) :
    (∃ m, n.at path = some m ∧ m.value = v) ↔ n.valueAt path = v := by
  rw [Node.valueAt]
  cases n.at path with
  | none => simp [h.ne]
  | some m => simp

theorem flameValueAt_eq_iff {n : FlameNode} {path : List String} {v : Nat} (h : 0 < v) :
    (∃ m, n.at path = some m ∧ m.valueNs = v) ↔ n.valueAt path = v := by
  rw [FlameNode.valueAt]
  cases n.at path with
  | none => simp [h.ne]
  | some m => simp

theorem aggregate_agrees (hv : p.validate = .ok ()) (h : s.Shows q)
    (hb : (p.samples.map (·.weightNs)).sum < 2 ^ 53) (ids : Finset Nat) :
    ∃ root, flameRoot p q ids = .ok root ∧
      (∀ r, executeQuery p q = .ok r → r.selectedInvocationIds.toFinset = ids → r.root = root) ∧
      (s.aggregate p ids).root.Agrees root := by
  have hw := Profile.WellFormed.of_validate hv
  have hs := aggregate_sumsOver hw h ids
  have hvalue : ∀ path, (s.aggregate p ids).root.valueAt path =
      ((p.totals q ids).tree.finish "root").valueAt path := by
    intro path
    have hle := weight_le (p := p) (q := q) ids (p.goesThrough q path)
    rw [hs.valueAt, weightUnder_shown, valueAt_finish_totals, Nat.min_eq_left]
    exact hle.trans (hb.le.trans (by decide))
  refine ⟨_, flameRoot_eq hw.knownStacks q ids, ?_, hvalue, ?_, hs.distinct, ?_⟩
  · rintro r hr rfl
    have hroot := executeQuery_root hw.knownStacks hr
    rw [flameRoot_eq hw.knownStacks] at hroot
    exact (Except.ok.inj hroot).symm
  · intro path v hpos
    rw [valueAt_eq_iff hpos, flameValueAt_eq_iff hpos, hvalue]
  · exact (totals_sumsOver p q ids).ordered.finish "root"

theorem fourCalls_aggregate_agrees : ∃ root, flameRoot fourCalls upperHalf {1, 3} = .ok root ∧
    ((initialState fourCalls upperHalf).aggregate fourCalls {1, 3}).root.Agrees root := by
  obtain ⟨root, hroot, -, hagrees⟩ := aggregate_agrees (p := fourCalls) (q := upperHalf)
    (s := initialState fourCalls upperHalf) (by decide) ⟨rfl, rfl⟩ (by decide) {1, 3}
  exact ⟨root, hroot, hagrees⟩

/-- The value of a node is its own one and those of its children; the root has none of its own. -/
structure Node.Balanced (n : Node) : Prop where
  root : n.value = n.childrenValue
  node : ∀ label path m, nodeAtPath ⟨[], n⟩ (label :: path) = some m →
    m.node.value = m.node.selfValue + m.node.childrenValue

/-- The tree of every page is balanced. Its rectangles nest exactly when the page is not zoomed to a node that is
labelled like the root, or nothing is drawn above that node. -/
theorem flame_nests_iff (localeCompare : String → String → Ordering) (clientWidth : Nat) (p : Profile) (s : State) :
    (s.flame p).root.Balanced ∧
    ∀ zoomPath source, nodeAtPath ⟨[], (s.flame p).root⟩ zoomPath = some source → 0 < source.node.value →
      ((renderFlame localeCompare clientWidth ⟨[], (s.flame p).root⟩ zoomPath).Nests ⟨[], (s.flame p).root⟩ source ↔
        (zoomPath.getLast? = some "root" → source.node.childrenValue = 0)) := by
  have hroot : (s.flame p).root.IsRoot := aggregate_isRoot ..
  refine ⟨⟨?_, fun label path m hm => (hroot.sound.nodeAtPath hm).1.value_eq⟩, fun _ _ => renderFlame_nests_iff hroot⟩
  have hvalue := hroot.sound.value_eq
  rwa [hroot.selfValue, Nat.zero_add] at hvalue

/-- One call of a function named `root`, with a sample inside a function that it calls. -/
def rootCall : Profile where
  formatVersion := 1
  metadata := ⟨0, ["target"], "6.6", 1000000⟩
  functions := [⟨1, "target", none, 0x1000, "root", "root", none, none⟩]
  threads := [⟨7, none⟩]
  invocations := [⟨1, 1, none, 7, 0, 10, true, true⟩]
  «stacks» := [⟨1, [⟨some 1, "root", some "target", some 0x1000⟩, ⟨none, "work()", some "target", some 0x2000⟩]⟩]
  samples := [⟨5, 1, 1, 7, 0, .onCpu, 1000000⟩]
  quality := { eventsGenerated := 2, samplesGenerated := 1, completeInvocations := 1 }

def rootCallPage : State := initialState rootCall everything

theorem rootCall_nests : (rootCallPage.flame rootCall).root.Balanced ∧
    (renderFlame compare 1000 ⟨[], (rootCallPage.flame rootCall).root⟩ []).Nests
      ⟨[], (rootCallPage.flame rootCall).root⟩
      ⟨[], (rootCallPage.flame rootCall).root⟩ := by
  obtain ⟨hbalanced, hnests⟩ := flame_nests_iff compare 1000 rootCall rootCallPage
  exact ⟨hbalanced, (hnests [] _ rfl (by decide +kernel)).mpr (by simp)⟩

/-- A page that is zoomed to the function draws its callee with a path that leads to no node. -/
theorem rootCall_astray : renderHtml rootCall everything = .ok rootCallPage ∧
    ∃ source, nodeAtPath ⟨[], (rootCallPage.flame rootCall).root⟩ ["root"] = some source ∧ 0 < source.node.value ∧
      ∀ localeCompare, ¬ (renderFlame localeCompare 1000 ⟨[], (rootCallPage.flame rootCall).root⟩ ["root"]).Nests
        ⟨[], (rootCallPage.flame rootCall).root⟩ source := by
  have hvalues : (nodeAtPath ⟨[], (rootCallPage.flame rootCall).root⟩ ["root"]).map
      (fun n => (n.node.value, n.node.childrenValue)) = some (1000000, 1000000) := by decide +kernel
  obtain ⟨source, hsource, hvalues⟩ := Option.map_eq_some_iff.mp hvalues
  obtain ⟨hvalue, hchildren⟩ := Prod.mk.inj hvalues
  have hpos : 0 < source.node.value := by omega
  refine ⟨renderHtml_eq_ok.mpr ⟨by decide, ⟨_, rfl⟩, rfl⟩, source, hsource, hpos, fun localeCompare hnests => ?_⟩
  have hzero := (renderFlame_nests_iff (aggregate_isRoot ..) hsource hpos).mp hnests rfl
  omega

/-- The rectangles stand for the call paths of the contributing samples: each path under the zoom that a sample goes
through is drawn once, as wide as its share of the weight. -/
structure FlameLayout.Draws (p : Profile) (q : Query) (ids : Finset Nat) (l : FlameLayout) : Prop where
  nodup : (l.items.map (·.path)).Nodup
  drawn : ∀ path, path ∈ l.items.map (·.path) ↔
    l.zoomPath <+: path ∧ path ≠ [] ∧ 0 < p.weight q ids (p.goesThrough q path)
  share : ∀ i ∈ l.items, i.w = l.width *
    ((p.weight q ids (p.goesThrough q i.path) : ℚ) / p.weight q ids (p.goesThrough q l.zoomPath))

/-- The flame graph of any page, zoomed to a path that some weight goes through, draws the weights of the chosen
invocations. The node it is zoomed to is not labelled as the root. -/
theorem flame_draws (hv : p.validate = .ok ()) (h : s.Shows q) (localeCompare : String → String → Ordering)
    (clientWidth : Nat) (zoomPath : List String) :
    let ids := ((s.calculate p).1.chosen.map (·.id)).toFinset
    let l := renderFlame localeCompare clientWidth ⟨[], (s.flame p).root⟩ zoomPath
    0 < p.weight q ids (p.goesThrough q l.zoomPath) → l.zoomPath.getLast? ≠ some "root" → l.Draws p q ids := by
  intro ids l hpos hlabel
  have hroot : (s.flame p).root.IsRoot := aggregate_isRoot ..
  have hvalue : ∀ path, (s.flame p).root.valueAt path = p.weight q ids (p.goesThrough q path) := by
    intro path
    exact ((aggregate_sumsOver (Profile.WellFormed.of_validate hv) (h.calculate p) ids).valueAt path).trans
      (weightUnder_shown ids path)
  obtain ⟨source, hsource⟩ : ∃ source, nodeAtPath ⟨[], (s.flame p).root⟩ l.zoomPath = some source :=
    Option.isSome_iff_exists.mp nodeAtPath_renderFlame
  have hsv : source.node.value = p.weight q ids (p.goesThrough q l.zoomPath) := by
    rw [← hvalue, ← nodeAtPath_value hsource]
  have hagain : renderFlame localeCompare clientWidth ⟨[], (s.flame p).root⟩ l.zoomPath = l := renderFlame_again
  have hnests : l.Nests ⟨[], (s.flame p).root⟩ source := by
    rw [← hagain]
    exact (renderFlame_nests_iff hroot hsource (hsv ▸ hpos)).mpr fun he => absurd he hlabel
  obtain ⟨hnodup, hmem⟩ := hagain ▸ mem_paths_renderFlame hroot hsource (hsv ▸ hpos) hlabel
  refine ⟨hnodup, fun path => ?_, fun i hi => ?_⟩
  · rw [hmem, ← hvalue, ← valueAt_pos_iff]
  · rw [hnests.widths i hi, hsv, ← nodeAtPath_value (hnests.leads i hi), hvalue]

/-- Two samples in functions that `work` calls, and one in `work` itself. -/
def nestedCalls : Profile where
  formatVersion := 1
  metadata := ⟨0, ["target"], "6.6", 1000000⟩
  functions := [loopFunction]
  threads := [⟨7, none⟩]
  invocations := [⟨1, 1, none, 7, 0, 10, true, true⟩]
  «stacks» := [⟨1, [⟨none, "main", none, none⟩, ⟨some 1, "work()", some "target", some 0x1000⟩]⟩,
    ⟨2, [⟨some 1, "work()", some "target", some 0x1000⟩, ⟨none, "read()", some "target", some 0x2000⟩]⟩,
    ⟨3, [⟨some 1, "work()", some "target", some 0x1000⟩, ⟨none, "write()", some "target", some 0x3000⟩]⟩]
  samples := [⟨2, 1, 1, 7, 0, .onCpu, 5⟩, ⟨4, 1, 2, 7, 0, .onCpu, 3⟩, ⟨6, 1, 3, 7, 0, .offCpu, 2⟩]
  quality := { eventsGenerated := 2, samplesGenerated := 3, completeInvocations := 1 }

theorem nestedCalls_draws :
    (renderFlame compare 1000 ⟨[], ((initialState nestedCalls everything).flame nestedCalls).root⟩ ["work()"]).Draws
      nestedCalls everything {1} := by
  have hids : (((initialState nestedCalls everything).calculate nestedCalls).1.chosen.map (·.id)).toFinset = {1} := by
    decide +kernel
  have hsome : (nodeAtPath ⟨[], ((initialState nestedCalls everything).flame nestedCalls).root⟩ ["work()"]).isSome := by
    decide +kernel
  have hzoom : (renderFlame compare 1000 ⟨[], ((initialState nestedCalls everything).flame nestedCalls).root⟩
      ["work()"]).zoomPath = ["work()"] := by
    rw [zoomPath_renderFlame, if_pos hsome]
  rw [← hids]
  refine flame_draws (by decide) ⟨rfl, rfl⟩ compare 1000 ["work()"] ?_ ?_
  · rw [hzoom]
    decide +kernel
  · rw [hzoom]
    decide

/-! ## Display-only controls -/

/-- The two pages show one population with the same totals, and keep the same window and percentiles. -/
structure State.ShowsSame (p : Profile) (s t : State) : Prop where
  population : (t.calculate p).1 = (s.calculate p).1
  latency : (t.calculate p).2.latency = (s.calculate p).2.latency
  percentile : (t.calculate p).2.percentile = (s.calculate p).2.percentile
  cpu : (t.flame p).cpu = (s.flame p).cpu
  off : (t.flame p).off = (s.flame p).off

/-- After a rendering another metric, another bucket size and another search text leave the population as it is, and
the tree of the wall time is the sum of the trees of the two other metrics. The percentiles of the page are between 0
and 100; beyond them the script and `rankBounds` differ. -/
theorem display_showsSame (hv : p.validate = .ok ()) (s : State) :
    (∀ metric bucketSizeNs search, s.ShowsSame p ((s.calculate p).2.display metric bucketSizeNs search)) ∧
    ∀ bucketSizeNs search, (((s.calculate p).2.display .wall bucketSizeNs search).flame p).root.SplitsInto
      (((s.calculate p).2.display .cpu bucketSizeNs search).flame p).root
      (((s.calculate p).2.display .offCpu bucketSizeNs search).flame p).root := by
  have hw := Profile.WellFormed.of_validate hv
  constructor
  · intro metric bucketSizeNs search
    have hcalculate := calculate_display (s := s) (p := p) metric bucketSizeNs search
    have htotals := aggregate_totals (p := p) (s := (s.calculate p).2)
      (t := (s.calculate p).2.display metric bucketSizeNs search) rfl
      ((s.calculate p).1.chosen.map (·.id)).toFinset
    refine ⟨?_, ?_, ?_, ?_, ?_⟩
    · rw [hcalculate]
    · rw [hcalculate]
      rfl
    · rw [hcalculate]
      rfl
    · simp only [State.flame, hcalculate]
      exact htotals.1
    · simp only [State.flame, hcalculate]
      exact htotals.2
  · intro bucketSizeNs search
    simp only [State.flame, calculate_display]
    exact aggregate_display hw _ bucketSizeNs search

theorem threeCalls_fifteenToTwenty_showsSame : fifteenToTwenty.ShowsSame threeCalls
    ((fifteenToTwenty.calculate threeCalls).2.display .cpu (some 5) "main") :=
  (display_showsSame (by decide) fifteenToTwenty).1 .cpu (some 5) "main"

/-! ## The whole page -/

/-- Whatever happens on a page, it stays consistent, and an event that ends with a rendering settles it. The percentiles
of two edges that differ stay apart since they are exact rationals. -/
theorem page_consistent (h : renderHtml p q = .ok s) (localeCompare : String → String → Ordering) (clientWidth : Nat)
    (events : List PageEvent) :
    (Page.after localeCompare p q clientWidth events).Consistent p ∧
    ∀ e, (Page.after localeCompare p q clientWidth events).Renders e →
      ((Page.after localeCompare p q clientWidth events).handle localeCompare p e).Settled localeCompare p := by
  obtain ⟨-, ⟨r, hr⟩, -⟩ := renderHtml_eq_ok.mp h
  obtain ⟨hlow, hhigh, -⟩ := executeQuery_checks hr
  have hpage : (Page.after localeCompare p q clientWidth events).Consistent p :=
    Page.consistent_after hlow hhigh clientWidth events
  exact ⟨hpage, fun e he => hpage.settled he⟩

/-- The only thread is hidden in the middle of a drag in the histogram, and the drag goes on. -/
def dragOnEmpty : List PageEvent := [.pressHistogram .latencySelect 1 (1 / 4), .act (.toggleThread 7), .move 1 (1 / 2)]

theorem dragOnEmpty_settled :
    (Page.after compare threeCalls everything 1000 dragOnEmpty).state.durations threeCalls = [] ∧
    (Page.after compare threeCalls everything 1000 dragOnEmpty).state.latency = some ⟨15, 20⟩ ∧
    (Page.after compare threeCalls everything 1000 dragOnEmpty).Consistent threeCalls ∧
    ((Page.after compare threeCalls everything 1000 dragOnEmpty).handle compare threeCalls
      (.release 1)).Settled compare threeCalls := by
  have hrender : renderHtml threeCalls everything = .ok (initialState threeCalls everything) :=
    renderHtml_eq_ok.mpr ⟨by decide, ⟨_, rfl⟩, rfl⟩
  obtain ⟨hpage, hsettled⟩ := page_consistent hrender compare 1000 dragOnEmpty
  have hdrag : (Page.after compare threeCalls everything 1000 dragOnEmpty).drag.map Drag.pointerId = some 1 := by
    decide +kernel
  exact ⟨by decide +kernel, by decide +kernel, hpage, hsettled (.release 1) (Option.map_eq_some_iff.mp hdrag)⟩

/-! ## The drawings -/

/-- Behind `calculate`, the histogram shows its counts, the chosen invocations, round values on its axis and the latency
window. The numbers are exact rationals: the doubles of the script may take one step more, or none. -/
theorem histogram_drawn (hne : s.durations p ≠ []) (hw : ∀ w, s.histogramBucketSizeNs = some w → 0 < w)
    (clientWidth : Nat) : ∃ h window, (s.calculate p).2.paintHistogram (s.durations p) = some h ∧
      (s.calculate p).2.latency = some window ∧
      (drawHistogram (s.calculate p).2 h (s.eligible p).length clientWidth).Bars h ∧
      (drawHistogram (s.calculate p).2 h (s.eligible p).length clientWidth).Marks h (s.calculate p).1.chosen ∧
      (drawHistogram (s.calculate p).2 h (s.eligible p).length clientWidth).Axis h ∧
      (drawHistogram (s.calculate p).2 h (s.eligible p).length clientWidth).Reads h window := by
  obtain ⟨h, hp, hh⟩ := exists_painted hne hw
  obtain ⟨window, hwindow, hlow, hordered, hhigh⟩ := exists_window hh hne
  have hmax : h.max ≤ h.min + h.span := by
    rw [hh.span]
    linarith [le_max_right 1 (h.max - h.min)]
  exact ⟨h, window, hp, hwindow, drawHistogram_bars hh hne _ _, drawHistogram_marks hh rfl,
    drawHistogram_axis hh (hlow.trans (hordered.trans hhigh)) _ _,
    drawHistogram_reads hh hwindow hlow hordered (hhigh.trans hmax)⟩

/-- Three durations in buckets of ten nanoseconds. -/
theorem threeCalls_drawn : ∃ h window,
    ({ threeCallsPage with histogramBucketSizeNs := some 10 }.calculate threeCalls).2.paintHistogram
      [10, 20, 30] = some h ∧
    ({ threeCallsPage with histogramBucketSizeNs := some 10 }.calculate threeCalls).2.latency = some window ∧
    (drawHistogram ({ threeCallsPage with histogramBucketSizeNs := some 10 }.calculate threeCalls).2 h 3 1000).Reads h
      window := by
  obtain ⟨h, window, hp, hl, -, -, -, hr⟩ :=
    histogram_drawn (p := threeCalls) (s := { threeCallsPage with histogramBucketSizeNs := some 10 })
      (by decide +kernel) (by rintro w ⟨⟩; norm_num) 1000
  exact ⟨h, window, hp, hl, hr⟩

/-- The timeline of a valid profile has each invocation at its time, marks the chosen ones and shows where the samples
are. -/
theorem timeline_drawn (hv : p.validate = .ok ()) (s : State) (clientWidth : Nat) (timelineScale : ℚ) :
    (drawTimeline p (s.calculate p).2 (s.calculate p).1.chosen clientWidth timelineScale).Bars p ∧
    (drawTimeline p (s.calculate p).2 (s.calculate p).1.chosen clientWidth timelineScale).Selects p s
      (s.calculate p).1.chosen ∧
    (drawTimeline p (s.calculate p).2 (s.calculate p).1.chosen clientWidth timelineScale).Weighs p := by
  have hw := Profile.WellFormed.of_validate hv
  exact ⟨drawTimeline_bars hw _ _ _, drawTimeline_selects hw _ _, drawTimeline_weighs _ _ _⟩

theorem threeCalls_timeline :
    (drawTimeline threeCalls (threeCallsPage.calculate threeCalls).2 (threeCallsPage.calculate threeCalls).1.chosen
      1000 2).Selects threeCalls threeCallsPage (threeCallsPage.calculate threeCalls).1.chosen ∧
    (threeCallsPage.calculate threeCalls).1.chosen.length = 3 :=
  ⟨(timeline_drawn (by decide) threeCallsPage 1000 2).2.1, by decide +kernel⟩

/-! ## The embedded data -/

/-- The text has none of the three characters, ends where the next tag begins, and is a JSON text of the tree. -/
structure EmbedsSafely (text : List Char) (t : JsonText.Tree) : Prop where
  safe : ∀ c ∈ text, c ≠ '<' ∧ c ≠ '>' ∧ c ≠ '&'
  ends : ∀ rest, splitOnce '<' (text ++ '<' :: rest) = some (text, rest)
  valid : JsonText.parse text = some t

/-- Every tree is embedded safely, whatever standard encoding of strings the serializer uses. -/
theorem scriptSafeJson_embedsSafely {enc : Char → List Char} (h : JsonText.Decodes enc) (t : JsonText.Tree) :
    EmbedsSafely (scriptSafeJson enc t) t := by
  have hsafe : ∀ c ∈ scriptSafeJson enc t, c ≠ '<' ∧ c ≠ '>' ∧ c ≠ '&' := fun c => mem_scriptSafeJson
  refine ⟨hsafe, fun rest => splitOnce_eq_some.mpr ⟨rfl, fun hm => (hsafe '<' hm).1 rfl⟩, ?_⟩
  rw [scriptSafeJson_eq]
  exact JsonText.parse_print (decodes_scriptChar h) t

/-- A function whose name has markup, quotes, a backslash and a line break. -/
def markupName : JsonText.Tree :=
  .object [("id".toList, .number ⟨false, 1, [], none⟩),
    ("name".toList, .string "</script><!-- map<int, A&&>::at(\"\\u003c\") -->\n".toList)]

theorem markupName_embedsSafely : EmbedsSafely (scriptSafeJson serdeEscape markupName) markupName :=
  scriptSafeJson_embedsSafely decodes_serdeEscape markupName

end SliceProfiler.Viewer
