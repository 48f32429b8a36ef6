import Mathlib.Data.List.Induction
import Mathlib.Tactic.Linarith
import Mathlib.Tactic.Ring
import SliceProfiler.Viewer.Timeline

/-!
# The time window under the pointer

An edge is kept one nanosecond in front of the other one, which takes it out of the capture when there is no room.
-/

namespace SliceProfiler.Viewer

open Lib

variable {p : Profile} {q : Query} {t w : TimeWindow} {value startValue : ℚ}

/-- The time is inside the capture. -/
def InCapture (p : Profile) (value : ℚ) : Prop := (bounds p).fromNs ≤ value ∧ value ≤ (bounds p).toNs

theorem one_le_capture (p : Profile) : ((bounds p).fromNs : ℚ) + 1 ≤ (bounds p).toNs := by
  have : (bounds p).fromNs + 1 ≤ (bounds p).toNs := le_max_left _ _
  exact_mod_cast this

theorem clampTime_inCapture (p : Profile) (value : ℚ) : InCapture p (clampTime p value) := by
  have := one_le_capture p
  exact ⟨le_max_left _ _, max_le (by linarith) (min_le_left _ _)⟩

theorem timelineValue_inCapture (p : Profile) (x : ℚ) : InCapture p (timelineValue p x) := by
  have hone := one_le_capture p
  have hratio : max 0 (min 1 x) ≤ 1 := max_le zero_le_one (min_le_left _ _)
  constructor
  · exact le_add_of_nonneg_right (mul_nonneg (le_max_left _ _) (by linarith))
  · rw [timelineValue, ← le_sub_iff_add_le']
    exact mul_le_of_le_one_left (by linarith) hratio

/-- Only positions behind the right end of the chart are the end of the capture. -/
theorem timelineValue_lt_iff {x : ℚ} : timelineValue p x < (bounds p).toNs ↔ x < 1 := by
  have hone := one_le_capture p
  rw [timelineValue, ← lt_sub_iff_add_lt', mul_lt_iff_lt_one_left (by linarith), max_lt_iff, min_lt_iff]
  simp

theorem initialState_proper (p : Profile) (q : Query) : (initialState p q).time.Proper p := by
  have hone := one_le_capture p
  simp only [initialState]
  split
  · exact ⟨le_refl _, by dsimp only; linarith, le_refl _⟩
  · rename_i hlt
    exact ⟨(clampTime_inCapture p _).1, not_le.mp hlt, (clampTime_inCapture p _).2⟩

theorem moveEdge_proper_iff (ht : t.Proper p) (hv : InCapture p value) (edge : Edge) :
    (t.moveEdge edge value).Proper p ↔ t.Room p edge := by
  cases edge with
  | low =>
      constructor
      · intro h
        have := h.low.trans (min_le_right _ _)
        exact le_sub_iff_add_le.mp this
      · intro h
        refine ⟨le_min hv.1 (le_sub_iff_add_le.mpr h), ?_, ht.high⟩
        exact (min_le_right value (t.toNs - 1)).trans_lt (sub_one_lt _)
  | high =>
      constructor
      · intro h
        exact (le_max_right _ _).trans h.high
      · intro h
        refine ⟨ht.low, ?_, max_le hv.2 h⟩
        exact (lt_add_one _).trans_le (le_max_right value (t.fromNs + 1))

theorem timeMove_proper (hw : w.Proper p) : (t.dragTo p .timeMove w startValue value).Proper p := by
  have hlow : (bounds p).fromNs - w.fromNs ≤
      max ((bounds p).fromNs - w.fromNs) (min ((bounds p).toNs - w.toNs) (value - startValue)) := le_max_left _ _
  have hhigh : max ((bounds p).fromNs - w.fromNs) (min ((bounds p).toNs - w.toNs) (value - startValue)) ≤
      (bounds p).toNs - w.toNs := by
    refine max_le ?_ (min_le_left _ _)
    have := hw.low
    have := hw.high
    linarith
  have hordered := hw.ordered
  simp only [TimeWindow.dragTo]
  exact ⟨by dsimp only; linarith, by dsimp only; linarith, by dsimp only; linarith⟩

theorem timeSelect_proper_iff (hs : InCapture p startValue) (hv : InCapture p value) :
    (t.dragTo p .timeSelect w startValue value).Proper p ↔ startValue < (bounds p).toNs ∨ value < (bounds p).toNs := by
  have hlow : ((bounds p).fromNs : ℚ) ≤ min startValue value := le_min hs.1 hv.1
  have hhigh : max startValue value ≤ (bounds p).toNs := max_le hs.2 hv.2
  rw [← min_lt_iff]
  simp only [TimeWindow.dragTo]
  by_cases he : min startValue value = max startValue value
  · rw [he] at hlow
    simp only [he, if_true]
    constructor
    · intro h
      exact h.ordered.trans_le (min_le_left _ _)
    · intro h
      exact ⟨hlow, lt_min h (lt_add_one _), min_le_left _ _⟩
  · simp only [he, if_false]
    have hlt : min startValue value < max startValue value := lt_of_le_of_ne min_le_max he
    exact iff_of_true ⟨hlow, hlt, hhigh⟩ (hlt.trans_le hhigh)

theorem dragTo_proper_iff {d : TimelineDrag} {x : ℚ} (ht : t.Proper p) (hw : d.window.Proper p)
    (hs : InCapture p d.startValue) :
    (t.dragTo p d.kind d.window d.startValue (timelineValue p x)).Proper p ↔ d.Room p t x := by
  have hv := timelineValue_inCapture p x
  unfold TimelineDrag.Room
  cases d.kind with
  | timeFrom => exact moveEdge_proper_iff ht hv .low
  | timeTo => exact moveEdge_proper_iff ht hv .high
  | timeMove => exact iff_of_true (timeMove_proper hw) trivial
  | timeSelect =>
      dsimp only
      rw [timeSelect_proper_iff hs hv, timelineValue_lt_iff]

/-! ## Pages -/

theorem calculate_time (s : State) (p : Profile) : (s.calculate p).2.time = s.time := by
  simp only [State.calculate, State.syncLatencyWindow]
  split
  · rfl
  · rfl

/-- The window is proper, and so is the one at the press of a drag. -/
structure Timeline.Proper (p : Profile) (t : Timeline) : Prop where
  window : t.state.time.Proper p
  dragged : ∀ d, t.drag = some d → d.window.Proper p
  start : ∀ d, t.drag = some d → InCapture p d.startValue

theorem Timeline.Proper.initial (p : Profile) (q : Query) : (Timeline.initial p q).Proper p := by
  refine ⟨?_, by rintro d ⟨⟩, by rintro d ⟨⟩⟩
  rw [Timeline.initial, calculate_time]
  exact initialState_proper p q

theorem handle_time_commit (t : Timeline) (edge : Edge) (entered : ℚ) :
    (t.handle p (.commitTime edge (some entered))).state.time =
      t.state.time.moveEdge edge (clampTime p ((bounds p).fromNs + entered * 1000000)) := by
  rw [Timeline.handle, calculate_time]
  rfl

theorem handle_window_iff {t : Timeline} (h : t.Proper p) (e : TimelineEvent) :
    (t.handle p e).state.time.Proper p ↔ t.Room p e := by
  cases e with
  | press kind pointerId x => exact iff_of_true h.window trivial
  | move pointerId x =>
      simp only [Timeline.Room]
      cases hd : t.drag with
      | none =>
          simp only [Timeline.handle, hd]
          exact iff_of_true h.window (by rintro d ⟨⟩)
      | some d =>
          by_cases hid : d.pointerId = pointerId
          · simp only [Timeline.handle, hd, hid, ne_eq, not_true, if_false, Option.some.injEq, forall_eq',
              forall_true_left]
            exact dragTo_proper_iff h.window (h.dragged d hd) (h.start d hd)
          · simp only [Timeline.handle, hd, hid, ne_eq, not_false_eq_true, if_true, Option.some.injEq, forall_eq',
              false_implies, iff_true]
            exact h.window
  | release pointerId =>
      refine iff_of_true ?_ trivial
      simp only [Timeline.handle]
      split
      · exact h.window
      · split
        · exact h.window
        · rw [calculate_time]
          exact h.window
  | commitTime edge entered =>
      cases entered with
      | none =>
          refine iff_of_true ?_ trivial
          rw [Timeline.handle, calculate_time]
          exact h.window
      | some entered =>
          rw [handle_time_commit]
          exact moveEdge_proper_iff h.window (clampTime_inCapture p _) edge

/-- The drag of an earlier press goes on, or a press takes the window of this moment. -/
theorem drag_of_handle {t : Timeline} {e : TimelineEvent} {d : TimelineDrag} (h : (t.handle p e).drag = some d) :
    t.drag = some d ∨ d.window = t.state.time ∧ InCapture p d.startValue := by
  cases e with
  | press kind pointerId x =>
      cases h
      exact .inr ⟨rfl, timelineValue_inCapture p x⟩
  | move pointerId x =>
      simp only [Timeline.handle] at h
      split at h
      · exact .inl h
      · split at h
        · exact .inl h
        · exact .inl h
  | release pointerId =>
      simp only [Timeline.handle] at h
      split at h
      · exact .inl h
      · split at h
        · exact .inl h
        · cases h
  | commitTime edge entered => exact .inl h

theorem Timeline.Proper.handle {t : Timeline} (h : t.Proper p) {e : TimelineEvent} (hr : t.Room p e) :
    (t.handle p e).Proper p := by
  refine ⟨(handle_window_iff h e).mpr hr, fun d hd => ?_, fun d hd => ?_⟩
  · rcases drag_of_handle hd with hd | ⟨hw, -⟩
    · exact h.dragged d hd
    · exact hw ▸ h.window
  · rcases drag_of_handle hd with hd | ⟨-, hs⟩
    · exact h.start d hd
    · exact hs

/-! ## Drags -/

def TimeWindow.width (t : TimeWindow) : ℚ := t.toNs - t.fromNs

/-- The moves of a drag, by any pointers. -/
def moves (l : List (Nat × ℚ)) : List TimelineEvent := l.map fun m => .move m.1 m.2

theorem timeMove_width (t w : TimeWindow) (startValue value : ℚ) :
    (t.dragTo p .timeMove w startValue value).width = w.width := by
  simp only [TimeWindow.width, TimeWindow.dragTo]
  ring

/-- While the whole window is dragged its width is the one at the press. -/
def Timeline.KeepsWidth (width : ℚ) (t : Timeline) : Prop :=
  t.state.time.width = width ∧ ∃ d, t.drag = some d ∧ d.kind = .timeMove ∧ d.window.width = width

theorem Timeline.KeepsWidth.move {width : ℚ} {t : Timeline} (h : t.KeepsWidth width) (pointerId : Nat) (x : ℚ) :
    (t.handle p (.move pointerId x)).KeepsWidth width := by
  obtain ⟨ht, d, hd, hk, hw⟩ := h
  simp only [Timeline.handle, hd]
  split
  · exact ⟨ht, d, hd, hk, hw⟩
  · refine ⟨?_, d, rfl, hk, hw⟩
    dsimp only
    rw [hk, timeMove_width, hw]

theorem timeMove_keepsWidth (t : Timeline) (pointerId : Nat) (x : ℚ) (l : List (Nat × ℚ)) :
    ((moves l).foldl (Timeline.handle p) (t.handle p (.press .timeMove pointerId x))).KeepsWidth
      t.state.time.width := by
  induction l using List.reverseRecOn with
  | nil => exact ⟨rfl, _, rfl, rfl, rfl⟩
  | append_singleton l m ih =>
      rw [moves, List.map_append, List.map_singleton, List.foldl_concat]
      exact ih.move m.1 m.2

end SliceProfiler.Viewer
