import SliceProfiler.Viewer.State

/-!
# Interactions with the timeline

The pointer events on the timeline and the edits of its two fields, one by one.
-/

namespace SliceProfiler.Viewer

open Lib

/-- What a press stores until the pointer goes up: `window` is the time window at the press. -/
structure TimelineDrag where
  kind : TimeDrag
  pointerId : Nat
  startValue : ℚ
  window : TimeWindow
deriving DecidableEq

structure Timeline where
  state : State
  drag : Option TimelineDrag

/-- Positions are parts of the width of the chart. -/
inductive TimelineEvent where
  | press (kind : TimeDrag) (pointerId : Nat) (x : ℚ)
  | move (pointerId : Nat) (x : ℚ)
  | release (pointerId : Nat)
  /-- The number of a time field, when it is finite. -/
  | commitTime (edge : Edge) (entered : Option ℚ)
deriving DecidableEq

/-- The page after its first rendering. -/
def Timeline.initial (p : Profile) (q : Query) : Timeline := ⟨((initialState p q).calculate p).2, none⟩

def Timeline.handle (p : Profile) (t : Timeline) : TimelineEvent → Timeline
  | .press kind pointerId x => { t with drag := some ⟨kind, pointerId, timelineValue p x, t.state.time⟩ }
  | .move pointerId x =>
      match t.drag with
      | none => t
      | some d =>
          if d.pointerId ≠ pointerId then t
          else
            let time := t.state.time.dragTo p d.kind d.window d.startValue (timelineValue p x)
            { t with state := { t.state with time } }
  | .release pointerId =>
      match t.drag with
      | none => t
      | some d => if d.pointerId ≠ pointerId then t else ⟨(t.state.calculate p).2, none⟩
  | .commitTime edge entered => { t with state := ((t.state.act p (.commitTime edge entered)).calculate p).2 }

/-! ## Proper windows -/

/-- The window is not empty and inside the capture. -/
structure TimeWindow.Proper (p : Profile) (t : TimeWindow) : Prop where
  low : (bounds p).fromNs ≤ t.fromNs
  ordered : t.fromNs < t.toNs
  high : t.toNs ≤ (bounds p).toNs

/-- There is one nanosecond between the end of the capture at an edge and the other edge of the window. -/
def TimeWindow.Room (p : Profile) (t : TimeWindow) : Edge → Prop
  | .low => (bounds p).fromNs + 1 ≤ t.toNs
  | .high => t.fromNs + 1 ≤ (bounds p).toNs

/-- A selection does not stay at the right end of the chart. -/
def TimelineDrag.Room (p : Profile) (d : TimelineDrag) (t : TimeWindow) (x : ℚ) : Prop :=
  match d.kind with
  | .timeFrom => t.Room p .low
  | .timeTo => t.Room p .high
  | .timeMove => True
  | .timeSelect => d.startValue < (bounds p).toNs ∨ x < 1

/-- An edge is moved only while it has room, and a selection leaves the right end. -/
def Timeline.Room (p : Profile) (t : Timeline) : TimelineEvent → Prop
  | .move pointerId x => ∀ d, t.drag = some d → d.pointerId = pointerId → d.Room p t.state.time x
  | .commitTime edge (some _) => t.state.time.Room p edge
  | _ => True

end SliceProfiler.Viewer
