import SliceProfiler.Viewer.Layout
import SliceProfiler.Viewer.Timeline

/-!
# The whole page

The state of the script with what the last drawings left behind: the handlers of the histogram and the rectangles of
the flame graph. The events come one by one, and a pointer that is down belongs to the chart that it went down on.
-/

namespace SliceProfiler.Viewer

open Lib

/-- What a press in the histogram stores until the pointer goes up. -/
structure HistogramDrag where
  kind : LatencyDrag
  pointerId : Nat
  startDuration : ℚ
  window : Window
deriving DecidableEq

inductive Drag where
  | time (d : TimelineDrag)
  | latency (d : HistogramDrag)
deriving DecidableEq

def Drag.pointerId : Drag → Nat
  | .time d => d.pointerId
  | .latency d => d.pointerId

/-- What the pointer handlers of the histogram know of the drawing that installed them. They stay when a later drawing
has no invocations; the handles of the window do not. -/
structure HistogramView where
  durations : List Nat
  range : Window
  handles : Bool

/-- `root` and `items` are those of the last flame graph. -/
structure Page where
  state : State
  drag : Option Drag := none
  histogram : Option HistogramView := none
  root : Node := .new "root"
  zoomPath : List String := []
  items : List Item := []
  timelineScale : ℚ := 1
  clientWidth : Nat

inductive PageEvent where
  /-- A change of a control. A whole drag on the timeline is one, too. -/
  | act (a : Action)
  /-- The number of a percentile field, when it is finite. -/
  | commitPercentile (edge : Edge) (entered : Option ℚ)
  | pressTimeline (kind : TimeDrag) (pointerId : Nat) (x : ℚ)
  | pressHistogram (kind : LatencyDrag) (pointerId : Nat) (x : ℚ)
  /-- A position in the chart of the drag. -/
  | move (pointerId : Nat) (x : ℚ)
  | release (pointerId : Nat)
  | clickFrame (k : Nat)
  /-- The buttons above the flame graph lead to the ends of the zoom path. -/
  | clickPath (k : Nat)
  /-- `factor`: the power of `e` for the turn of the wheel. -/
  | wheel (x factor : ℚ)
  | resize (clientWidth : Nat)

def TimelineEvent.onPage : TimelineEvent → PageEvent
  | .press kind pointerId x => .pressTimeline kind pointerId x
  | .move pointerId x => .move pointerId x
  | .release pointerId => .release pointerId
  | .commitTime edge entered => .act (.commitTime edge entered)

/-! ## Percentile fields -/

/-- `Math.round` -/
def round (value : ℚ) : ℚ := ⌊value + 1 / 2⌋

/-- `drag && drag.edge==='low'` -/
def Drag.isLow : Option Drag → Bool
  | some (.latency d) => d.kind == .latencyLow
  | _ => false

def clampPercentileWindow (drag : Option Drag) (low high : ℚ) : Window :=
  let low := max 0 (min 99 (round low))
  let high := max 1 (min 100 (round high))
  if low ≥ high then
    if Drag.isLow drag then ⟨high - 1, high⟩ else ⟨low, low + 1⟩
  else ⟨low, high⟩

/-- The change of `commitPercentile` in front of the rendering. -/
def State.commitPercentile (p : Profile) (drag : Option Drag) (s : State) (edge : Edge) : Option ℚ → State
  | none => s
  | some entered =>
      let durations := s.durations p
      if durations.length = 0 then s
      else
        let next := match edge with
          | .low => clampPercentileWindow drag entered s.percentile.high
          | .high => clampPercentileWindow drag s.percentile.low entered
        { s with
          percentile := next
          latency := some ⟨durationAtPercentile durations next.low, durationAtPercentile durations next.high⟩ }

/-! ## Rendering -/

variable (localeCompare : String → String → Ordering)

namespace Page

def paintHistogram (pg : Page) (durations : List Nat) : Page :=
  let histogram :=
    if durations.length = 0 then pg.histogram.map fun view => { view with handles := false }
    else some ⟨durations, pg.state.histogramRange durations, true⟩
  { pg with histogram }

def renderFlame (pg : Page) (root : Node) : Page :=
  let layout := Viewer.renderFlame localeCompare pg.clientWidth ⟨[], root⟩ pg.zoomPath
  { pg with root, zoomPath := layout.zoomPath, items := layout.items }

/-- The tree of `calculate`, and the page with the state that it leaves. -/
def calculate (p : Profile) (pg : Page) : Node × Page :=
  ((pg.state.flame p).root, { pg with state := (pg.state.calculate p).2 })

def render (p : Profile) (pg : Page) : Page :=
  let (root, pg) := pg.calculate p
  (pg.paintHistogram (pg.state.durations p)).renderFlame localeCompare root

/-- `renderFlame(calculate().root)` -/
def redraw (p : Profile) (pg : Page) : Page :=
  let (root, pg) := pg.calculate p
  pg.renderFlame localeCompare root

def initial (p : Profile) (q : Query) (clientWidth : Nat) : Page :=
  render localeCompare p { state := initialState p q, clientWidth }

/-! ## Events -/

def pressHistogram (pg : Page) (kind : LatencyDrag) (pointerId : Nat) (x : ℚ) : Page :=
  match pg.histogram with
  | none => pg
  | some view =>
      if !view.handles && (kind == .latencyLow || kind == .latencyHigh) then pg
      else
        let window := pg.state.latency.getD ⟨0, 0⟩
        { pg with drag := some (.latency ⟨kind, pointerId, view.range.valueAt x, window⟩) }

def moveTime (p : Profile) (pg : Page) (d : TimelineDrag) (x : ℚ) : Page :=
  let time := pg.state.time.dragTo p d.kind d.window d.startValue (timelineValue p x)
  { pg with state := { pg.state with time } }

def moveLatency (pg : Page) (d : HistogramDrag) (x : ℚ) : Page :=
  match pg.histogram with
  | none => pg
  | some view =>
      let w := view.range.dragTo d.kind (pg.state.latency.getD ⟨0, 0⟩) d.window d.startDuration (view.range.valueAt x)
      { pg with state := ({ pg.state with latency := some w }.syncLatencyWindow view.durations).2 }

def wheel (p : Profile) (pg : Page) (x factor : ℚ) : Page :=
  let value := timelineValue p x
  let nextScale := max 1 (min 8 (pg.timelineScale * factor))
  if value < pg.state.time.fromNs ∨ value > pg.state.time.toNs ∨ nextScale = pg.timelineScale then pg
  else render localeCompare p { pg with timelineScale := nextScale }

def handle (p : Profile) (pg : Page) : PageEvent → Page
  | .act (.setSearch text) => redraw localeCompare p { pg with state := pg.state.act p (.setSearch text) }
  | .act a => render localeCompare p { pg with state := pg.state.act p a }
  | .commitPercentile edge entered =>
      render localeCompare p { pg with state := pg.state.commitPercentile p pg.drag edge entered }
  | .pressTimeline kind pointerId x =>
      { pg with drag := some (.time ⟨kind, pointerId, timelineValue p x, pg.state.time⟩) }
  | .pressHistogram kind pointerId x => pg.pressHistogram kind pointerId x
  | .move pointerId x =>
      match pg.drag with
      | none => pg
      | some d =>
          if d.pointerId ≠ pointerId then pg
          else
            match d with
            | .time d => pg.moveTime p d x
            | .latency d => pg.moveLatency d x
  | .release pointerId =>
      match pg.drag with
      | none => pg
      | some d => if d.pointerId ≠ pointerId then pg else render localeCompare p { pg with drag := none }
  | .clickFrame k =>
      match pg.items[k]? with
      | none => pg
      | some item => render localeCompare p { pg with zoomPath := item.path }
  | .clickPath k => render localeCompare p { pg with zoomPath := pg.zoomPath.take k }
  | .wheel x factor => wheel localeCompare p pg x factor
  | .resize clientWidth => render localeCompare p { pg with clientWidth }

/-- The page after the events. -/
def after (p : Profile) (q : Query) (clientWidth : Nat) (events : List PageEvent) : Page :=
  events.foldl (handle localeCompare p) (initial localeCompare p q clientWidth)

/-- What the handlers of the timeline see of the page. -/
def timeline (pg : Page) : Timeline where
  state := pg.state
  drag :=
    match pg.drag with
    | some (.time d) => some d
    | _ => none

/-- The events that end with a rendering of the whole page. -/
def Renders (pg : Page) : PageEvent → Prop
  | .act (.setSearch _) => False
  | .act _ | .commitPercentile _ _ | .clickPath _ | .resize _ => True
  | .clickFrame k => k < pg.items.length
  | .release pointerId => ∃ d, pg.drag = some d ∧ d.pointerId = pointerId
  | _ => False

end Page

/-! ## What holds of a page -/

/-- Percentiles of a window that is not empty. -/
structure Window.Percentiles (w : Window) : Prop where
  low : 0 ≤ w.low
  ordered : w.low < w.high
  high : w.high ≤ 100

/-- A time window that leaves the capture by one nanosecond at most. -/
structure TimeWindow.Near (p : Profile) (t : TimeWindow) : Prop where
  low : (bounds p).fromNs - 1 ≤ t.fromNs
  fromNs : t.fromNs ≤ (bounds p).toNs
  ordered : t.fromNs ≤ t.toNs
  toNs : (bounds p).fromNs ≤ t.toNs
  high : t.toNs ≤ (bounds p).toNs + 1
  width : t.toNs - t.fromNs ≤ (bounds p).toNs - (bounds p).fromNs + 1

/-- What a rendering needs. -/
structure Page.Sound (p : Profile) (pg : Page) : Prop where
  percentile : pg.state.percentile.Percentiles
  time : pg.state.time.Near p
  drag : ∀ d, pg.drag = some (.time d) → d.window.Near p ∧
    (bounds p).fromNs ≤ d.startValue ∧ d.startValue ≤ (bounds p).toNs
  histogram : ∀ view, pg.histogram = some view → view.durations ≠ [] ∧ view.durations.Pairwise (· ≤ ·)
  timelineScale : 1 ≤ pg.timelineScale ∧ pg.timelineScale ≤ 8

/-- What holds in the middle of a drag, too. -/
structure Page.Consistent (p : Profile) (pg : Page) : Prop extends pg.Sound p where
  latency : ∃ w, pg.state.latency = some w ∧ 0 ≤ w.low ∧ w.low ≤ w.high
  zoom : (nodeAtPath ⟨[], pg.root⟩ pg.zoomPath).isSome

/-- The latency window of the population is inside its durations. -/
def State.InDurations (p : Profile) (s : State) : Prop :=
  let durations := s.durations p
  ∃ w, s.latency = some w ∧
    if durations.length = 0 then w = ⟨0, 0⟩
    else (durations.getD 0 0 : ℚ) ≤ w.low ∧ w.low ≤ w.high ∧ w.high ≤ durations.getD (durations.length - 1) 0

/-- Behind a rendering. -/
structure Page.Settled (p : Profile) (pg : Page) : Prop where
  latency : pg.state.InDurations p
  ranks : (rankBounds (pg.state.durations p).length pg.state.percentile).1 ≤
    (rankBounds (pg.state.durations p).length pg.state.percentile).2
  stable : pg.render localeCompare p = pg
  zooms : ∀ k item, pg.items[k]? = some item → (nodeAtPath ⟨[], pg.root⟩ item.path).isSome →
    (pg.handle localeCompare p (.clickFrame k)).zoomPath = item.path ∧
      (pg.handle localeCompare p (.clickFrame k)).root = pg.root

end SliceProfiler.Viewer
