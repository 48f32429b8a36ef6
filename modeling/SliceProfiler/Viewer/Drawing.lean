import SliceProfiler.Lib.Ticks
import SliceProfiler.Viewer.Histogram

/-!
# What the charts draw

The bars, the window and the axis of the histogram, and the lanes of the timeline. Positions and lengths are in units of
the view box.
-/

namespace SliceProfiler.Viewer

open Lib

/-! ## The histogram -/

structure Bar where
  x : ℚ
  y : ℚ
  width : ℚ
  height : ℚ
  selected : Bool
deriving DecidableEq

/-- A tick with its value and the anchor of its label. -/
structure AxisTick where
  x : ℚ
  value : ℚ
  anchor : String
deriving DecidableEq

structure HistogramDrawing where
  width : ℚ
  bars : List Bar
  lowX : ℚ
  highX : ℚ
  windowWidth : ℚ
  ticks : List AxisTick
deriving DecidableEq

def histogramWidth (clientWidth : Nat) : ℚ := max 480 (if clientWidth = 0 then 720 else clientWidth)

def peak (h : Histogram) : ℚ := max 1 (h.counts.max?.getD 0 : Nat)

def histogramBar (h : Histogram) (width : ℚ) (index value : Nat) (selected : Bool) : Bar :=
  let height := if value = 0 then 2 else value / peak h * 76
  { x := index * width / h.bins + 1
    y := if value = 0 then 96 else 98 - height
    width := width / h.bins - 2
    height
    selected }

/-- The bars behind the first `update`, which marks the buckets of the invocations between the ranks. -/
def histogramBars (h : Histogram) (width : ℚ) (range : Nat × Nat) : List Bar :=
  let selected := markInto h.bins ((h.bucketByIndex.drop range.1).take (range.2 - range.1))
  (h.counts.zip selected).mapIdx fun index (value, selected) => histogramBar h width index value selected

def xFor (h : Histogram) (width value : ℚ) : ℚ := max 0 (min width ((value - h.min) / h.span * width))

/-- The loop of the ticks needs 13 rounds at most. -/
def histogramAxis (h : Histogram) (width : ℚ) : List AxisTick :=
  let ticks := ticks 13 h.min h.max h.span
  ticks.mapIdx fun index value =>
    { x := xFor h width value
      value
      anchor := if index = 0 then "start" else if index = ticks.length - 1 then "end" else "middle" }

/-- The drawing of `size` invocations; the state is the one behind `calculate`. -/
def drawHistogram (s : State) (h : Histogram) (size clientWidth : Nat) : HistogramDrawing :=
  let width := histogramWidth clientWidth
  let window := s.latency.getD ⟨0, 0⟩
  let lowX := xFor h width window.low
  let highX := xFor h width window.high
  { width
    bars := histogramBars h width (rankBounds size s.percentile)
    lowX
    highX
    windowWidth := max 2 (highX - lowX)
    ticks := histogramAxis h width }

/-- The bars are side by side on one base line, and as high as their shares of the highest one. -/
structure HistogramDrawing.Bars (d : HistogramDrawing) (h : Histogram) : Prop where
  count : d.bars.length = h.bins
  first : ∀ a, d.bars[0]? = some a → a.x = 1
  next : ∀ (k : Nat) a b, d.bars[k]? = some a → d.bars[k + 1]? = some b → a.x + a.width + 2 = b.x
  last : ∀ a, d.bars[h.bins - 1]? = some a → a.x + a.width + 1 = d.width
  visible : ∀ a ∈ d.bars, 0 < a.width ↔ 2 * h.bins < d.width
  base : ∀ a ∈ d.bars, 20 < a.y ∧ a.y + a.height = 98
  heights : ∀ (k : Nat) a c, d.bars[k]? = some a → h.counts[k]? = some c → 0 < c → a.height * peak h = c * 76
  highest : ∃ a ∈ d.bars, a.height = 76

/-- A bar is marked when a chosen invocation is in its bucket; between two marked bars the empty ones alone are not. -/
structure HistogramDrawing.Marks (d : HistogramDrawing) (h : Histogram) (chosen : List Invocation) : Prop where
  selected : ∀ (k : Nat) a, d.bars[k]? = some a →
    (a.selected = true ↔ ∃ i ∈ chosen, bucketOf h.min h.span h.bins i.durationNs = k)
  between : ∀ (j k l : Nat) a b c, j < k → k < l → d.bars[j]? = some a → d.bars[k]? = some b → d.bars[l]? = some c →
    a.selected = true → c.selected = true → h.counts[k]? ≠ some 0 → b.selected = true

/-- The axis has the ends of the range and the round values between them. -/
structure HistogramDrawing.Axis (d : HistogramDrawing) (h : Histogram) : Prop where
  values : ∀ v, v ∈ d.ticks.map (·.value) ↔
    v = h.min ∨ v = h.max ∨ (∃ k : ℤ, v = k * niceStep h.span) ∧ h.min < v ∧ v < h.max
  step : ∃ (m : ℚ) (k : ℤ), (m = 1 ∨ m = 2 ∨ m = 5) ∧ niceStep h.span = m * 10 ^ k
  rounds : ∀ fuel ≥ 13, Lib.ticks fuel h.min h.max h.span = d.ticks.map (·.value)
  most : d.ticks.length ≤ 15
  least : h.min + 1 ≤ h.max → 6 ≤ d.ticks.length
  strict : h.min < h.max → (d.ticks.map (·.x)).Pairwise (· < ·)
  inside : ∀ t ∈ d.ticks, 0 ≤ t.x ∧ t.x ≤ d.width

/-- A press at a position of the chart reads the value that is drawn there, and so it is with the edges of the window.
-/
structure HistogramDrawing.Reads (d : HistogramDrawing) (h : Histogram) (window : Window) : Prop where
  value : ∀ x, 0 ≤ x → x ≤ 1 → xFor h d.width ((⟨h.min, h.max⟩ : Window).valueAt x) = x * d.width
  position : ∀ v, h.min ≤ v → v ≤ h.min + h.span → (⟨h.min, h.max⟩ : Window).valueAt (xFor h d.width v / d.width) = v
  low : (⟨h.min, h.max⟩ : Window).valueAt (d.lowX / d.width) = window.low
  high : (⟨h.min, h.max⟩ : Window).valueAt (d.highX / d.width) = window.high
  window : d.windowWidth = max 2 ((window.high - window.low) / h.span * d.width)

/-! ## The timeline -/

/-- `bounds.to-bounds.from` -/
def captureNs (p : Profile) : ℚ := ((bounds p).toNs : ℚ) - (bounds p).fromNs

def position (p : Profile) (value : ℚ) : ℚ := (value - (bounds p).fromNs) / max 1 (captureNs p)

/-- One of 80 parts of the capture. -/
def densityBucket (p : Profile) (timestampNs : Nat) : ℤ := max 0 (min 79 ⌊position p timestampNs * 80⌋)

def samplesByThread (p : Profile) : List (Nat × List Nat) :=
  p.samples.foldl (fun m s => upsertLast s.tid
    (fun density => addAt (density.getD (List.replicate 80 0)) (densityBucket p s.timestampNs, s.weightNs)) m) []

def invocationsByThread (p : Profile) (tid : Nat) : List Invocation :=
  p.invocations.filter fun i => i.complete && i.valid && i.tid = tid

def maxDensity (p : Profile) : ℚ := max 1 (((samplesByThread p).flatMap (·.2)).max?.getD 0 : Nat)

/-- The bar of an invocation in the lane of its thread. -/
structure TimelineBar where
  invocation : Invocation
  row : Nat
  x : ℚ
  y : ℚ
  width : ℚ
  height : ℚ
  selected : Bool
deriving DecidableEq

/-- The weight of samples in a part of the capture. -/
structure TimelineMark where
  row : Nat
  bucket : Nat
  x : ℚ
  y : ℚ
  width : ℚ
  height : ℚ
deriving DecidableEq

structure TimelineDrawing where
  width : ℚ
  height : ℚ
  selectionX : ℚ
  selectionWidth : ℚ
  fromX : ℚ
  toX : ℚ
  marks : List TimelineMark
  bars : List TimelineBar
  /-- Positions and values of the labels under the lanes. -/
  axis : List (ℚ × ℚ)
deriving DecidableEq

def timelineWidth (clientWidth : Nat) (timelineScale : ℚ) : ℚ :=
  max 240 ((if clientWidth = 0 then 800 else clientWidth : ℚ) * timelineScale)

/-- The upper edge of a lane, which is 25 high. -/
def laneY (row : Nat) : ℚ := 24 + row * 27

def timelineMark (p : Profile) (width : ℚ) (row bucket value : Nat) : TimelineMark where
  row := row
  bucket := bucket
  x := bucket / 80 * width
  y := laneY row + 27 - 7
  width := max 1 (width / 80)
  height := 4 + value / maxDensity p * 8

def timelineMarks (p : Profile) (width : ℚ) (tid row : Nat) : List TimelineMark :=
  (((lookupKey tid (samplesByThread p)).getD []).zipIdx.filter fun (value, _) => value ≠ 0).map fun (value, bucket) =>
    timelineMark p width row bucket value

def timelineBars (p : Profile) (selectedIds : List Nat) (width : ℚ) (tid row : Nat) : List TimelineBar :=
  (invocationsByThread p tid).map fun i =>
    let w := max 2 (((i.endNs : ℚ) - i.startNs) / max 1 (captureNs p) * width)
    { invocation := i
      row
      x := position p i.startNs * width
      y := laneY row + 4
      width := min w width
      height := 27 - 12
      selected := i.id ∈ selectedIds }

/-- `chosen`: the result of `calculate`, whose state is `s`. -/
def drawTimeline (p : Profile) (s : State) (chosen : List Invocation) (clientWidth : Nat) (timelineScale : ℚ) :
    TimelineDrawing :=
  let width := timelineWidth clientWidth timelineScale
  let rows := (allThreadIds p).zipIdx
  { width
    height := max 96 (24 + rows.length * 27 + 10)
    selectionX := position p s.time.fromNs * width
    selectionWidth := max 1 ((position p s.time.toNs - position p s.time.fromNs) * width)
    fromX := position p s.time.fromNs * width
    toX := position p s.time.toNs * width
    marks := rows.flatMap fun (tid, row) => timelineMarks p width tid row
    bars := rows.flatMap fun (tid, row) => timelineBars p (chosen.map (·.id)) width tid row
    axis := [0, 1 / 4, 1 / 2, 3 / 4, 1].map fun ratio => (ratio * width, captureNs p * ratio) }

/-- Each complete and valid invocation has one bar, in the lane of its thread, from its start to its end. A bar that
would be narrower than 2 is 2 wide. -/
structure TimelineDrawing.Bars (d : TimelineDrawing) (p : Profile) : Prop where
  each : (d.bars.map (·.invocation)).Perm (p.invocations.filter fun i => i.complete && i.valid)
  row : ∀ b ∈ d.bars, (allThreadIds p)[b.row]? = some b.invocation.tid
  lane : ∀ b ∈ d.bars, laneY b.row ≤ b.y ∧ b.y + b.height ≤ laneY b.row + 25 ∧ laneY b.row + 25 ≤ d.height
  start : ∀ b ∈ d.bars, 0 ≤ b.x ∧ b.x ≤ d.width ∧ timelineValue p (b.x / d.width) = b.invocation.startNs
  narrow : ∀ b ∈ d.bars, 2 ≤ b.width ∧ b.width ≤ d.width
  stop : ∀ b ∈ d.bars, 2 < b.width →
    b.x + b.width ≤ d.width ∧ timelineValue p ((b.x + b.width) / d.width) = b.invocation.endNs

/-- The marked bars are those of the chosen invocations, and the handles read the time window. -/
structure TimelineDrawing.Selects (d : TimelineDrawing) (p : Profile) (s : State) (chosen : List Invocation) :
    Prop where
  bars : ((d.bars.filter (·.selected)).map (·.invocation)).Perm chosen
  low : timelineValue p (d.fromX / d.width) = clampTime p s.time.fromNs
  high : timelineValue p (d.toX / d.width) = clampTime p s.time.toNs
  axis : ∀ x ∈ d.axis, (bounds p).fromNs + x.2 = timelineValue p (x.1 / d.width)

/-- The weight of the samples of a thread in a part of the capture. -/
def weightIn (p : Profile) (tid bucket : Nat) : Nat :=
  ((p.samples.filter fun s => s.tid = tid && decide (densityBucket p s.timestampNs = bucket)).map (·.weightNs)).sum

/-- The marks of a lane show where its thread has weight; the parts of the capture take the whole weight, and each
sample is in the part of its time. -/
structure TimelineDrawing.Weighs (d : TimelineDrawing) (p : Profile) : Prop where
  marks : ∀ row tid, (allThreadIds p)[row]? = some tid → ∀ bucket < 80,
    ((∃ m ∈ d.marks, m.row = row ∧ m.bucket = bucket) ↔ weightIn p tid bucket ≠ 0)
  height : ∀ m ∈ d.marks, ∃ tid, (allThreadIds p)[m.row]? = some tid ∧
    m.height = 4 + weightIn p tid m.bucket / maxDensity p * 8 ∧ 4 < m.height ∧ m.height ≤ 12
  whole : ∀ tid, ((List.range 80).map (weightIn p tid)).sum = ((p.samples.filter (·.tid = tid)).map (·.weightNs)).sum
  within : ∀ s ∈ p.samples, (densityBucket p s.timestampNs : ℚ) ≤ position p s.timestampNs * 80 ∧
    (s.timestampNs < (bounds p).toNs → position p s.timestampNs * 80 < densityBucket p s.timestampNs + 1)

end SliceProfiler.Viewer
