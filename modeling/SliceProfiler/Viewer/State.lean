import Mathlib.Data.List.Dedup
import SliceProfiler.Core.Query
import SliceProfiler.Core.Validate

/-!
# The offline viewer

The state of the page, the population that `calculate` chooses, and the actions on the page. The numbers of the
script are exact rationals here.
-/

namespace SliceProfiler.Viewer

open Lib

/-- A pair `{low, high}` of percentiles or of durations. -/
structure Window where
  low : ℚ
  high : ℚ
deriving DecidableEq

/-- A pair `{from_ns, to_ns}`. -/
structure TimeWindow where
  fromNs : ℚ
  toNs : ℚ
deriving DecidableEq

structure State where
  functionId : Nat
  threads : Finset Nat
  time : TimeWindow
  percentile : Window
  latency : Option Window
  histogramBucketSizeNs : Option ℚ
  metric : Metric
  search : String

/-! ## The bounds of the capture -/

def times (p : Profile) : List Nat :=
  (p.invocations.flatMap fun i => [i.startNs, i.endNs]) ++ p.samples.map (·.timestampNs)

def bounds (p : Profile) : TimeRange :=
  let captureFrom := (times p).min?.getD 0
  let captureTo := (times p).max?.getD 1
  ⟨captureFrom, max (captureFrom + 1) captureTo⟩

def allThreadIds (p : Profile) : List Nat :=
  if p.threads.isEmpty then (p.invocations.map (·.tid)).dedup else p.threads.map (·.tid)

def clampTime (p : Profile) (value : ℚ) : ℚ := max (bounds p).fromNs (min (bounds p).toNs value)

/-! ## Percentiles and durations -/

/-- `[start, end]`; the percentiles of a page are between 0 and 100. -/
def rankBounds (size : Nat) (range : Window) : Nat × Nat :=
  (min size ⌈size * range.low / 100⌉₊, min size ⌈size * range.high / 100⌉₊)

inductive Side where
  | low
  | high
deriving DecidableEq

/-- `let index=1; while(index<durations.length&&continues(durations[index])) index++;` -/
def indexFrom (continues : Nat → Bool) (durations : List Nat) : Nat :=
  1 + ((durations.drop 1).takeWhile continues).length

/-- The rank of a duration between the durations at `index - 1` and at `index`, as a percentile. -/
def interpolated (durations : List Nat) (value : ℚ) (index : Nat) : ℚ :=
  let low : ℚ := durations.getD (index - 1) 0
  let high : ℚ := durations.getD index 0
  (index - 1 + (value - low) / max 1 (high - low)) / (durations.length - 1) * 100

def percentileAtDuration (durations : List Nat) (value : ℚ) (side : Side) : ℚ :=
  if durations.length < 2 then 0
  else if value ≤ durations.getD 0 0 then 0
  else if value ≥ durations.getD (durations.length - 1) 0 then 100
  else
    match side with
    | .low =>
        let index := indexFrom (fun d => (d : ℚ) < value) durations
        if (durations.getD index 0 : ℚ) = value then index / (durations.length - 1) * 100
        else interpolated durations value index
    | .high =>
        let index := indexFrom (fun d => (d : ℚ) ≤ value) durations
        if (durations.getD (index - 1) 0 : ℚ) = value then index / (durations.length - 1) * 100
        else interpolated durations value index

/-- Between 0 and 100 both ranks are those of durations. -/
def durationAtPercentile (durations : List Nat) (percentile : ℚ) : ℚ :=
  if durations.length = 0 then 0
  else if durations.length = 1 then durations.getD 0 0
  else
    let rank := percentile / 100 * (durations.length - 1)
    let low := ⌊rank⌋₊
    let high := ⌈rank⌉₊
    (durations.getD low 0 : ℚ) + ((durations.getD high 0 : ℚ) - durations.getD low 0) * (rank - low)

/-! ## The page -/

/-- The state that the page builds from the embedded query. -/
def initialState (p : Profile) (q : Query) : State :=
  let initialTime := q.time.getD (bounds p)
  let time : TimeWindow := ⟨clampTime p initialTime.fromNs, clampTime p initialTime.toNs⟩
  { functionId := q.functionId
    threads := q.threads.getD (allThreadIds p).toFinset
    time := if time.fromNs ≥ time.toNs then ⟨(bounds p).fromNs, (bounds p).toNs⟩ else time
    percentile := ⟨q.percentile.low, q.percentile.high⟩
    latency := none
    histogramBucketSizeNs := none
    metric := q.metric
    search := "" }

def State.includes (s : State) (i : Invocation) : Bool :=
  i.functionId == s.functionId && i.complete && i.valid && decide (i.tid ∈ s.threads) &&
    decide ((i.startNs : ℚ) ≥ s.time.fromNs) && decide ((i.startNs : ℚ) < s.time.toNs)

/-- The script subtracts the times of an invocation; in a valid profile its end is not before its start. -/
def State.eligible (s : State) (p : Profile) : List Invocation :=
  sortByKey (fun i => toLex (i.durationNs, i.id)) (p.invocations.filter s.includes)

def State.durations (s : State) (p : Profile) : List Nat := (s.eligible p).map (·.durationNs)

/-- Returns `{low, high}` and the new state. -/
def State.syncLatencyWindow (s : State) (durations : List Nat) : Window × State :=
  if durations.length = 0 then (⟨0, 0⟩, { s with latency := some ⟨0, 0⟩ })
  else
    let latency := s.latency.getD
      ⟨durationAtPercentile durations s.percentile.low, durationAtPercentile durations s.percentile.high⟩
    let first : ℚ := durations.getD 0 0
    let last : ℚ := durations.getD (durations.length - 1) 0
    let low := max first (min last latency.low)
    let high := max low (min last latency.high)
    let percentile := if low < high then
      ⟨percentileAtDuration durations low .low, percentileAtDuration durations high .high⟩ else s.percentile
    (⟨low, high⟩, { s with latency := some ⟨low, high⟩, percentile })

structure Population where
  all : List Invocation
  chosen : List Invocation
  low : ℚ
  high : ℚ
  rankStart : Nat
  rankEnd : Nat
  durations : List Nat

def State.calculate (s : State) (p : Profile) : Population × State :=
  let all := s.eligible p
  let durations := all.map (·.durationNs)
  let (window, s) := s.syncLatencyWindow durations
  let (start, stop) := rankBounds all.length s.percentile
  (⟨all, (all.drop start).take (stop - start), window.low, window.high, start, stop, durations⟩, s)

/-! ## Drags in the histogram -/

/-- The first and the last value of the histogram. With a bucket size they are multiples of it. -/
def State.histogramRange (s : State) (durations : List Nat) : Window :=
  let rawMin : ℚ := (durations.min?.getD 0 : Nat)
  let rawMax : ℚ := (durations.max?.getD 0 : Nat)
  match s.histogramBucketSizeNs with
  | none => ⟨rawMin, rawMax⟩
  | some bucketSize =>
      if bucketSize = 0 then ⟨rawMin, rawMax⟩
      else
        let min := ⌊rawMin / bucketSize⌋ * bucketSize
        ⟨min, min + max 1 ⌈(rawMax - min) / bucketSize⌉ * bucketSize⟩

/-- The duration at a position of the histogram, given as a part of its width. -/
def Window.valueAt (range : Window) (x : ℚ) : ℚ := range.low + max 0 (min 1 x) * max 1 (range.high - range.low)

/-- What a drag in the histogram moves. -/
inductive LatencyDrag where
  | latencyLow
  | latencyHigh
  | latencyMove
  | latencySelect
deriving DecidableEq

/-- The window that the `pointermove` handler of the histogram sets. `dragged` and `startDuration` are the window and
the value at the start of the drag. -/
def Window.dragTo (range : Window) (drag : LatencyDrag) (w dragged : Window) (startDuration next : ℚ) : Window :=
  match drag with
  | .latencyLow => { w with low := min (next - (startDuration - dragged.low)) w.high }
  | .latencyHigh => { w with high := max (next - (startDuration - dragged.high)) w.low }
  | .latencyMove =>
      let size := dragged.high - dragged.low
      let low := max range.low (min (range.high - size) (next - (startDuration - dragged.low)))
      ⟨low, low + size⟩
  | .latencySelect =>
      let low := min startDuration next
      let high := max startDuration next
      ⟨low, if high > low then high else min range.high (low + 1)⟩

/-- A drag in the histogram of the page: its start, and the moves until the pointer goes up. -/
def State.dragHistogram (p : Profile) (s : State) (drag : LatencyDrag) (start : ℚ) (moves : List ℚ) : State :=
  let durations := s.durations p
  let range := s.histogramRange durations
  let dragged := s.latency.getD ⟨0, 0⟩
  let move (s : State) (x : ℚ) :=
    let w := range.dragTo drag (s.latency.getD ⟨0, 0⟩) dragged (range.valueAt start) (range.valueAt x)
    ({ s with latency := some w }.syncLatencyWindow durations).2
  moves.foldl move s

/-! ## Actions -/

inductive Edge where
  | low
  | high
deriving DecidableEq

/-- The time at a position of the timeline, given as a part of the width of the chart. -/
def timelineValue (p : Profile) (x : ℚ) : ℚ :=
  let ratio := max 0 (min 1 x)
  (bounds p).fromNs + ratio * ((bounds p).toNs - (bounds p).fromNs)

/-- What a drag on the timeline moves. -/
inductive TimeDrag where
  | timeFrom
  | timeTo
  | timeMove
  | timeSelect
deriving DecidableEq

/-- An edge of the time window is moved to a value, at most to one nanosecond in front of the other edge. -/
def TimeWindow.moveEdge (t : TimeWindow) (edge : Edge) (value : ℚ) : TimeWindow :=
  match edge with
  | .low => { t with fromNs := min value (t.toNs - 1) }
  | .high => { t with toNs := max value (t.fromNs + 1) }

/-- The `pointermove` handler of the timeline. `dragged` and `startValue` are the time window and the value at the
start of the drag. -/
def TimeWindow.dragTo (p : Profile) (drag : TimeDrag) (t dragged : TimeWindow) (startValue value : ℚ) : TimeWindow :=
  match drag with
  | .timeFrom => t.moveEdge .low value
  | .timeTo => t.moveEdge .high value
  | .timeMove =>
      let shift := max ((bounds p).fromNs - dragged.fromNs) (min ((bounds p).toNs - dragged.toNs) (value - startValue))
      ⟨dragged.fromNs + shift, dragged.toNs + shift⟩
  | .timeSelect =>
      let fromNs := min startValue value
      let toNs := max startValue value
      ⟨fromNs, if fromNs = toNs then min (bounds p).toNs (fromNs + 1) else toNs⟩

/-- The actions that neither edit the percentile fields nor drag in the histogram. -/
inductive Action where
  | toggleThread (tid : Nat)
  | checkThread (tid : Nat) (checked : Bool)
  /-- The number of a time field, in milliseconds from the start of the capture, when it is finite. -/
  | commitTime (edge : Edge) (entered : Option ℚ)
  /-- The positions of a whole drag: its start, and the moves until the pointer goes up. -/
  | dragTime (drag : TimeDrag) (start : ℚ) (moves : List ℚ)
  | setBucketSize (bucketSizeNs : Option ℚ)
  | setMetric (metric : Metric)
  /-- The trimmed text of the search field, in lower case. -/
  | setSearch (text : String)
deriving DecidableEq

/-- What the handler of an action changes before it renders the page. -/
def State.act (p : Profile) (s : State) : Action → State
  | .toggleThread tid =>
      { s with threads := if tid ∈ s.threads then s.threads.erase tid else insert tid s.threads }
  | .checkThread tid checked =>
      { s with threads := if checked then insert tid s.threads else s.threads.erase tid }
  | .commitTime _ none => s
  | .commitTime edge (some entered) =>
      { s with time := s.time.moveEdge edge (clampTime p ((bounds p).fromNs + entered * 1000000)) }
  | .dragTime drag start moves =>
      let move (t : TimeWindow) (x : ℚ) := t.dragTo p drag s.time (timelineValue p start) (timelineValue p x)
      { s with time := moves.foldl move s.time }
  | .setBucketSize bucketSizeNs => { s with histogramBucketSizeNs := bucketSizeNs }
  | .setMetric metric => { s with metric }
  | .setSearch text => { s with search := text }

/-- An action and the rendering after it. -/
def State.step (p : Profile) (s : State) (a : Action) : Option State := some ((s.act p a).calculate p).2

/-! ## The file -/

inductive RenderError where
  | invalidProfile (error : ProfileValidationError)
  | invalidQuery (error : QueryError)

/-- The checks in front of the page, and the state that the page starts with. -/
def renderHtml (p : Profile) (q : Query) : Except RenderError State := do
  let _ ← p.validate.mapError .invalidProfile
  let _ ← (executeQuery p q).mapError .invalidQuery
  .ok (initialState p q)

end SliceProfiler.Viewer
