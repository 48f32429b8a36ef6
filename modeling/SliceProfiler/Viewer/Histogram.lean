import SliceProfiler.Lib.Buckets
import SliceProfiler.Viewer.State

/-!
# The latency histogram

The buckets that `paintHistogram` fills, with the interval in the label of each.
-/

namespace SliceProfiler.Viewer

open Lib

structure Histogram where
  min : ℚ
  max : ℚ
  bins : Nat
  span : ℚ
  counts : List Nat
  bucketByIndex : List ℤ
deriving DecidableEq

/-- `Array(bins)`: with a bucket size as many as it takes to reach the longest duration. -/
def State.histogramBins (s : State) (durations : List Nat) : Nat :=
  let rawMax : ℚ := (durations.max?.getD 0 : Nat)
  match s.histogramBucketSizeNs with
  | none => 30
  | some bucketSize =>
      if bucketSize = 0 then 30
      else max 1 ⌈(rawMax - (s.histogramRange durations).low) / bucketSize⌉₊

def State.paintHistogram (s : State) (durations : List Nat) : Option Histogram :=
  if durations = [] then none
  else
    let range := s.histogramRange durations
    let bins := s.histogramBins durations
    let span := max 1 (range.high - range.low)
    let bucket (duration : Nat) : ℤ := min (bins - 1) ⌊(duration - range.low) / span * bins⌋
    some {
      min := range.low
      max := range.high
      bins
      span
      counts := countInto bins (durations.map bucket)
      bucketByIndex := durations.map bucket }

/-! ## The interval of a bucket -/

def Histogram.bucketLow (h : Histogram) (index : ℤ) : ℚ := h.min + index * h.span / h.bins

def Histogram.bucketHigh (h : Histogram) (index : ℤ) : ℚ := h.min + (index + 1) * h.span / h.bins

/-- Each duration is counted once, in the bucket whose interval holds it; the upper bound is exclusive. -/
structure Histogram.Honest (h : Histogram) (durations : List Nat) : Prop where
  each : h.bucketByIndex.length = durations.length
  indices : ∀ index ∈ h.bucketByIndex, 0 ≤ index ∧ index < h.bins
  bars : h.counts.length = h.bins
  counts : ∀ index < h.bins, h.counts[index]? = some (h.bucketByIndex.count (index : ℤ))
  total : h.counts.sum = durations.length
  within : ∀ (k : Nat) (index : ℤ) (duration : Nat), h.bucketByIndex[k]? = some index → durations[k]? = some duration →
    h.bucketLow index ≤ duration ∧ duration < h.bucketHigh index

/-- Under Auto all durations are equal. Under a fixed width the longest one is no whole multiple of the width, or
less than one nanosecond above the multiple at which the histogram begins. -/
def State.EndsInsideBucket (s : State) (durations : List Nat) : Prop :=
  let rawMin : ℚ := (durations.min?.getD 0 : Nat)
  let rawMax : ℚ := (durations.max?.getD 0 : Nat)
  match s.histogramBucketSizeNs with
  | none => rawMax = rawMin
  | some bucketSize =>
      (∀ k : ℤ, rawMax ≠ k * bucketSize) ∨ rawMax < ⌊rawMin / bucketSize⌋ * bucketSize + 1

end SliceProfiler.Viewer
