import Mathlib.Order.Basic
import SliceProfiler.Core.Query
import SliceProfiler.Core.Validate
import SliceProfiler.Lib.Tally

/-!
# Discovery of functions

What the command `discover` prints of a profile, as numbers. The source prints the times in milliseconds.
-/

namespace SliceProfiler

open Lib

/-- The loop over the frames of a stack. The addition wraps around in a release build. -/
def addFrames (weightNs : Nat) (inclusive : List (String × Nat)) (frames : List Frame) : List (String × Nat) :=
  frames.foldl (fun inclusive f => tally u64Max inclusive (f.label, weightNs)) inclusive

def addSample (stackById : Map Nat Stack) (metric : Metric) (inclusive : List (String × Nat)) (s : Sample) :
    List (String × Nat) :=
  if metric.includes s.state then
    match stackById.lookup s.stackId with
    | some stack => addFrames s.weightNs inclusive stack.frames
    | none => inclusive
  else inclusive

/-- The inclusive times that `discover` accumulates, by increasing labels. -/
def Profile.inclusive (p : Profile) (metric : Metric) : List (String × Nat) :=
  p.samples.foldl (addSample (Map.ofList (p.stacks.map fun k => (k.id, k))) metric) []

structure SampleSummary where
  onCpuSamples : Nat
  offCpuSamples : Nat
  onCpuNs : Nat
  offCpuNs : Nat
deriving DecidableEq

def SampleSummary.add (t : SampleSummary) (s : Sample) : SampleSummary :=
  match s.state with
  | .onCpu => { t with onCpuSamples := t.onCpuSamples + 1, onCpuNs := satAdd64 t.onCpuNs s.weightNs }
  | .offCpu => { t with offCpuSamples := t.offCpuSamples + 1, offCpuNs := satAdd64 t.offCpuNs s.weightNs }

def Profile.sampleSummary (p : Profile) : SampleSummary := p.samples.foldl SampleSummary.add ⟨0, 0, 0, 0⟩

/-- The time of the states that the metric includes. -/
def SampleSummary.under (t : SampleSummary) : Metric → Nat
  | .wall => t.onCpuNs + t.offCpuNs
  | .cpu => t.onCpuNs
  | .offCpu => t.offCpuNs

structure Discovery where
  summary : SampleSummary
  functions : List (String × Nat)
deriving DecidableEq

/-- The thirty labels with the largest times, and by increasing labels for equal times. -/
def discover (p : Profile) (metric : Metric) : Except ProfileValidationError Discovery := do
  p.validate
  .ok {
    summary := p.sampleSummary
    functions := (sortByKey (fun e => toLex (OrderDual.toDual e.2, e.1)) (p.inclusive metric)).take 30 }

/-! ## What the times should be -/

/-- The accumulated time of a label. -/
def Profile.inclusiveTime (p : Profile) (metric : Metric) (label : String) : Nat :=
  (lookupKey label (p.inclusive metric)).getD 0

/-- The stack of the sample contains the label. -/
def Profile.shows (p : Profile) (label : String) (s : Sample) : Bool :=
  p.stacks.any fun k => k.id == s.stackId && k.frames.any (·.label == label)

/-- The weight of the included samples whose stack contains the label, each sample once. -/
def Profile.trueInclusiveTime (p : Profile) (metric : Metric) (label : String) : Nat :=
  ((p.samples.filter fun s => metric.includes s.state && p.shows label s).map (·.weightNs)).sum

/-- The labels of the stack that the loop finds for the sample. -/
def Profile.labelsOf (p : Profile) (s : Sample) : List String :=
  match (Map.ofList (p.stacks.map fun k => (k.id, k))).lookup s.stackId with
  | some stack => stack.frames.map (·.label)
  | none => []

/-- The additions of the loops, in their order. -/
def Profile.additions (p : Profile) (metric : Metric) : List (String × Nat) :=
  p.samples.flatMap fun s => if metric.includes s.state then (p.labelsOf s).map fun label => (label, s.weightNs) else []

end SliceProfiler
