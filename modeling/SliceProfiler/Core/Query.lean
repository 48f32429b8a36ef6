import Mathlib.Algebra.Order.Floor.Semiring
import Mathlib.Data.Rat.Floor
import Mathlib.Data.String.Basic
import SliceProfiler.Core.Profile
import SliceProfiler.Lib.Checks
import SliceProfiler.Lib.Maps
import SliceProfiler.Lib.SortByKey

/-!
# The percentile query

The source computes the two displayed percentile values in floating point; they are exact rationals here.
-/

namespace SliceProfiler

open Lib

inductive Metric where
  | wall
  | cpu
  | offCpu
deriving DecidableEq

def Metric.includes : Metric → ExecutionState → Bool
  | .wall, _ => true
  | .cpu, .onCpu => true
  | .offCpu, .offCpu => true
  | _, _ => false

structure PercentileRange where
  low : Nat
  high : Nat
deriving DecidableEq

structure Query where
  functionId : Nat
  threads : Option (Finset Nat)
  time : Option TimeRange
  percentile : PercentileRange
  metric : Metric
deriving DecidableEq

inductive QueryError where
  | invalidPercentileRange (range : PercentileRange)
  | invalidTimeRange (range : TimeRange)
  | unknownStack (id : Nat)
deriving DecidableEq

def PercentileRange.validate (r : PercentileRange) : Except QueryError Unit :=
  ensure (¬ (r.low ≥ r.high ∨ r.high > 100)) (.invalidPercentileRange r)

/-! ## The flame tree -/

inductive FlameNode where
  | mk (name : String) (valueNs : Nat) (children : List FlameNode)

def FlameNode.empty : FlameNode := .mk "root" 0 []

/-- The children are kept by increasing names. -/
inductive TreeBuilder where
  | mk (valueNs : Nat) (children : List (String × TreeBuilder))

def TreeBuilder.default : TreeBuilder := .mk 0 []

def TreeBuilder.insert : List Frame → Nat → TreeBuilder → TreeBuilder
  | [], weightNs, .mk valueNs children => .mk (satAdd64 valueNs weightNs) children
  | frame :: rest, weightNs, .mk valueNs children =>
      .mk (satAdd64 valueNs weightNs)
        (upsert frame.label (fun child => insert rest weightNs (child.getD .default)) children)

mutual
def TreeBuilder.finish : TreeBuilder → String → FlameNode
  | .mk valueNs children, name => .mk name valueNs (finishChildren children)

def TreeBuilder.finishChildren : List (String × TreeBuilder) → List FlameNode
  | [] => []
  | (name, child) :: children => child.finish name :: finishChildren children
end

/-! ## The query -/

structure QueryResult where
  selectedInvocationIds : List Nat
  availableInvocationCount : Nat
  latencyMinNs : Option Nat
  latencyMaxNs : Option Nat
  percentileLowValueNs : Option ℚ
  percentileHighValueNs : Option ℚ
  sampledCpuNs : Nat
  offCpuNs : Nat
  root : FlameNode

/-- The range of ranks that a percentile range selects among `count` invocations. -/
def rankBounds (count : Nat) (range : PercentileRange) : Nat × Nat :=
  let start := satAdd64 (satMul64 count range.low) 99 / 100
  let stop := satAdd64 (satMul64 count range.high) 99 / 100
  (min start count, min stop count)

def percentileR7 (sortedDurations : List Nat) (percentile : ℚ) : Option ℚ :=
  match sortedDurations with
  | [] => none
  | [first] => some first
  | first :: rest =>
      let bounded := max 0 (min 100 percentile) / 100
      let rank := bounded * ((first :: rest).length - 1 : Nat)
      let lower := ⌊rank⌋₊
      let upper := ⌈rank⌉₊
      let fraction := rank - lower
      let low : ℚ := (first :: rest).getD lower 0
      let high : ℚ := (first :: rest).getD upper 0
      some (low + (high - low) * fraction)

/-- The four filters in front of the percentile. -/
def Query.eligible (q : Query) (i : Invocation) : Bool :=
  i.functionId == q.functionId && (i.complete && i.valid) &&
    q.threads.all (fun threads => i.tid ∈ threads) && q.time.all (fun time => time.containsStart i.startNs)

/-- The eligible invocations by increasing duration, and by increasing id for equal durations. -/
def candidates (p : Profile) (q : Query) : List Invocation :=
  sortByKey (fun i => toLex (i.durationNs, i.id)) (p.invocations.filter q.eligible)

/-- `&candidates[start..end]` for the rank bounds of the query. -/
def selected (p : Profile) (q : Query) : List Invocation :=
  let (start, stop) := rankBounds (candidates p q).length q.percentile
  ((candidates p q).drop start).take (stop - start)

structure SampleTotals where
  tree : TreeBuilder
  sampledCpuNs : Nat
  offCpuNs : Nat

def Query.selectedName (p : Profile) (q : Query) : Option String :=
  (p.functions.find? fun f => f.id = q.functionId).map (·.demangledName)

/-- Whether the flame graph may start at the frame. -/
def Query.startsAt (q : Query) (name : Option String) (f : Frame) : Bool :=
  f.functionId == some q.functionId || name.any (fun name => f.label == name)

def SampleTotals.add (q : Query) (name : Option String) (t : SampleTotals) (frames : List Frame)
    (state : ExecutionState) (weightNs : Nat) : SampleTotals :=
  match frames.findIdx? (q.startsAt name) with
  | none => t
  | some start =>
      let tree := t.tree.insert (frames.drop start) weightNs
      match state with
      | .onCpu => { t with tree, sampledCpuNs := satAdd64 t.sampledCpuNs weightNs }
      | .offCpu => { t with tree, offCpuNs := satAdd64 t.offCpuNs weightNs }

/-- The sample loop. -/
def sampleTotals (q : Query) (name : Option String) (selectedIds : Finset Nat)
    (stackById : Map Nat Stack) (t : SampleTotals) : List Sample → Except QueryError SampleTotals
  | [] => .ok t
  | s :: samples =>
      if s.invocationId ∉ selectedIds ∨ ¬ q.metric.includes s.state then
        sampleTotals q name selectedIds stackById t samples
      else
        match stackById.lookup s.stackId with
        | none => .error (.unknownStack s.stackId)
        | some stack =>
            sampleTotals q name selectedIds stackById (t.add q name stack.frames s.state s.weightNs) samples

def executeQuery (p : Profile) (q : Query) : Except QueryError QueryResult := do
  q.percentile.validate
  checkOption (fun time => ensure (time.fromNs < time.toNs) (.invalidTimeRange time)) q.time
  let durations := (candidates p q).map (·.durationNs)
  let chosen := selected p q
  let selectedIds := (chosen.map (·.id)).toFinset
  let stackById := Map.ofList (p.stacks.map fun k => (k.id, k))
  let totals ← sampleTotals q (q.selectedName p) selectedIds stackById ⟨.default, 0, 0⟩ p.samples
  .ok {
    selectedInvocationIds := chosen.map (·.id)
    availableInvocationCount := (candidates p q).length
    latencyMinNs := (chosen.map (·.durationNs)).min?
    latencyMaxNs := (chosen.map (·.durationNs)).max?
    percentileLowValueNs := percentileR7 durations q.percentile.low
    percentileHighValueNs := percentileR7 durations q.percentile.high
    sampledCpuNs := totals.sampledCpuNs
    offCpuNs := totals.offCpuNs
    root := if selectedIds = ∅ then .empty else totals.tree.finish "root" }

end SliceProfiler
