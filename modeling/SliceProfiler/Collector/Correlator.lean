import SliceProfiler.Core.Profile
import SliceProfiler.Lib.Maps
import SliceProfiler.Lib.SortByKey

/-!
# The correlator

Collector events become invocations and samples of a profile. An event that carries a transport
identity is assembled under that identity until the capture ends; the other events are matched on
their thread as they come.
-/

namespace SliceProfiler

open Lib

structure ActiveInvocation where
  id : Nat
  functionId : Nat
  tid : Nat
  startNs : Nat
  valid : Bool
deriving DecidableEq

structure PendingSample where
  tid : Nat
  timestampNs : Nat
  cpu : Nat
  state : ExecutionState
  weightNs : Nat
  frames : List Frame
deriving DecidableEq

structure SourceInvocation where
  id : Nat
  functionId : Option Nat
  tid : Nat
  startNs : Option Nat
  endNs : Option Nat
  sawEntry : Bool
  sawReturn : Bool
  valid : Bool
  samples : List PendingSample
deriving DecidableEq

inductive CollectorEvent where
  | entry (invocationId : Option Nat) (functionId tid timestampNs : Nat)
  | ret (invocationId : Option Nat) (functionId tid timestampNs : Nat)
  | violation (tid timestampNs : Nat)
  | sample (invocationId : Option Nat) (sample : PendingSample)
  | droppedEvents (count : Nat)
  | droppedSamples (count : Nat)
deriving DecidableEq

structure Correlator where
  nextInvocationId : Nat := 1
  nextStackId : Nat := 1
  active : Map Nat ActiveInvocation := ∅
  stackIds : Map (List Frame) Nat := ∅
  sourceInvocations : Map Nat SourceInvocation := ∅
  sourceMode : Bool := false
  sourceViolations : List (Nat × Nat) := []

/-! ## Counters -/

def Profile.count (p : Profile) (f : CaptureQuality → CaptureQuality) : Profile :=
  { p with quality := f p.quality }

def CaptureQuality.generateEvent (q : CaptureQuality) : CaptureQuality :=
  { q with eventsGenerated := satAdd64 q.eventsGenerated 1 }

def CaptureQuality.generateSample (q : CaptureQuality) : CaptureQuality :=
  { q with samplesGenerated := satAdd64 q.samplesGenerated 1 }

def CaptureQuality.dropEvents (count : Nat) (q : CaptureQuality) : CaptureQuality :=
  { q with eventsDropped := satAdd64 q.eventsDropped count }

def CaptureQuality.dropSamples (count : Nat) (q : CaptureQuality) : CaptureQuality :=
  { q with samplesDropped := satAdd64 q.samplesDropped count }

def CaptureQuality.complete (q : CaptureQuality) : CaptureQuality :=
  { q with completeInvocations := satAdd64 q.completeInvocations 1 }

def CaptureQuality.incomplete (q : CaptureQuality) : CaptureQuality :=
  { q with incompleteInvocations := satAdd64 q.incompleteInvocations 1 }

def CaptureQuality.mismatch (q : CaptureQuality) : CaptureQuality :=
  { q with stackMismatches := satAdd64 q.stackMismatches 1 }

def CaptureQuality.suspect (q : CaptureQuality) : CaptureQuality :=
  { q with suspectedAsyncViolations := satAdd64 q.suspectedAsyncViolations 1 }

/-! ## Stacks and samples -/

/-- The id of a stack. The first sample with these frames allocates it. -/
def Correlator.internStack (c : Correlator) (p : Profile) (frames : List Frame) :
    Nat × Correlator × Profile :=
  match c.stackIds.lookup frames with
  | some stackId => (stackId, c, p)
  | none =>
      (c.nextStackId,
        { c with
          nextStackId := satAdd32 c.nextStackId 1
          stackIds := c.stackIds.insert frames c.nextStackId },
        { p with «stacks» := p.stacks ++ [⟨c.nextStackId, frames⟩] })

def Correlator.appendSample (c : Correlator) (p : Profile) (invocationId : Nat) (s : PendingSample) :
    Correlator × Profile :=
  let (stackId, c, p) := c.internStack p s.frames
  (c, { p with
    samples := p.samples ++ [⟨s.timestampNs, invocationId, stackId, s.tid, s.cpu, s.state, s.weightNs⟩] })

/-! ## Events with a transport identity -/

def SourceInvocation.onEntry (i : SourceInvocation) (functionId tid timestampNs : Nat) : SourceInvocation :=
  if i.sawEntry then { i with valid := false }
  else
    { i with
      sawEntry := true
      functionId := some functionId
      tid
      startNs := some timestampNs
      valid := i.valid && !i.endNs.any (· < timestampNs) }

def SourceInvocation.onReturn (i : SourceInvocation) (functionId tid timestampNs : Nat) : SourceInvocation :=
  let known := i.functionId.getD functionId
  { i with
    sawReturn := true
    functionId := some known
    endNs := some timestampNs
    valid := i.valid && !i.sawReturn && (known == functionId && i.tid == tid) &&
      !i.startNs.any (timestampNs < ·) }

def SourceInvocation.onSample (i : SourceInvocation) (s : PendingSample) : SourceInvocation :=
  { i with samples := i.samples ++ [s] }

def Correlator.sourceEntry (c : Correlator) (invocationId functionId tid timestampNs : Nat) : Correlator :=
  { c with
    sourceMode := true
    sourceInvocations := c.sourceInvocations.upsert invocationId fun found =>
      (found.getD ⟨invocationId, some functionId, tid, some timestampNs, none, false, false, true, []⟩).onEntry
        functionId tid timestampNs }

def Correlator.sourceReturn (c : Correlator) (invocationId functionId tid timestampNs : Nat) : Correlator :=
  { c with
    sourceMode := true
    sourceInvocations := c.sourceInvocations.upsert invocationId fun found =>
      (found.getD ⟨invocationId, some functionId, tid, none, some timestampNs, false, false, true, []⟩).onReturn
        functionId tid timestampNs }

def Correlator.sourceSample (c : Correlator) (invocationId : Nat) (s : PendingSample) : Correlator :=
  { c with
    sourceMode := true
    sourceInvocations := c.sourceInvocations.upsert invocationId fun found =>
      (found.getD ⟨invocationId, none, s.tid, none, none, false, false, true, []⟩).onSample s }

/-! ## Events without an identity -/

def Correlator.localEntry (c : Correlator) (p : Profile) (functionId tid timestampNs : Nat) :
    Correlator × Profile :=
  let p := match c.active.lookup tid with
    | some existing =>
        { p with
          invocations := p.invocations ++ [⟨existing.id, existing.functionId, none, tid, existing.startNs,
            max timestampNs existing.startNs, false, false⟩]
          quality := p.quality.incomplete.mismatch.suspect }
    | none => p
  ({ c with
    nextInvocationId := satAdd64 c.nextInvocationId 1
    active := c.active.insert tid ⟨c.nextInvocationId, functionId, tid, timestampNs, true⟩ }, p)

def Correlator.localReturn (c : Correlator) (p : Profile) (functionId tid timestampNs : Nat) :
    Correlator × Profile :=
  match c.active.lookup tid with
  | none => (c, p.count .mismatch)
  | some active =>
      let valid := active.valid && active.functionId == functionId && decide (timestampNs ≥ active.startNs)
      let quality := if valid then p.quality.complete else p.quality.mismatch.incomplete
      ({ c with active := c.active.erase tid },
        { p with
          invocations := p.invocations ++ [⟨active.id, active.functionId, none, tid, active.startNs,
            timestampNs, true, valid⟩]
          quality })

def Correlator.localSample (c : Correlator) (p : Profile) (s : PendingSample) : Correlator × Profile :=
  match c.active.lookup s.tid with
  | none => (c, p)
  | some active => if active.valid then c.appendSample p active.id s else (c, p)

/-- A violation invalidates the invocation that is active on the thread, and is kept for the end. -/
def Correlator.violation (c : Correlator) (p : Profile) (tid timestampNs : Nat) : Correlator × Profile :=
  let c := { c with sourceViolations := c.sourceViolations ++ [(tid, timestampNs)] }
  match c.active.lookup tid with
  | none => (c, p.count .mismatch)
  | some active =>
      let p := p.count fun q => q.mismatch.suspect
      ({ c with active := c.active.insert tid { active with valid := false } },
        if timestampNs < active.startNs then p.count .mismatch else p)

def Correlator.push (c : Correlator) (p : Profile) : CollectorEvent → Correlator × Profile
  | .entry invocationId functionId tid timestampNs =>
      let p := p.count .generateEvent
      match invocationId with
      | some id => (c.sourceEntry id functionId tid timestampNs, p)
      | none => c.localEntry p functionId tid timestampNs
  | .ret invocationId functionId tid timestampNs =>
      let p := p.count .generateEvent
      match invocationId with
      | some id => (c.sourceReturn id functionId tid timestampNs, p)
      | none => c.localReturn p functionId tid timestampNs
  | .violation tid timestampNs => c.violation (p.count .generateEvent) tid timestampNs
  | .sample invocationId s =>
      let p := p.count .generateSample
      match invocationId with
      | some id => (c.sourceSample id s, p)
      | none => c.localSample p s
  | .droppedEvents count => (c, p.count (.dropEvents count))
  | .droppedSamples count => (c, p.count (.dropSamples count))

def pushAll (s : Correlator × Profile) (events : List CollectorEvent) : Correlator × Profile :=
  events.foldl (fun s e => s.1.push s.2 e) s

/-! ## The end of the capture -/

/-- The violation falls inside the recorded interval of the invocation. -/
def SourceInvocation.violatedAt (i : SourceInvocation) (v : Nat × Nat) : Bool :=
  i.tid == v.1 && i.startNs.any fun start => start ≤ v.2 && i.endNs.all fun stop => v.2 ≤ stop

/-- The loop over the invocations for one violation. -/
def markViolation (s : List SourceInvocation × CaptureQuality) (v : Nat × Nat) :
    List SourceInvocation × CaptureQuality :=
  (s.1.map fun i => if i.violatedAt v then { i with valid := false } else i,
    s.1.foldl (fun q i => if i.violatedAt v then q.suspect else q) s.2)

def Correlator.finishSample (invocationId startNs endNs : Nat) (s : Correlator × Profile)
    (sample : PendingSample) : Correlator × Profile :=
  if sample.timestampNs < startNs ∨ sample.timestampNs > endNs then (s.1, s.2.count .mismatch)
  else s.1.appendSample s.2 invocationId sample

def Correlator.finishInvocation (timestampNs : Nat) (s : Correlator × Profile) (i : SourceInvocation) :
    Correlator × Profile :=
  match i.functionId, i.startNs with
  | some functionId, some startNs =>
      let endNs := i.endNs.getD (max timestampNs startNs)
      let complete := i.sawEntry && i.sawReturn
      let valid := i.valid && complete && decide (endNs ≥ startNs)
      let p : Profile := { s.2 with
        invocations := s.2.invocations ++ [⟨i.id, functionId, none, i.tid, startNs, endNs, complete, valid⟩] }
      if valid then
        i.samples.foldl (finishSample i.id startNs endNs) (s.1, p.count .complete)
      else
        (s.1, p.count fun q => if complete then q.incomplete.mismatch else q.incomplete)
  | _, _ => s

def Correlator.finishSource (c : Correlator) (p : Profile) (timestampNs : Nat) : Correlator × Profile :=
  let (invocations, quality) := c.sourceViolations.foldl markViolation (c.sourceInvocations.values, p.quality)
  (sortByKey (·.id) invocations).foldl (finishInvocation timestampNs)
    ({ c with sourceInvocations := ∅ }, { p with quality })

/-- An invocation that is still active when the capture stops. -/
def finishActive (timestampNs : Nat) (p : Profile) (active : ActiveInvocation) : Profile :=
  { p with
    invocations := p.invocations ++ [⟨active.id, active.functionId, none, active.tid, active.startNs,
      max timestampNs active.startNs, false, false⟩]
    quality := p.quality.incomplete }

/-- The order in which the source visits the active invocations is not specified. -/
def Correlator.finish (c : Correlator) (p : Profile) (timestampNs : Nat) : Profile :=
  let (c, p) := if c.sourceMode then c.finishSource p timestampNs else (c, p)
  c.active.values.foldl (finishActive timestampNs) p

/-- The profile after all the events of a capture that stops at `timestampNs`. -/
def collectEvents (p : Profile) (events : List CollectorEvent) (timestampNs : Nat) : Profile :=
  let (c, p) := pushAll ({}, p) events
  c.finish p timestampNs

end SliceProfiler
