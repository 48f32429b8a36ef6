import SliceProfiler.Capture.Resolver
import SliceProfiler.Collector.Correlator

/-!
# Replay of the ring buffer

The raw events of a capture in their sorted order become collector events.
-/

namespace SliceProfiler

open Lib

structure Event where
  kind : Nat
  tid : Nat
  timestampNs : Nat
  invocationId : Nat
  stackId : Int
  cpu : Nat
  weightNs : Nat
deriving DecidableEq

structure CaptureRequest where
  function : Function
  command : List String

/-- The stacks read from the kernel's stack map, which has `32768` entries. -/
structure StackStore where
  addresses : Map Int (List Nat)
  bounded : ∀ stackId ∈ addresses.keys, 0 ≤ stackId ∧ stackId < 32768

/-- `stacks.get(&stack_id).cloned().unwrap_or_default()` -/
def StackStore.get (store : StackStore) (stackId : Int) : List Nat :=
  (store.addresses.lookup stackId).getD []

/-! ## Order -/

def eventKindOrder : Nat → Nat
  | 1 => 0
  | 3 | 5 => 1
  | 2 => 2
  | 4 => 3
  | _ => 4

/-- The fields that the sort compares, in this order. -/
def Event.sortKey (e : Event) : Nat ×ₗ Nat ×ₗ Nat ×ₗ Nat :=
  toLex (e.timestampNs, toLex (e.tid, toLex (e.invocationId, eventKindOrder e.kind)))

def sortEvents (events : List Event) : List Event := sortByKey Event.sortKey events

/-! ## The replay loop -/

/-- The frames of a blocked interval: the selected function is put at the root when no frame names it. -/
def CaptureRequest.offCpuFrames (request : CaptureRequest) (frames : List Frame) : List Frame :=
  if frames.any fun frame => frame.label == request.function.demangledName ||
      frame.functionId == some request.function.id then frames
  else ⟨some request.function.id, request.function.demangledName, some request.function.module,
    some request.function.address⟩ :: frames

section Replay

variable (request : CaptureRequest) (resolver : Resolver) (store : StackStore)

def replayEvent (s : Correlator × Profile) (e : Event) : Correlator × Profile :=
  match e.kind with
  | 1 => s.1.push s.2 (.entry (some e.invocationId) request.function.id e.tid e.timestampNs)
  | 2 => s.1.push s.2 (.ret (some e.invocationId) request.function.id e.tid e.timestampNs)
  | 3 => s.1.push s.2 (.sample (some e.invocationId) ⟨e.tid, e.timestampNs, e.cpu, .onCpu, e.weightNs,
      resolver.frames (store.get e.stackId)⟩)
  | 4 => s.1.push s.2 (.violation e.tid e.timestampNs)
  | 5 => s.1.push s.2 (.sample (some e.invocationId) ⟨e.tid, e.timestampNs, e.cpu, .offCpu, e.weightNs,
      request.offCpuFrames (resolver.frames (store.get e.stackId))⟩)
  | _ => (s.1, { s.2 with
      quality := { s.2.quality with eventsDropped := satAdd64 s.2.quality.eventsDropped 1 } })

/-- The sort, the replay loop and the end of the capture. -/
def replay (p : Profile) (events : List Event) (finishNs : Nat) : Profile :=
  let (c, p) := (sortEvents events).foldl (replayEvent request resolver store) ({}, p)
  c.finish p finishNs

end Replay

/-! ## The profile of a capture -/

def sampleFrequencyHz : Nat := 999

def emptyProfile (request : CaptureRequest) (nowUnixNs : Nat) (kernelRelease : String) : Profile where
  formatVersion := 1
  metadata := ⟨nowUnixNs, request.command, kernelRelease, 1000000000 / sampleFrequencyHz⟩
  functions := [request.function]
  threads := []
  invocations := []
  «stacks» := []
  samples := []
  quality := {}

/-- The profile in front of the replay loop, with the drop counters of the kernel side. -/
def startProfile (request : CaptureRequest) (nowUnixNs : Nat) (kernelRelease : String)
    (eventsDropped samplesDropped : Nat) : Profile :=
  { emptyProfile request nowUnixNs kernelRelease with quality := { eventsDropped, samplesDropped } }

def rebuildThreads (p : Profile) (names : Map Nat String) : Profile :=
  let tids := p.invocations.map (·.tid) ++ p.samples.map (·.tid)
  { p with threads := (dedupByKey id (sortByKey id tids)).map fun tid => ⟨tid, names.lookup tid⟩ }

/-- The end of `capture_pid`, from the delivered events and the counters of the kernel side. -/
def capture (request : CaptureRequest) (resolver : Resolver) (store : StackStore) (names : Map Nat String)
    (nowUnixNs : Nat) (kernelRelease : String) (eventsDropped samplesDropped : Nat) (events : List Event)
    (finishNs : Nat) : Profile :=
  let p := startProfile request nowUnixNs kernelRelease eventsDropped samplesDropped
  let p := rebuildThreads (replay request resolver store p events finishNs) names
  { p with quality := { p.quality with
      eventsGenerated := max p.quality.eventsGenerated (p.invocations.length * 2) } }

end SliceProfiler
