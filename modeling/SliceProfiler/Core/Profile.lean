import SliceProfiler.Lib.Saturating

/-!
# Profiles

The records of a capture. Identifiers, times and weights are natural numbers; the operations that
saturate in the source saturate here at the same bound.
-/

namespace SliceProfiler

def u64Max : Nat := 0xFFFFFFFFFFFFFFFF

def u32Max : Nat := 0xFFFFFFFF

theorem u64Max_eq : u64Max = 2 ^ 64 - 1 := rfl

/-- `u64::saturating_add`. -/
abbrev satAdd64 (a b : Nat) : Nat := Lib.saturatingAdd u64Max a b

/-- `u32::saturating_add`. -/
abbrev satAdd32 (a b : Nat) : Nat := Lib.saturatingAdd u32Max a b

/-- `usize::saturating_mul` on a 64-bit target. -/
abbrev satMul64 (a b : Nat) : Nat := Lib.saturatingMul u64Max a b

structure Metadata where
  capturedAtUnixNs : Nat
  command : List String
  kernelRelease : String
  samplePeriodNs : Nat
deriving DecidableEq

structure Function where
  id : Nat
  module : String
  moduleBuildId : Option String
  address : Nat
  name : String
  demangledName : String
  sourceFile : Option String
  line : Option Nat
deriving DecidableEq

structure Thread where
  tid : Nat
  name : Option String
deriving DecidableEq

structure Invocation where
  id : Nat
  functionId : Nat
  parentId : Option Nat
  tid : Nat
  startNs : Nat
  endNs : Nat
  complete : Bool
  valid : Bool
deriving DecidableEq

def Invocation.durationNs (i : Invocation) : Nat := i.endNs - i.startNs

structure Frame where
  functionId : Option Nat
  label : String
  module : Option String
  address : Option Nat
deriving DecidableEq

/-- The frames go from the root to the leaf. -/
structure Stack where
  id : Nat
  frames : List Frame
deriving DecidableEq

inductive ExecutionState where
  | onCpu
  | offCpu
deriving DecidableEq

structure Sample where
  timestampNs : Nat
  invocationId : Nat
  stackId : Nat
  tid : Nat
  cpu : Nat
  state : ExecutionState
  weightNs : Nat
deriving DecidableEq

structure CaptureQuality where
  eventsGenerated : Nat := 0
  eventsDropped : Nat := 0
  samplesGenerated : Nat := 0
  samplesDropped : Nat := 0
  completeInvocations : Nat := 0
  incompleteInvocations : Nat := 0
  stackMismatches : Nat := 0
  suspectedAsyncViolations : Nat := 0
deriving DecidableEq

structure Profile where
  formatVersion : Nat
  metadata : Metadata
  functions : List Function
  threads : List Thread
  invocations : List Invocation
  «stacks» : List Stack
  samples : List Sample
  quality : CaptureQuality
deriving DecidableEq

structure TimeRange where
  fromNs : Nat
  toNs : Nat
deriving DecidableEq

def TimeRange.containsStart (r : TimeRange) (timestampNs : Nat) : Bool :=
  timestampNs ≥ r.fromNs && timestampNs < r.toNs

def Profile.captureBounds (p : Profile) : Option TimeRange :=
  match p.invocations with
  | [] => none
  | first :: invocations =>
      some <| invocations.foldl (fun r i => ⟨min r.fromNs i.startNs, max r.toNs i.endNs⟩)
        ⟨first.startNs, first.endNs⟩

end SliceProfiler
