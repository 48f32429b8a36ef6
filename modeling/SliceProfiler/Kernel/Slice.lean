import Mathlib.Data.Finset.Basic
import SliceProfiler.Capture.Replay
import SliceProfiler.Lib.Runs

/-!
# The kernel programs

The programs that run in the kernel, on the maps that they share. The kinds of the records in the ring
buffer are `1` entry, `2` return, `3` sample, `4` violation and `5` off-CPU interval.
-/

namespace SliceProfiler

open Lib

structure SliceConfig where
  functionId : Nat
  samplePeriodNs : Nat

structure Kernel.ActiveInvocation where
  id : Nat
  startNs : Nat
  functionId : Nat
deriving DecidableEq

structure OffcpuStart where
  timestampNs : Nat
  stackId : Int
deriving DecidableEq

/-- The maps and the records that reached the ring buffer, in their order. User space starts the ids at `1`. -/
structure Kernel where
  nextInvocationId : Nat := 1
  activeByTid : Map Nat Kernel.ActiveInvocation := ∅
  offcpuByTid : Map Nat OffcpuStart := ∅
  traceTidToBpfTid : Map Nat Nat := ∅
  bpfTidToTraceTid : Map Nat Nat := ∅
  events : List Event := []
  droppedEvents : Nat := 0
  droppedSamples : Nat := 0

/-- What a run of a program finds: its thread, clock and processor, and whether the ring buffer has room. -/
structure ProbeContext where
  tid : Nat
  now : Nat
  cpu : Nat
  reserved : Bool
deriving DecidableEq

/-- `updated`: whether the kernel accepts the update of `active_by_tid`. -/
structure EntryContext extends ProbeContext where
  updated : Bool
deriving DecidableEq

/-- `stackId`: the answer of `bpf_get_stackid`, negative when there is no stack. -/
structure SampleContext extends ProbeContext where
  stackId : Int
deriving DecidableEq

structure SwitchContext extends SampleContext where
  prevPid : Nat
  nextPid : Nat
  traceTidUpdated : Bool
  bpfTidUpdated : Bool
  offcpuUpdated : Bool
deriving DecidableEq

/-- `bpf_map_update_elem`, which may fail. -/
def bpfMapUpdate {ν : Type} (updated : Bool) (m : Map Nat ν) (key : Nat) (value : ν) : Map Nat ν :=
  if updated then m.insert key value else m

namespace Kernel

def emit (k : Kernel) (ctx : ProbeContext) (kind tid now invocationId : Nat) (stackId : Int)
    (weightNs : Nat) : Kernel :=
  if ctx.reserved then
    { k with events := k.events ++ [⟨kind, tid, now, invocationId, stackId, ctx.cpu, weightNs⟩] }
  else { k with droppedEvents := k.droppedEvents + 1 }

/-- The lookups of the configuration and of the id counter cannot fail: both are arrays of one element. -/
def sliceEntry (config : SliceConfig) (k : Kernel) (ctx : EntryContext) : Kernel :=
  match k.activeByTid.lookup ctx.tid with
  | some _ => k.emit ctx.toProbeContext 4 ctx.tid ctx.now 0 (-1) 0
  | none =>
      let active : ActiveInvocation := ⟨k.nextInvocationId + 1, ctx.now, config.functionId⟩
      let k := { k with nextInvocationId := k.nextInvocationId + 1 }
      if ctx.updated then
        { k with activeByTid := k.activeByTid.insert ctx.tid active }.emit ctx.toProbeContext
          1 ctx.tid ctx.now active.id (-1) 0
      else k

/-- The deletes at the end of `sliceReturn`. -/
def sliceReturnDeletes (k : Kernel) (tid : Nat) : Kernel :=
  let k := { k with activeByTid := k.activeByTid.erase tid, offcpuByTid := k.offcpuByTid.erase tid }
  match k.bpfTidToTraceTid.lookup tid with
  | some traceTid =>
      { k with
        traceTidToBpfTid := k.traceTidToBpfTid.erase traceTid
        bpfTidToTraceTid := k.bpfTidToTraceTid.erase tid }
  | none => k

def sliceReturn (k : Kernel) (ctx : ProbeContext) : Kernel :=
  match k.activeByTid.lookup ctx.tid with
  | none => k.emit ctx 4 ctx.tid ctx.now 0 (-1) 0
  | some active => (k.emit ctx 2 ctx.tid ctx.now active.id (-1) 0).sliceReturnDeletes ctx.tid

def sliceSample (config : SliceConfig) (k : Kernel) (ctx : SampleContext) : Kernel :=
  match k.activeByTid.lookup ctx.tid with
  | none => k
  | some active =>
      if ctx.stackId < 0 then { k with droppedSamples := k.droppedSamples + 1 }
      else k.emit ctx.toProbeContext 3 ctx.tid ctx.now active.id ctx.stackId config.samplePeriodNs

/-- The first half of `sliceSchedSwitch`: the outgoing thread. -/
def sliceSwitchOut (k : Kernel) (ctx : SwitchContext) : Kernel :=
  match k.activeByTid.lookup ctx.tid with
  | none => k
  | some _ =>
      { k with
        traceTidToBpfTid := bpfMapUpdate ctx.traceTidUpdated k.traceTidToBpfTid ctx.prevPid ctx.tid
        bpfTidToTraceTid := bpfMapUpdate ctx.bpfTidUpdated k.bpfTidToTraceTid ctx.tid ctx.prevPid
        droppedSamples := if ctx.stackId < 0 then k.droppedSamples + 1 else k.droppedSamples
        offcpuByTid := bpfMapUpdate ctx.offcpuUpdated k.offcpuByTid ctx.tid ⟨ctx.now, ctx.stackId⟩ }

/-- The second half of `sliceSchedSwitch`: the incoming thread. -/
def sliceSwitchIn (k : Kernel) (ctx : SwitchContext) : Kernel :=
  match k.traceTidToBpfTid.lookup ctx.nextPid with
  | none => k
  | some nextBpfTid =>
      match k.offcpuByTid.lookup nextBpfTid, k.activeByTid.lookup nextBpfTid with
      | some start, some active =>
          let weight := if ctx.now > start.timestampNs then ctx.now - start.timestampNs else 0
          let k := k.emit ctx.toProbeContext 5 nextBpfTid ctx.now active.id start.stackId weight
          { k with offcpuByTid := k.offcpuByTid.erase nextBpfTid }
      | _, none => { k with offcpuByTid := k.offcpuByTid.erase nextBpfTid }
      | none, some _ => k

def sliceSchedSwitch (k : Kernel) (ctx : SwitchContext) : Kernel := (k.sliceSwitchOut ctx).sliceSwitchIn ctx

end Kernel

/-! ## Captures -/

/-- The programs in any interleaving. `returning` are the threads between the emit and the deletes of
`sliceReturn`, and `clock` is the instant of the last program. -/
structure Machine where
  kernel : Kernel := {}
  returning : Finset Nat := ∅
  clock : Nat := 0

inductive KernelAction where
  | entry (ctx : EntryContext)
  | ret (ctx : ProbeContext)
  | retDeletes (tid : Nat)
  | sample (ctx : SampleContext)
  | schedSwitch (ctx : SwitchContext)
deriving DecidableEq

/-- A thread inside `sliceReturn` runs no other probe; samples and switches may land there. -/
def Machine.step (config : SliceConfig) (m : Machine) : KernelAction → Option Machine
  | .entry ctx =>
      if m.clock ≤ ctx.now ∧ ctx.tid ∉ m.returning then
        some { m with kernel := m.kernel.sliceEntry config ctx, clock := ctx.now }
      else none
  | .ret ctx =>
      if m.clock ≤ ctx.now ∧ ctx.tid ∉ m.returning then
        match m.kernel.activeByTid.lookup ctx.tid with
        | none => some { m with kernel := m.kernel.sliceReturn ctx, clock := ctx.now }
        | some active =>
            some { m with
              kernel := m.kernel.emit ctx 2 ctx.tid ctx.now active.id (-1) 0
              returning := insert ctx.tid m.returning
              clock := ctx.now }
      else none
  | .retDeletes tid =>
      if tid ∈ m.returning then
        some { m with kernel := m.kernel.sliceReturnDeletes tid, returning := m.returning.erase tid }
      else none
  | .sample ctx =>
      if m.clock ≤ ctx.now then
        some { m with kernel := m.kernel.sliceSample config ctx, clock := ctx.now }
      else none
  | .schedSwitch ctx =>
      if m.clock ≤ ctx.now then
        some { m with kernel := m.kernel.sliceSchedSwitch ctx, clock := ctx.now }
      else none

/-- The id and the entry time of the invocation that an action makes active. -/
def Machine.enters (m : Machine) : KernelAction → List (Nat × Nat)
  | .entry ctx =>
      if (m.kernel.activeByTid.lookup ctx.tid).isNone && ctx.updated then
        [(m.kernel.nextInvocationId + 1, ctx.now)]
      else []
  | _ => []

/-- The ids and the entry times of a run. -/
def Machine.entered (config : SliceConfig) (actions : List KernelAction) : List (Nat × Nat) :=
  trace (Machine.step config) Machine.enters {} actions

/-! ## Programs in any order -/

/-- One run of a program as a whole. -/
inductive Program where
  | entry (ctx : EntryContext)
  | ret (ctx : ProbeContext)
  | sample (ctx : SampleContext)
  | schedSwitch (ctx : SwitchContext)
deriving DecidableEq

/-- The kernel and the threads inside the selected function, each once for every call that it did not leave. -/
structure Threads where
  kernel : Kernel := {}
  inside : List Nat := []

def Threads.step (config : SliceConfig) (s : Threads) : Program → Threads
  | .entry ctx => ⟨s.kernel.sliceEntry config ctx, ctx.tid :: s.inside⟩
  | .ret ctx => ⟨s.kernel.sliceReturn ctx, s.inside.erase ctx.tid⟩
  | .sample ctx => { s with kernel := s.kernel.sliceSample config ctx }
  | .schedSwitch ctx => { s with kernel := s.kernel.sliceSchedSwitch ctx }

/-- The state after the programs, from empty maps. -/
def Threads.after (config : SliceConfig) (programs : List Program) : Threads :=
  programs.foldl (Threads.step config) {}

end SliceProfiler
