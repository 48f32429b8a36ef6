import SliceProfiler.Kernel.Slice

/-!
# Diagnostics of the probes

The counters that the kernel programs keep outside of the profile, and what user space reads off them at the end of
a capture.
-/

namespace SliceProfiler

open Lib

/-- The slots of `probe_diagnostics`, in their order. -/
structure ProbeDiagnostics where
  rawEntries : Nat := 0
  acceptedEntries : Nat := 0
  rawReturns : Nat := 0
  schedulerSwitchOuts : Nat := 0
  schedulerIntervals : Nat := 0
deriving DecidableEq

namespace ProbeDiagnostics

/-- Both counters of `slice_entry`: the lookup of the configuration between them cannot fail. -/
def sliceEntry (d : ProbeDiagnostics) : ProbeDiagnostics :=
  { d with rawEntries := d.rawEntries + 1, acceptedEntries := d.acceptedEntries + 1 }

def sliceReturn (d : ProbeDiagnostics) : ProbeDiagnostics := { d with rawReturns := d.rawReturns + 1 }

def sliceSwitchOut (d : ProbeDiagnostics) (k : Kernel) (ctx : SwitchContext) : ProbeDiagnostics :=
  match k.activeByTid.lookup ctx.tid with
  | none => d
  | some _ => { d with schedulerSwitchOuts := d.schedulerSwitchOuts + 1 }

def sliceSwitchIn (d : ProbeDiagnostics) (k : Kernel) (ctx : SwitchContext) : ProbeDiagnostics :=
  match k.traceTidToBpfTid.lookup ctx.nextPid with
  | none => d
  | some nextBpfTid =>
      match k.offcpuByTid.lookup nextBpfTid, k.activeByTid.lookup nextBpfTid with
      | some _, some _ => { d with schedulerIntervals := d.schedulerIntervals + 1 }
      | _, none => d
      | none, some _ => d

def sliceSchedSwitch (d : ProbeDiagnostics) (k : Kernel) (ctx : SwitchContext) : ProbeDiagnostics :=
  (d.sliceSwitchOut k ctx).sliceSwitchIn (k.sliceSwitchOut ctx) ctx

/-- What an action counts, in the state in front of it. -/
def count (d : ProbeDiagnostics) (k : Kernel) : KernelAction → ProbeDiagnostics
  | .entry _ => d.sliceEntry
  | .ret _ => d.sliceReturn
  | .schedSwitch ctx => d.sliceSchedSwitch k ctx
  | .retDeletes _ | .sample _ => d

end ProbeDiagnostics

/-- The programs with their counters. -/
structure Counted where
  machine : Machine := {}
  diagnostics : ProbeDiagnostics := {}

def Counted.step (config : SliceConfig) (s : Counted) (a : KernelAction) : Option Counted :=
  (s.machine.step config a).map fun m => ⟨m, s.diagnostics.count s.machine.kernel a⟩

/-! ## The messages -/

inductive EmptyCapture where
  /-- "the selected probe never fired; verify the module, symbol offset, and target lifetime" -/
  | neverFired
  /-- "the attachment fired but the adapter rejected every entry before transport" -/
  | rejected
  /-- "entries passed process scoping but no events reached userspace; inspect ring-buffer drops and BPF map updates" -/
  | undelivered
deriving DecidableEq

def diagnoseEmptyCapture (rawEntries acceptedEntries : Nat) : EmptyCapture :=
  if rawEntries = 0 then .neverFired else if acceptedEntries = 0 then .rejected else .undelivered

/-- The interpretation that is printed when no record was consumed. -/
def ProbeDiagnostics.interpretation (d : ProbeDiagnostics) (delivered : List Event) : Option EmptyCapture :=
  if delivered.isEmpty then some (diagnoseEmptyCapture d.rawEntries d.acceptedEntries) else none

/-- Whether user space warns that no interval was matched. -/
def ProbeDiagnostics.warnsOfScheduler (d : ProbeDiagnostics) : Bool :=
  d.schedulerSwitchOuts > 0 && d.schedulerIntervals == 0

/-! ## What the counters account for -/

def KernelAction.isEntry : KernelAction → Bool
  | .entry _ => true
  | .ret _ | .retDeletes _ | .sample _ | .schedSwitch _ => false

/-- An action that a counter and the records show differently: an entry without a place in `active_by_tid` is counted
and sends no record, a sample is not counted and sends one. -/
inductive Uncounted where
  | refused
  | sampled
deriving DecidableEq

def Machine.uncounted (m : Machine) : KernelAction → List Uncounted
  | .entry ctx => if (m.kernel.activeByTid.lookup ctx.tid).isNone && !ctx.updated then [.refused] else []
  | .sample ctx =>
      if (m.kernel.activeByTid.lookup ctx.tid).isSome && decide (0 ≤ ctx.stackId) then [.sampled] else []
  | .ret _ | .retDeletes _ | .schedSwitch _ => []

/-- Each record that a program sends is in the ring buffer or among the dropped ones, and the counters say how many
were sent. An interval takes a switch-out that is not over, and each switch-out is counted. -/
structure Counted.Accounts (s : Counted) (uncounted : List Uncounted) : Prop where
  accepted : s.diagnostics.acceptedEntries = s.diagnostics.rawEntries
  records : s.machine.kernel.events.length + s.machine.kernel.droppedEvents + uncounted.count .refused =
    s.diagnostics.rawEntries + s.diagnostics.rawReturns + s.diagnostics.schedulerIntervals + uncounted.count .sampled
  entries : s.machine.kernel.events.countP (·.kind = 1) ≤ s.diagnostics.rawEntries
  returns : s.machine.kernel.events.countP (·.kind = 2) ≤ s.diagnostics.rawReturns
  intervals : s.machine.kernel.events.countP (·.kind = 5) ≤ s.diagnostics.schedulerIntervals
  switchOuts : s.diagnostics.schedulerIntervals + s.machine.kernel.offcpuByTid.size ≤ s.diagnostics.schedulerSwitchOuts

end SliceProfiler
