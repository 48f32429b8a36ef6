import SliceProfiler.Capture.Replay
import SliceProfiler.Host.Status
import SliceProfiler.Lib.Checks

/-!
# The command `profile`

`profile` of the command line and the part of `capture_pid` that drives it, one call after the other. The results of
the calls come from outside, and so does the text of a status file, whatever the process does. Between two calls the
profiled process may exit, and the handler of Ctrl-C may do its two steps.
-/

namespace SliceProfiler.Cli

open Lib

/-- The messages of an error, the outermost context first. -/
abbrev Messages := List String

def context {α : Type} (message : String) (r : Except Messages α) : Except Messages α := r.mapError (message :: ·)

/-- An error that leaves the capture adapter is one message. -/
def portError {α : Type} (r : Except Messages α) : Except Messages α := r.mapError fun e => [": ".intercalate e]

structure ProfileArgs where
  pid : Option Nat
  module : Option String
  function : String
  output : String
  program : Option String
  args : List String

/-- `(running_pid, module, launch_program)` -/
def ProfileArgs.target (a : ProfileArgs) : Except Messages (Option Nat × String × Option String) :=
  match a.pid, a.program with
  | some pid, none =>
      match a.module with
      | some module => .ok (some pid, module, none)
      | none => .error ["--module is required when using --pid"]
  | none, some program => .ok (none, a.module.getD program, some program)
  | some _, some _ => .error ["choose either --pid or PROGRAM, not both"]
  | none, none => .error ["provide --pid or a PROGRAM to launch"]

def selectMessage (path : String) : SelectError → String
  | .noFunction requested => s!"no exact executable function named {requested.quote} in {path}"
  | .ambiguous requested addresses =>
      let many := ", ".intercalate (addresses.map fun address => "0x" ++ String.ofList (Nat.toDigits 16 address))
      s!"function {requested.quote} is ambiguous at {many}; use a unique signature"
  | .noOffset => "could not translate function virtual address to an ELF file offset"

structure ProcessIdentity where
  pid : Nat
  kernelTgid : Nat

structure CaptureRequest extends SliceProfiler.CaptureRequest where
  target : ProcessIdentity
  module : String
  probeOffset : Nat
  resumeAfterAttach : Bool

/-- The first check of `capture_pid`. -/
def CaptureRequest.checkTarget (request : CaptureRequest) : Except Messages Unit :=
  if request.target.pid = 0 ∨ request.target.kernelTgid = 0 then
    .error ["PID 0 is not a valid capture target"]
  else .ok ()

/-- `status`: what reading the status file of the process gives. -/
def resolveProcessIdentity (pid : Nat) (status : Except Messages String) : Except Messages ProcessIdentity := do
  ensure (pid ≠ 0) ["PID 0 is not a valid capture target"]
  let status ← context s!"reading process identity from /proc/{pid}/status" status
  let kernelTgid ← require ["process status contained neither a valid NSpid nor Tgid"] (parseKernelTgid status)
  .ok ⟨pid, kernelTgid⟩

/-- What a poll of the ring buffer gives. -/
inductive Poll where
  | ready
  | interrupted
  | failed (e : Messages)

def pollRing (stopRequested : Bool) : Poll → Except Messages Bool
  | .ready => .ok true
  | .interrupted => .ok (!stopRequested)
  | .failed e => context "polling BPF ring buffer" (.error e)

def completeInvocations (p : Profile) : Nat := (p.invocations.filter fun i => i.complete && i.valid).length

def checkProfile (p : Profile) : Except Messages Unit :=
  if completeInvocations p = 0 then
    .error [s!"capture produced no complete valid invocations ({p.quality.eventsGenerated} events, " ++
      s!"{p.samples.length} samples); use the attachment, transport, and identity diagnostics printed above " ++
      "instead of assuming the function was not reached"]
  else .ok ()

/-- The call whose result comes next, with the local variables that are read after it. -/
inductive Pc where
  | spawn (program : String)
  | stopProcess
  | waitForStopped
  | resolveProcessIdentity
  | setHandler (target : ProcessIdentity)
  /-- `capture_pid` up to the ring buffer. -/
  | attach (request : CaptureRequest)
  | resume
  | processExists
  | loadStopRequested
  | poll
  | drain (left : Nat)
  /-- `capture_pid` after the last poll. -/
  | collect
  | writeProfile (profile : Profile)
  | wait
  | returned (result : Except Messages Unit)

inductive Status where
  | running
  | stopped
  | exited
deriving DecidableEq

def Status.stop : Status → Status
  | .running => .stopped
  | status => status

def Status.continue : Status → Status
  | .stopped => .running
  | status => status

/-- The handler stores the request to stop, and then interrupts the child. -/
inductive Handler where
  | missing
  | idle
  | stored
deriving DecidableEq

structure Session where
  args : ProfileArgs
  module : String
  selected : SelectedSymbol
  /-- Of the profiled process, once there is one. -/
  pid : Nat
  command : List String := []
  /-- `child.is_some()` -/
  launched : Bool := false
  pc : Pc
  status : Status := .running
  resumed : Bool := false
  killed : Bool := false
  interrupted : Bool := false
  handler : Handler := .missing
  stopRequested : Bool := false

variable (demangle : String → Option String) (read : String → Except Messages ElfFile)

/-- The calls up to the one that launches or finds the process. -/
def Session.start (args : ProfileArgs) : Except Messages Session := do
  let (runningPid, module, launchProgram) ← args.target
  let file ← read module
  let selected ← (selectSymbol demangle file args.function).mapError fun e => [selectMessage module e]
  .ok { args, module, selected
        pid := runningPid.getD 0
        pc := match launchProgram with
          | some program => .spawn program
          | none => .resolveProcessIdentity }

def Session.fail (s : Session) (e : Messages) : Session := { s with pc := .returned (.error e) }

/-- `if let Some(launched) = child.as_ref() { let _ = adapter.kill_process(launched.id()); }` -/
def Session.killChild (s : Session) : Session := { s with killed := s.killed || s.launched }

variable {α : Type}

/-- The operator `?`. -/
def Session.orFail (s : Session) (r : Except Messages α) (next : α → Session) : Session :=
  match r with
  | .ok a => next a
  | .error e => s.fail e

/-- An error return with a kill of the child in front of it. -/
def Session.orKill (s : Session) (r : Except Messages α) (next : α → Session) : Session :=
  match r with
  | .ok a => next a
  | .error e => s.killChild.fail e

/-- The result of a call inside `capture_pid`. -/
def Session.orFailCapture (s : Session) (r : Except Messages α) (next : α → Session) : Session :=
  s.orKill (context s!"capturing PID {s.pid} at {s.selected.demangledName}" (portError r)) next

def Session.request (s : Session) (target : ProcessIdentity) : CaptureRequest where
  target
  module := s.module
  function :=
    { id := 1
      module := s.module
      moduleBuildId := none
      address := s.selected.address
      name := s.selected.rawName
      demangledName := s.selected.demangledName
      sourceFile := none
      line := none }
  probeOffset := s.selected.probeOffset
  command := s.command
  resumeAfterAttach := s.launched

inductive Answer where
  | done (r : Except Messages Unit)
  | spawned (r : Except Messages Nat)
  /-- The text of the status file of the process, or the error of reading it. -/
  | status (text : Except Messages String)
  | polled (r : Poll)
  | collected (profile : Profile)
  /-- The call only looks at what the handler has done. -/
  | seen

/-- What `profile` does with the result of its call. -/
def Session.answer (s : Session) (a : Answer) : Option Session :=
  match s.pc, a with
  | .spawn program, .spawned r =>
      some (s.orFail (context s!"launching {program}" r) fun pid =>
        { s with pid, launched := true, command := program :: s.args.args, pc := .stopProcess })
  | .stopProcess, .done r =>
      some (s.orKill r fun _ => { s with status := s.status.stop, pc := .waitForStopped })
  | .waitForStopped, .done r => some (s.orKill r fun _ => { s with pc := .resolveProcessIdentity })
  | .resolveProcessIdentity, .status text =>
      some (s.orFail
        (context s!"resolving PID namespace identity for {s.pid}" (portError (resolveProcessIdentity s.pid text)))
        fun target => { s with pc := .setHandler target })
  | .setHandler target, .done r =>
      some (s.orKill (context "installing Ctrl-C handler" r) fun _ =>
        { s with handler := .idle, pc := .attach (s.request target) })
  | .attach request, .done r =>
      some (s.orFailCapture (request.checkTarget.bind fun _ => r) fun _ =>
        { s with pc := if request.resumeAfterAttach then .resume else .processExists })
  | .resume, .done r =>
      some (s.orFailCapture (context "resuming launched target" r) fun _ =>
        { s with status := s.status.continue, resumed := true, pc := .processExists })
  | .processExists, .status text =>
      some { s with pc := if processExists text.toOption then .loadStopRequested else .drain 3 }
  | .loadStopRequested, .seen => some { s with pc := if s.stopRequested then .drain 3 else .poll }
  | .poll, .polled r =>
      some (s.orFailCapture (pollRing s.stopRequested r) fun more =>
        { s with pc := if more then .processExists else .drain 3 })
  | .drain left, .polled r =>
      some (s.orFailCapture (pollRing s.stopRequested r) fun more =>
        { s with pc := if more && decide (1 < left) then .drain (left - 1) else .collect })
  | .collect, .collected profile =>
      some (s.orFail (checkProfile profile) fun _ => { s with pc := .writeProfile profile })
  | .writeProfile _, .done r =>
      some (s.orKill r fun _ => { s with pc := if s.launched then .wait else .returned (.ok ()) })
  | .wait, .done r =>
      some (s.orFail (context "waiting for launched target" r) fun _ => { s with pc := .returned (.ok ()) })
  | _, _ => none

theorem Session.answer_returned {s : Session} {r : Except Messages Unit} (h : s.pc = .returned r) (a : Answer) :
    s.answer a = none := by
  simp only [Session.answer, h]

inductive Event where
  | answer (a : Answer)
  | exits
  | ctrlC
  /-- The second step of the handler; `delivered` when both signals of `interrupt_process` are sent. -/
  | interrupts (delivered : Bool)

def Session.step (s : Session) : Event → Option Session
  | .answer a => s.answer a
  | .exits => some { s with status := .exited }
  | .ctrlC =>
      if s.handler = .idle then
        some { s with stopRequested := true, handler := if s.launched then .stored else .idle }
      else none
  | .interrupts delivered =>
      if s.handler = .stored then
        some { s with
          handler := .idle
          interrupted := s.interrupted || delivered
          status := if delivered then s.status.continue else s.status }
      else none

/-! ## Orphans -/

/-- An error return has sent a kill to the child, or the child was resumed and has exited or been interrupted. It does
not leave the child stopped. -/
def Session.NoOrphan (s : Session) : Prop :=
  ∀ e, s.pc = .returned (.error e) → s.launched = true →
    (s.killed = true ∨ s.resumed = true ∧ (s.status = .exited ∨ s.interrupted = true)) ∧
      (s.status = .stopped → s.killed = true)

/-- The child has been interrupted or has exited. -/
def Session.Reached (s : Session) : Prop := s.interrupted = true ∨ s.status = .exited

/-- The identity of a child is resolved, and the errors behind the capture that send no kill come to a child that has
been interrupted or has exited. -/
structure Session.Clean (s : Session) (e : Event) : Prop where
  resolved : s.launched = true → s.pc = .resolveProcessIdentity → ∀ text, e = .answer (.status text) →
    (resolveProcessIdentity s.pid text).isOk = true
  collected : s.launched = true → s.pc = .collect → ∀ profile, e = .answer (.collected profile) →
    completeInvocations profile = 0 → s.Reached
  waited : s.launched = true → s.pc = .wait → ∀ r, e = .answer (.done r) → r.isOk = false → s.Reached

/-! ## The end of the capture -/

/-- The process has exited, or a request to stop is stored. -/
def Session.Ended (s : Session) : Prop := s.status = .exited ∨ s.stopRequested = true

/-- What the kernel answers fits the process: the status file of a process that has exited is gone or a zombie's, and a
wait for the child returns behind its exit. -/
def Session.fits (s : Session) : Event → Bool
  | .answer a =>
      match s.pc, a with
      | .processExists, .status text => s.status != .exited || !processExists text.toOption
      | .wait, _ => s.status == .exited
      | _, _ => true
  | _ => true

/-- The only call that lasts as long as the child. -/
def Session.Waits (s : Session) : Prop := s.pc = .wait ∧ s.status ≠ .exited

/-- `profile` has returned, with a success or an error. -/
def Session.Returned (s : Session) : Prop := ∃ r, s.pc = .returned r

end SliceProfiler.Cli
