import Mathlib.Data.Prod.Lex
import SliceProfiler.Host.Status

/-!
# The prerequisites of a capture

The checks of the command `doctor` on what it reads of the host, and what it prints of them.
-/

namespace SliceProfiler

open Lib

inductive CheckStatus where
  | pass
  | warning
  | failure
deriving DecidableEq

structure PrerequisiteCheck where
  key : String
  label : String
  status : CheckStatus
  detail : String
  remediation : Option String
deriving DecidableEq

structure DoctorReport where
  adapter : String
  checks : List PrerequisiteCheck

def DoctorReport.hasFailures (report : DoctorReport) : Bool := report.checks.any (·.status = .failure)

/-! ## What is read -/

/-- What a read gives, as far as the check of the tracepoint tells it. -/
inductive FileRead where
  | data
  | permissionDenied
  | failed
deriving DecidableEq

inductive AccessStatus where
  | available
  | permissionDenied
  | missing
deriving DecidableEq

def AccessStatus.asStr : AccessStatus → String
  | .available => "available"
  | .permissionDenied => "permission denied"
  | .missing => "missing"

/-- The loop over the paths. -/
def accessLoop (permissionDenied : Bool) : List FileRead → AccessStatus
  | [] => if permissionDenied then .permissionDenied else .missing
  | .data :: _ => .available
  | .permissionDenied :: reads => accessLoop true reads
  | .failed :: reads => accessLoop permissionDenied reads

/-- The reads of the format of `sched_switch` under `/sys/kernel/tracing` and under `/sys/kernel/debug/tracing`. -/
def tracepointAccess (tracing debugTracing : FileRead) : AccessStatus := accessLoop false [tracing, debugTracing]

def kernelAtLeast (release : List Char) (requiredMajor requiredMinor : Nat) : Bool :=
  let component := fun i : Nat =>
    ((release.splitOn '.')[i]?).bind fun number => (parseUnsigned u32Max number).toOption
  ((component 0).bind fun major => (component 1).map fun minor => toLex (major, minor)).any fun version =>
    toLex (requiredMajor, requiredMinor) ≤ version

/-- `haystack.windows(size)` -/
def windows {α : Type} (size : Nat) (haystack : List α) : List (List α) :=
  (List.range (haystack.length + 1 - size)).map fun i => (haystack.drop i).take size

def containsBytes (haystack needle : List UInt8) : Bool := (windows needle.length haystack).any (· = needle)

/-- `b"BPF_TRACE_UPROBE_MULTI\0"` -/
def uprobeMultiName : List UInt8 :=
  [66, 80, 70, 95, 84, 82, 65, 67, 69, 95, 85, 80, 82, 79, 66, 69, 95, 77, 85, 76, 84, 73, 0]

/-- What is read of the host: texts and bytes of the files that can be read. -/
structure DoctorHost where
  arch : String
  kernelRelease : Option String
  btfIsFile : Bool
  btf : Option (List UInt8)
  tracing : FileRead
  debugTracing : FileRead
  isRoot : Bool
  status : Option String
  perf : Option String
  unprivilegedBpf : Option String
  limits : Option String

variable (host : DoctorHost)

def trimmedText (text : Option String) : String := String.ofList (trim isWhitespace (text.getD "unavailable").toList)

def DoctorHost.release : String := trimmedText host.kernelRelease

def DoctorHost.uprobeMultiNamed : Bool := host.btf.any fun btf => containsBytes btf uprobeMultiName

def DoctorHost.captureAuthorized : Bool :=
  host.isRoot || (effectiveCapability host.status 39 && effectiveCapability host.status 38 &&
    effectiveCapability host.status 19)

def yesNo (value : Bool) : String := if value then "yes" else "no"

/-! ## The checks -/

def architectureCheck : PrerequisiteCheck where
  key := "architecture"
  label := "architecture"
  status := if host.arch = "x86_64" then .pass else .failure
  detail := host.arch
  remediation := if host.arch ≠ "x86_64" then some "run Slice on Linux x86-64" else none

def kernelCheck : PrerequisiteCheck where
  key := "kernel"
  label := "kernel release"
  status := if kernelAtLeast host.release.toList 6 6 then .pass else .failure
  detail := host.release
  remediation :=
    if !kernelAtLeast host.release.toList 6 6 then
      some "upgrade to Linux 6.6+; for WSL run `wsl --update` and `wsl --shutdown` in Administrator PowerShell"
    else none

def btfCheck : PrerequisiteCheck where
  key := "btf"
  label := "kernel BTF"
  status := if host.btfIsFile then .pass else .failure
  detail := if host.btfIsFile then "available" else "missing /sys/kernel/btf/vmlinux"
  remediation := if !host.btfIsFile then some "boot a kernel built with BTF information" else none

def uprobeMultiCheck : PrerequisiteCheck where
  key := "uprobe_multi"
  label := "process-wide uprobe-multi links"
  status := if host.uprobeMultiNamed then .pass else .failure
  detail :=
    if host.uprobeMultiNamed then "BPF_TRACE_UPROBE_MULTI present in kernel BTF"
    else "BPF_TRACE_UPROBE_MULTI not found in kernel BTF"
  remediation :=
    if !host.uprobeMultiNamed then some "boot a Linux 6.6+ kernel with CONFIG_UPROBES and CONFIG_BPF_EVENTS" else none

def schedSwitchCheck : PrerequisiteCheck where
  key := "sched_switch"
  label := "sched_switch tracepoint"
  status :=
    match tracepointAccess host.tracing host.debugTracing with
    | .available => .pass
    | .permissionDenied => if !host.captureAuthorized then .warning else .failure
    | .missing => .failure
  detail := (tracepointAccess host.tracing host.debugTracing).asStr
  remediation :=
    match tracepointAccess host.tracing host.debugTracing with
    | .available => none
    | .permissionDenied => some "rerun `slice doctor` with the same sudo/capabilities used for capture"
    | .missing => some "mount tracefs and enable sched_switch tracing"

def authorityCheck : PrerequisiteCheck where
  key := "authority"
  label := "capture authority"
  status := if host.captureAuthorized then .pass else .warning
  detail :=
    if host.isRoot then "root"
    else "CAP_BPF=" ++ yesNo (effectiveCapability host.status 39) ++ ", CAP_PERFMON=" ++
      yesNo (effectiveCapability host.status 38) ++ ", CAP_SYS_PTRACE=" ++ yesNo (effectiveCapability host.status 19)
  remediation :=
    if !host.captureAuthorized then
      some "run `slice doctor` and `slice profile` with sudo, or grant CAP_BPF,CAP_PERFMON,CAP_SYS_PTRACE"
    else none

/-- The checks that only show something of the host. -/
def shownCheck (key label detail : String) : PrerequisiteCheck := ⟨key, label, .pass, detail, none⟩

def memlockDetail (limits : Option String) : String :=
  ((limits.bind fun limits => (lines limits.toList).find? fun line => "Max locked memory".toList.isPrefixOf line).map
    String.ofList).getD "unavailable"

/-- `kernel_release.to_ascii_lowercase().contains("microsoft")` -/
def namesMicrosoft (release : String) : Bool := "microsoft".toList <:+: release.toList.map Char.toLower

def linuxDoctorReport : DoctorReport where
  adapter := "linux-ebpf"
  checks :=
    [architectureCheck host, kernelCheck host, btfCheck host, uprobeMultiCheck host, schedSwitchCheck host,
      authorityCheck host,
      shownCheck "perf_event_paranoid" "perf_event_paranoid" (trimmedText host.perf),
      shownCheck "unprivileged_bpf_disabled" "unprivileged_bpf_disabled" (trimmedText host.unprivilegedBpf),
      shownCheck "memlock" "memlock limit" (memlockDetail host.limits)] ++
    if namesMicrosoft host.release then [shownCheck "wsl" "WSL" "WSL 2 detected"] else []

/-! ## The command -/

def CheckStatus.marker : CheckStatus → String
  | .pass => "ok"
  | .warning => "warn"
  | .failure => "fail"

def checkLines (check : PrerequisiteCheck) : List String :=
  ("  [" ++ check.status.marker ++ "] " ++ check.label ++ ": " ++ check.detail) ::
    (check.remediation.map ("         fix: " ++ ·)).toList

def DoctorReport.failures (report : DoctorReport) : Nat := report.checks.countP (·.status = .failure)

def DoctorReport.warnings (report : DoctorReport) : Nat := report.checks.countP (·.status = .warning)

/-- `report.checks.len() - warnings - failures` -/
def DoctorReport.passed (report : DoctorReport) : Nat := report.checks.length - report.warnings - report.failures

/-- The lines that are printed, and how the command ends. -/
def doctor (report : DoctorReport) : List String × Except String Unit :=
  (("Slice doctor (adapter: " ++ report.adapter ++ ")") :: report.checks.flatMap checkLines ++
      ["Doctor summary: " ++ toString report.passed ++ " passed, " ++ toString report.warnings ++ " warnings, " ++
        toString report.failures ++ " failures"],
    if report.hasFailures then
      .error "capture prerequisites failed; apply the fixes shown above and rerun `slice doctor`"
    else .ok ())

/-! ## What is asked of a host -/

/-- A version of two numbers, with anything behind a further dot. -/
def ReleaseAtLeast (release : List Char) (requiredMajor requiredMinor : Nat) : Prop :=
  ∃ major minor rest n m, release.splitOn '.' = major :: minor :: rest ∧ Numeral major n ∧ n ≤ u32Max ∧
    Numeral minor m ∧ m ≤ u32Max ∧ (requiredMajor < n ∨ requiredMajor = n ∧ requiredMinor ≤ m)

structure DoctorHost.Suffices : Prop where
  arch : host.arch = "x86_64"
  release : ReleaseAtLeast host.release.toList 6 6
  btf : host.btfIsFile = true
  uprobeMulti : ∃ btf, host.btf = some btf ∧ uprobeMultiName <:+: btf
  /-- Without the authority to capture, a tracepoint that may not be read is no failure. -/
  tracepoint : .data ∈ [host.tracing, host.debugTracing] ∨
    host.captureAuthorized = false ∧ .permissionDenied ∈ [host.tracing, host.debugTracing]

/-- Every line of the report that asks for something says how to get it, and only these do. -/
def DoctorReport.Remedied (report : DoctorReport) : Prop :=
  ∀ check ∈ report.checks, check.remediation = none ↔ check.status = .pass

end SliceProfiler
