import SliceProfiler.Core.Validate
import SliceProfiler.Lib.Json

/-!
# The file format

A profile as a JSON tree, and the file: the magic bytes, then the compressed text of the tree.
-/

namespace SliceProfiler

open Lib

/-! ## The records as JSON trees -/

def u16Max : Nat := 0xFFFF

def u16 : Codec Nat := .natural u16Max

def u32 : Codec Nat := .natural u32Max

def u64 : Codec Nat := .natural u64Max

theorem natural_ne_null {max n : Nat} : (Codec.natural max).encode n ≠ .null := nofun

theorem string_ne_null {s : String} : Codec.string.encode s ≠ .null := nofun

def metadataCodec : Codec Metadata := .record
  (.cons "captured_at_unix_ns" u64 <| .cons "command" (.list .string) <| .cons "kernel_release" .string <|
    .cons "sample_period_ns" u64 .nil)
  (by decide)
  ⟨fun m => (m.capturedAtUnixNs, m.command, m.kernelRelease, m.samplePeriodNs, ()),
    fun (capturedAtUnixNs, command, kernelRelease, samplePeriodNs, _) =>
      ⟨capturedAtUnixNs, command, kernelRelease, samplePeriodNs⟩, fun _ => rfl, fun _ => rfl⟩

def functionCodec : Codec Function := .record
  (.cons "id" u32 <| .cons "module" .string <| .cons "module_build_id" (.option .string fun _ => string_ne_null) <|
    .cons "address" u64 <| .cons "name" .string <| .cons "demangled_name" .string <|
    .cons "source_file" (.option .string fun _ => string_ne_null) <|
    .cons "line" (.option u32 fun _ => natural_ne_null) .nil)
  (by decide)
  ⟨fun f => (f.id, f.module, f.moduleBuildId, f.address, f.name, f.demangledName, f.sourceFile, f.line, ()),
    fun (id, module, moduleBuildId, address, name, demangledName, sourceFile, line, _) =>
      ⟨id, module, moduleBuildId, address, name, demangledName, sourceFile, line⟩, fun _ => rfl, fun _ => rfl⟩

def threadCodec : Codec Thread := .record
  (.cons "tid" u32 <| .cons "name" (.option .string fun _ => string_ne_null) .nil)
  (by decide)
  ⟨fun t => (t.tid, t.name, ()), fun (tid, name, _) => ⟨tid, name⟩, fun _ => rfl, fun _ => rfl⟩

def invocationCodec : Codec Invocation := .record
  (.cons "id" u64 <| .cons "function_id" u32 <| .cons "parent_id" (.option u64 fun _ => natural_ne_null) <|
    .cons "tid" u32 <| .cons "start_ns" u64 <| .cons "end_ns" u64 <| .cons "complete" .bool <|
    .cons "valid" .bool .nil)
  (by decide)
  ⟨fun i => (i.id, i.functionId, i.parentId, i.tid, i.startNs, i.endNs, i.complete, i.valid, ()),
    fun (id, functionId, parentId, tid, startNs, endNs, complete, valid, _) =>
      ⟨id, functionId, parentId, tid, startNs, endNs, complete, valid⟩, fun _ => rfl, fun _ => rfl⟩

def frameCodec : Codec Frame := .record
  (.cons "function_id" (.option u32 fun _ => natural_ne_null) <| .cons "label" .string <|
    .cons "module" (.option .string fun _ => string_ne_null) <|
    .cons "address" (.option u64 fun _ => natural_ne_null) .nil)
  (by decide)
  ⟨fun f => (f.functionId, f.label, f.module, f.address, ()),
    fun (functionId, label, module, address, _) => ⟨functionId, label, module, address⟩, fun _ => rfl, fun _ => rfl⟩

def stackCodec : Codec Stack := .record
  (.cons "id" u32 <| .cons "frames" (.list frameCodec) .nil)
  (by decide)
  ⟨fun k => (k.id, k.frames, ()), fun (id, frames, _) => ⟨id, frames⟩, fun _ => rfl, fun _ => rfl⟩

/-- `#[serde(rename_all = "snake_case")]` -/
def ExecutionState.snakeCase : ExecutionState → String
  | .onCpu => "on_cpu"
  | .offCpu => "off_cpu"

def executionStateCodec : Codec ExecutionState := .constants [.onCpu, .offCpu] ExecutionState.snakeCase (by decide)

def sampleCodec : Codec Sample := .record
  (.cons "timestamp_ns" u64 <| .cons "invocation_id" u64 <| .cons "stack_id" u32 <| .cons "tid" u32 <|
    .cons "cpu" u32 <| .cons "state" executionStateCodec <| .cons "weight_ns" u64 .nil)
  (by decide)
  ⟨fun s => (s.timestampNs, s.invocationId, s.stackId, s.tid, s.cpu, s.state, s.weightNs, ()),
    fun (timestampNs, invocationId, stackId, tid, cpu, state, weightNs, _) =>
      ⟨timestampNs, invocationId, stackId, tid, cpu, state, weightNs⟩, fun _ => rfl, fun _ => rfl⟩

def captureQualityCodec : Codec CaptureQuality := .record
  (.cons "events_generated" u64 <| .cons "events_dropped" u64 <| .cons "samples_generated" u64 <|
    .cons "samples_dropped" u64 <| .cons "complete_invocations" u64 <| .cons "incomplete_invocations" u64 <|
    .cons "stack_mismatches" u64 <| .cons "suspected_async_violations" u64 .nil)
  (by decide)
  ⟨fun q => (q.eventsGenerated, q.eventsDropped, q.samplesGenerated, q.samplesDropped, q.completeInvocations,
      q.incompleteInvocations, q.stackMismatches, q.suspectedAsyncViolations, ()),
    fun (eventsGenerated, eventsDropped, samplesGenerated, samplesDropped, completeInvocations,
        incompleteInvocations, stackMismatches, suspectedAsyncViolations, _) =>
      ⟨eventsGenerated, eventsDropped, samplesGenerated, samplesDropped, completeInvocations,
        incompleteInvocations, stackMismatches, suspectedAsyncViolations⟩, fun _ => rfl, fun _ => rfl⟩

def profileCodec : Codec Profile := .record
  (.cons "format_version" u16 <| .cons "metadata" metadataCodec <| .cons "functions" (.list functionCodec) <|
    .cons "threads" (.list threadCodec) <| .cons "invocations" (.list invocationCodec) <|
    .cons "stacks" (.list stackCodec) <| .cons "samples" (.list sampleCodec) <|
    .cons "quality" captureQualityCodec .nil)
  (by decide)
  ⟨fun p => (p.formatVersion, p.metadata, p.functions, p.threads, p.invocations, p.stacks, p.samples, p.quality, ()),
    fun (formatVersion, metadata, functions, threads, invocations, stackList, samples, quality, _) =>
      ⟨formatVersion, metadata, functions, threads, invocations, stackList, samples, quality⟩,
    fun _ => rfl, fun _ => rfl⟩

/-- Every number of the profile fits the type that its field has in the source. -/
def Profile.Fits (p : Profile) : Prop := profileCodec.fits p = true

instance : DecidablePred Profile.Fits := fun p => inferInstanceAs (Decidable (profileCodec.fits p = true))

/-! ## Files -/

inductive ProfileError where
  | invalidMagic
  | unsupportedVersion (version : Nat)
  | io
  | json
  | invalidProfile (error : ProfileValidationError)
deriving DecidableEq

/-- `serde_json` between trees and their texts, and `zstd` between texts and payloads. -/
structure FileLayers where
  toVec : Json → Option (List UInt8)
  fromSlice : List UInt8 → Option Json
  encodeAll : List UInt8 → Nat → Option (List UInt8)
  decodeAll : List UInt8 → Option (List UInt8)

/-- Both layers read back what they wrote for the tree. -/
def FileLayers.Lossless (l : FileLayers) (tree : Json) : Prop :=
  ∃ text payload, l.toVec tree = some text ∧ l.fromSlice text = some tree ∧
    l.encodeAll text 9 = some payload ∧ l.decodeAll payload = some text

/-- `b"SLICE\0\x01\n"` -/
def fileMagic : List UInt8 := [0x53, 0x4C, 0x49, 0x43, 0x45, 0x00, 0x01, 0x0A]

def Profile.toBytes (l : FileLayers) (p : Profile) : Except ProfileError (List UInt8) := do
  let json ← require .json (l.toVec (profileCodec.encode p))
  let compressed ← require .io (l.encodeAll json 9)
  .ok (fileMagic ++ compressed)

def Profile.fromBytes (l : FileLayers) (bytes : List UInt8) : Except ProfileError Profile := do
  let payload ← require .invalidMagic (bytes.dropPrefix? fileMagic)
  let json ← require .io (l.decodeAll payload)
  let profile ← require .json ((l.fromSlice json).bind profileCodec.decode)
  ensure (profile.formatVersion = 1) (.unsupportedVersion profile.formatVersion)
  profile.validate.mapError .invalidProfile
  .ok profile

end SliceProfiler
