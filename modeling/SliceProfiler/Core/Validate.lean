import SliceProfiler.Core.Profile
import SliceProfiler.Lib.Checks
import SliceProfiler.Lib.Maps
import SliceProfiler.Lib.Walk

/-!
# Validation of a profile
-/

namespace SliceProfiler

open Lib

inductive ProfileValidationError where
  | unsupportedVersion (version : Nat)
  | duplicateId (kind : String) (id : Nat)
  | unknownFunction (record : String) (id : Nat)
  | unknownThread (tid : Nat)
  | unknownInvocation (id : Nat)
  | cyclicInvocationParent (id : Nat)
  | unknownStack (id : Nat)
  | invalidInvocationBounds (id : Nat)
  | sampleThreadMismatch (sampleInvocation sampleTid invocationTid : Nat)
  | sampleOutsideInvocation (id : Nat)
  | qualityCountersInconsistent
deriving DecidableEq

def uniqueIds (ids : List Nat) (kind : String) : Except ProfileValidationError (Finset Nat) :=
  insertAll (.duplicateId kind) ∅ ids

def uniqueU32Ids (ids : List Nat) (kind : String) := uniqueIds ids kind

def uniqueU64Ids (ids : List Nat) (kind : String) := uniqueIds ids kind

/-- The parent recorded for an id. -/
def Profile.parents (p : Profile) : Map Nat (Option Nat) :=
  Map.ofList (p.invocations.map fun i => (i.id, i.parentId))

/-- `parents.get(&id).copied().flatten()` -/
def Profile.parentOf (p : Profile) (id : Nat) : Option Nat := (p.parents.lookup id).join

/-- The ancestry loop of one invocation. -/
def Profile.ancestry (p : Profile) (id : Nat) : Option Bool :=
  walk p.parentOf (p.invocations.length + 2) ∅ (some id)

def Profile.validateInvocation (p : Profile) (functionIds threadIds invocationIds : Finset Nat)
    (i : Invocation) : Except ProfileValidationError Unit := do
  ensure (i.functionId ∈ functionIds) (.unknownFunction "invocation" i.functionId)
  ensure (i.tid ∈ threadIds) (.unknownThread i.tid)
  ensure (i.startNs ≤ i.endNs) (.invalidInvocationBounds i.id)
  checkOption (fun parentId => ensure (parentId ∈ invocationIds) (.unknownInvocation parentId)) i.parentId
  ensure (p.ancestry i.id ≠ some true) (.cyclicInvocationParent i.id)

def validateFrame (functionIds : Finset Nat) (f : Frame) : Except ProfileValidationError Unit :=
  checkOption (fun functionId => ensure (functionId ∈ functionIds) (.unknownFunction "frame" functionId))
    f.functionId

def Profile.validateSample (p : Profile) (invocationIds stackIds : Finset Nat) (s : Sample) :
    Except ProfileValidationError Unit := do
  ensure (s.invocationId ∈ invocationIds) (.unknownInvocation s.invocationId)
  ensure (s.stackId ∈ stackIds) (.unknownStack s.stackId)
  match p.invocations.find? (fun i => i.id = s.invocationId) with
  | some i =>
      ensure (s.tid = i.tid) (.sampleThreadMismatch s.invocationId s.tid i.tid)
      ensure (i.startNs ≤ s.timestampNs ∧ s.timestampNs ≤ i.endNs) (.sampleOutsideInvocation s.invocationId)
  -- the source unwraps here: the first check leaves no other case
  | none => .error (.unknownInvocation s.invocationId)

def Profile.validate (p : Profile) : Except ProfileValidationError Unit := do
  ensure (p.formatVersion = 1) (.unsupportedVersion p.formatVersion)
  let functionIds ← uniqueU32Ids (p.functions.map (·.id)) "function"
  let threadIds ← uniqueU32Ids (p.threads.map (·.tid)) "thread"
  let invocationIds ← uniqueU64Ids (p.invocations.map (·.id)) "invocation"
  let stackIds ← uniqueU32Ids (p.stacks.map (·.id)) "stack"
  checkAll (p.validateInvocation functionIds threadIds invocationIds) p.invocations
  checkAll (fun s => checkAll (validateFrame functionIds) s.frames) p.stacks
  checkAll (p.validateSample invocationIds stackIds) p.samples
  let complete := p.invocations.countP fun i => i.complete && i.valid
  let incomplete := p.invocations.countP fun i => !i.complete || !i.valid
  ensure (¬ (p.quality.completeInvocations > complete ∨ p.quality.incompleteInvocations > incomplete ∨
    p.quality.samplesGenerated < p.samples.length)) .qualityCountersInconsistent

/-! ## Well-formed profiles -/

/-- The invocation `parent` is the recorded parent of the invocation `child`. -/
def Profile.IsParent (p : Profile) (parent child : Nat) : Prop :=
  ∃ i ∈ p.invocations, i.id = child ∧ i.parentId = some parent

/-- The chain of parents from an invocation reaches an invocation without a parent. -/
inductive Profile.Rooted (p : Profile) : Nat → Prop where
  | root {i : Invocation} : i ∈ p.invocations → i.parentId = none → p.Rooted i.id
  | child {i : Invocation} {parent : Nat} :
      i ∈ p.invocations → i.parentId = some parent → p.Rooted parent → p.Rooted i.id

/-- Following the recorded parents from an id reaches an id without one. -/
def Profile.ReachesTop (p : Profile) (id : Nat) : Prop :=
  ∃ top, Relation.ReflTransGen (fun child parent => p.IsParent parent child) id top ∧ ∀ q, ¬ p.IsParent q top

structure Invocation.WellFormed (p : Profile) (i : Invocation) : Prop where
  function : ∃ f ∈ p.functions, f.id = i.functionId
  thread : ∃ t ∈ p.threads, t.tid = i.tid
  bounds : i.startNs ≤ i.endNs
  parent : ∀ q, i.parentId = some q → ∃ j ∈ p.invocations, j.id = q
  rooted : p.Rooted i.id

structure Sample.WellFormed (p : Profile) (s : Sample) : Prop where
  stack : ∃ k ∈ p.stacks, k.id = s.stackId
  invocation : ∃ i ∈ p.invocations, i.id = s.invocationId ∧ i.tid = s.tid ∧
    i.startNs ≤ s.timestampNs ∧ s.timestampNs ≤ i.endNs

structure CaptureQuality.Consistent (q : CaptureQuality) (p : Profile) : Prop where
  complete : q.completeInvocations ≤ p.invocations.countP fun i => i.complete && i.valid
  incomplete : q.incompleteInvocations ≤ p.invocations.countP fun i => !i.complete || !i.valid
  samples : p.samples.length ≤ q.samplesGenerated

/-- What consumers may assume of a profile. -/
structure Profile.WellFormed (p : Profile) : Prop where
  version : p.formatVersion = 1
  functionIds : (p.functions.map (·.id)).Nodup
  threadIds : (p.threads.map (·.tid)).Nodup
  invocationIds : (p.invocations.map (·.id)).Nodup
  stackIds : (p.stacks.map (·.id)).Nodup
  invocations : ∀ i ∈ p.invocations, i.WellFormed p
  frames : ∀ k ∈ p.stacks, ∀ f ∈ k.frames, ∀ id, f.functionId = some id → ∃ g ∈ p.functions, g.id = id
  samples : ∀ s ∈ p.samples, s.WellFormed p
  quality : p.quality.Consistent p

end SliceProfiler
