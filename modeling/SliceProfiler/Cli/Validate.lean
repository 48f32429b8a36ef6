import SliceProfiler.Cli.Discover
import SliceProfiler.Core.Format

/-!
# The command `validate`
-/

namespace SliceProfiler.Cli

open Lib

inductive ValidateError where
  | readProfile (path : String) (e : ProfileError)
  | validation (path : String) (e : ProfileValidationError)
  | missing (message : String)

structure ValidateArgs where
  path : String
  requireComplete : Bool := false
  requireSamples : Bool := false
  requireOffCpu : Bool := false

/-- The numbers of the printed line. -/
structure ValidationReport where
  invocations : Nat
  samples : Nat
  onCpuSamples : Nat
  offCpuSamples : Nat
  offCpuNs : Nat
  eventsDropped : Nat
  samplesDropped : Nat
deriving DecidableEq

/-- `bytes`: what the file of the profile holds. -/
def validate (l : FileLayers) (bytes : List UInt8) (a : ValidateArgs) : Except ValidateError ValidationReport := do
  let p ← (Profile.fromBytes l bytes).mapError (.readProfile a.path)
  let _ ← p.validate.mapError (.validation a.path)
  ensure (¬ (a.requireComplete && !p.invocations.any fun i => i.complete && i.valid))
    (.missing "profile contains no complete valid invocations")
  ensure (¬ (a.requireSamples && p.samples.isEmpty)) (.missing "profile contains no samples")
  let summary := p.sampleSummary
  ensure (¬ (a.requireOffCpu && summary.offCpuSamples == 0)) (.missing "profile contains no off-CPU samples")
  .ok {
    invocations := p.invocations.length
    samples := p.samples.length
    onCpuSamples := summary.onCpuSamples
    offCpuSamples := summary.offCpuSamples
    offCpuNs := summary.offCpuNs
    eventsDropped := p.quality.eventsDropped
    samplesDropped := p.quality.samplesDropped }

/-! ## What it means -/

/-- The profile has what the arguments require. -/
structure ValidateArgs.MetBy (a : ValidateArgs) (p : Profile) : Prop where
  complete : a.requireComplete = true → ∃ i ∈ p.invocations, i.complete = true ∧ i.valid = true
  samples : a.requireSamples = true → p.samples ≠ []
  offCpu : a.requireOffCpu = true → ∃ s ∈ p.samples, s.state = .offCpu

/-- The report counts every sample once, and the time of the blocked ones. -/
structure ValidationReport.CountsOf (r : ValidationReport) (p : Profile) : Prop where
  invocations : r.invocations = p.invocations.length
  samples : r.samples = p.samples.length
  onCpuSamples : r.onCpuSamples = p.samples.countP (·.state = .onCpu)
  offCpuSamples : r.offCpuSamples = p.samples.countP (·.state = .offCpu)
  total : r.onCpuSamples + r.offCpuSamples = r.samples
  offCpuNs : r.offCpuNs = min ((p.samples.filter fun s => s.state = .offCpu).map (·.weightNs)).sum u64Max
  eventsDropped : r.eventsDropped = p.quality.eventsDropped
  samplesDropped : r.samplesDropped = p.quality.samplesDropped

end SliceProfiler.Cli
