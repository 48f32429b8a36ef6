import SliceProfiler.Core.Format

/-!
# Numbers that fit their types

The numbers of a profile are natural numbers in the model. What builds a profile keeps each of them in the range of
the type that its field has.
-/

namespace SliceProfiler

open Lib

variable {p : Profile} {i : Invocation} {s : Sample} {k : Stack} {f : Frame} {q : CaptureQuality}

theorem satAdd64_le (a b : Nat) : satAdd64 a b ≤ u64Max := min_le_right _ _

theorem satAdd32_le (a b : Nat) : satAdd32 a b ≤ u32Max := min_le_right _ _

/-! ## Records -/

@[simp] theorem fits_u16 (n : Nat) : u16.fits n = decide (n ≤ u16Max) := rfl

@[simp] theorem fits_u32 (n : Nat) : u32.fits n = decide (n ≤ u32Max) := rfl

@[simp] theorem fits_u64 (n : Nat) : u64.fits n = decide (n ≤ u64Max) := rfl

theorem invocation_fits_iff : invocationCodec.fits i = true ↔ i.id ≤ u64Max ∧ i.functionId ≤ u32Max ∧
    (∀ parent, i.parentId = some parent → parent ≤ u64Max) ∧ i.tid ≤ u32Max ∧ i.startNs ≤ u64Max ∧
      i.endNs ≤ u64Max := by
  simp [invocationCodec, u32, u64, Option.all_eq_true]

theorem sample_fits_iff : sampleCodec.fits s = true ↔ s.timestampNs ≤ u64Max ∧ s.invocationId ≤ u64Max ∧
    s.stackId ≤ u32Max ∧ s.tid ≤ u32Max ∧ s.cpu ≤ u32Max ∧ s.weightNs ≤ u64Max := by
  have hstate : executionStateCodec.fits s.state = true := by cases s.state <;> rfl
  simp [sampleCodec, hstate]

theorem frame_fits_iff : frameCodec.fits f = true ↔ (∀ id, f.functionId = some id → id ≤ u32Max) ∧
    ∀ address, f.address = some address → address ≤ u64Max := by
  simp [frameCodec, u32, u64, Option.all_eq_true]

theorem stack_fits_iff : stackCodec.fits k = true ↔ k.id ≤ u32Max ∧ ∀ f ∈ k.frames, frameCodec.fits f = true := by
  simp [stackCodec]

theorem thread_fits_iff {t : Thread} : threadCodec.fits t = true ↔ t.tid ≤ u32Max := by
  have hname : t.name.all Codec.string.fits = true := by cases t.name <;> rfl
  simp [threadCodec, hname]

theorem metadata_fits_iff {m : Metadata} : metadataCodec.fits m = true ↔
    m.capturedAtUnixNs ≤ u64Max ∧ m.samplePeriodNs ≤ u64Max := by
  simp [metadataCodec]

theorem quality_fits_iff : captureQualityCodec.fits q = true ↔ q.eventsGenerated ≤ u64Max ∧ q.eventsDropped ≤ u64Max ∧
    q.samplesGenerated ≤ u64Max ∧ q.samplesDropped ≤ u64Max ∧ q.completeInvocations ≤ u64Max ∧
      q.incompleteInvocations ≤ u64Max ∧ q.stackMismatches ≤ u64Max ∧ q.suspectedAsyncViolations ≤ u64Max := by
  simp [captureQualityCodec]

theorem Profile.fits_iff : p.Fits ↔ p.formatVersion ≤ u16Max ∧ metadataCodec.fits p.metadata = true ∧
    (∀ f ∈ p.functions, functionCodec.fits f = true) ∧ (∀ t ∈ p.threads, threadCodec.fits t = true) ∧
      (∀ i ∈ p.invocations, invocationCodec.fits i = true) ∧ (∀ k ∈ p.stacks, stackCodec.fits k = true) ∧
        (∀ s ∈ p.samples, sampleCodec.fits s = true) ∧ captureQualityCodec.fits p.quality = true := by
  simp [Profile.Fits, profileCodec]

/-! ## Additions -/

theorem Profile.Fits.addInvocation (h : p.Fits) (hi : invocationCodec.fits i = true) :
    { p with invocations := p.invocations ++ [i] }.Fits := by
  obtain ⟨hversion, hmeta, hfunctions, hthreads, hinvocations, hstacks, hsamples, hquality⟩ := Profile.fits_iff.mp h
  refine Profile.fits_iff.mpr ⟨hversion, hmeta, hfunctions, hthreads, ?_, hstacks, hsamples, hquality⟩
  simpa [or_imp, forall_and] using ⟨hinvocations, hi⟩

theorem Profile.Fits.addStack (h : p.Fits) (hk : stackCodec.fits k = true) :
    { p with «stacks» := p.stacks ++ [k] }.Fits := by
  obtain ⟨hversion, hmeta, hfunctions, hthreads, hinvocations, hstacks, hsamples, hquality⟩ := Profile.fits_iff.mp h
  refine Profile.fits_iff.mpr ⟨hversion, hmeta, hfunctions, hthreads, hinvocations, ?_, hsamples, hquality⟩
  simpa [or_imp, forall_and] using ⟨hstacks, hk⟩

theorem Profile.Fits.addSample (h : p.Fits) (hs : sampleCodec.fits s = true) :
    { p with samples := p.samples ++ [s] }.Fits := by
  obtain ⟨hversion, hmeta, hfunctions, hthreads, hinvocations, hstacks, hsamples, hquality⟩ := Profile.fits_iff.mp h
  refine Profile.fits_iff.mpr ⟨hversion, hmeta, hfunctions, hthreads, hinvocations, hstacks, ?_, hquality⟩
  simpa [or_imp, forall_and] using ⟨hsamples, hs⟩

theorem Profile.Fits.setQuality (h : p.Fits) (hq : captureQualityCodec.fits q = true) :
    { p with quality := q }.Fits := by
  obtain ⟨hversion, hmeta, hfunctions, hthreads, hinvocations, hstacks, hsamples, -⟩ := Profile.fits_iff.mp h
  exact Profile.fits_iff.mpr ⟨hversion, hmeta, hfunctions, hthreads, hinvocations, hstacks, hsamples, hq⟩

theorem Profile.Fits.quality (h : p.Fits) : captureQualityCodec.fits p.quality = true :=
  (Profile.fits_iff.mp h).2.2.2.2.2.2.2

end SliceProfiler
