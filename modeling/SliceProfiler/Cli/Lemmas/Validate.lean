import SliceProfiler.Cli.Lemmas.Discover
import SliceProfiler.Cli.Validate

/-!
# When `validate` accepts a file
-/

namespace SliceProfiler.Cli

open Lib

variable {p : Profile} {l : FileLayers} {bytes : List UInt8} {a : ValidateArgs}

theorem sampleSummary_counts (p : Profile) : p.sampleSummary.onCpuSamples = p.samples.countP (·.state = .onCpu) ∧
    p.sampleSummary.offCpuSamples = p.samples.countP (·.state = .offCpu) := by
  rw [Profile.sampleSummary]
  induction p.samples using List.reverseRecOn with
  | nil => exact ⟨rfl, rfl⟩
  | append_singleton samples s ih =>
      rw [List.foldl_concat, List.countP_append, List.countP_append, List.countP_singleton, List.countP_singleton,
        SampleSummary.add]
      cases hs : s.state with
      | onCpu => simp [ih]
      | offCpu => simp [ih]

theorem countP_states (samples : List Sample) :
    samples.countP (·.state = .onCpu) + samples.countP (·.state = .offCpu) = samples.length := by
  induction samples with
  | nil => rfl
  | cons s samples ih =>
      rw [List.countP_cons, List.countP_cons, List.length_cons]
      cases hs : s.state with
      | onCpu => simp; omega
      | offCpu => simp; omega

/-- A profile that was read is reported exactly when it has what is required. -/
theorem validate_eq_ok (hread : Profile.fromBytes l bytes = .ok p) (hv : p.validate = .ok ()) :
    (∃ r, validate l bytes a = .ok r) ↔ a.MetBy p := by
  have hoff : p.sampleSummary.offCpuSamples = 0 ↔ ¬ ∃ s ∈ p.samples, s.state = .offCpu := by
    rw [(sampleSummary_counts p).2, List.countP_eq_zero]
    simp
  have hany : (p.invocations.any fun i => i.complete && i.valid) = true ↔
      ∃ i ∈ p.invocations, i.complete = true ∧ i.valid = true := by simp
  simp only [validate, hread, hv, Except.mapError, ok_bind, bind_eq_ok, ensure_eq_ok, Except.ok.injEq,
    exists_and_left, exists_eq', and_true, exists_const]
  constructor
  · rintro ⟨hcomplete, hsamples, hoffCpu⟩
    refine ⟨fun h => ?_, fun h he => ?_, fun h => ?_⟩
    · simpa [h, hany] using hcomplete
    · simp [h, he] at hsamples
    · by_contra hnone
      simp [h, hoff.mpr hnone] at hoffCpu
  · intro h
    refine ⟨?_, ?_, ?_⟩
    · cases hc : a.requireComplete with
      | false => simp
      | true => simpa [hany] using h.complete hc
    · cases hs : a.requireSamples with
      | false => simp
      | true => simpa using h.samples hs
    · cases ho : a.requireOffCpu with
      | false => simp
      | true =>
          have hne : p.sampleSummary.offCpuSamples ≠ 0 := fun h0 => hoff.mp h0 (h.offCpu ho)
          simpa using hne

theorem counts_validate (hread : Profile.fromBytes l bytes = .ok p) {r : ValidationReport}
    (h : validate l bytes a = .ok r) : r.CountsOf p := by
  simp only [validate, hread, Except.mapError, ok_bind, bind_eq_ok, ensure_eq_ok, Except.ok.injEq] at h
  obtain ⟨-, -, -, -, -, -, -, -, rfl⟩ := h
  obtain ⟨hon, hoff⟩ := sampleSummary_counts p
  refine ⟨rfl, rfl, hon, hoff, ?_, (sampleSummary_eq p).2, rfl, rfl⟩
  dsimp only
  rw [hon, hoff, countP_states]

end SliceProfiler.Cli
