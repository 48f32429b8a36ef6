import SliceProfiler.Collector.Lemmas.Report

/-!
# The samples of one identity
-/

namespace SliceProfiler

open Lib

/-- The samples of the profile under the id, with their frames. -/
def Profile.samplesUnder (p : Profile) (i : Nat) : List ResolvedSample :=
  p.resolvedSamples.filter fun r => r.invocationId = i

variable {i : Nat} {es : List CollectorEvent} {t : Nat} {p : Profile} {r : SourceInvocation}
  {inv : Invocation}

theorem fst_of_mem_kept {x : Nat × PendingSample} (h : x ∈ r.kept t) : x.1 = r.id := by
  unfold SourceInvocation.kept at h
  split at h
  · split at h
    · obtain ⟨s, -, rfl⟩ := List.mem_map.mp h
      rfl
    · cases h
  · cases h

/-- The kept samples of an identity are those that its record keeps, in their order. -/
theorem keptSamples_filter (hr : r ∈ sources es) :
    (keptSamples es t).filter (fun x => x.1 = r.id) = r.kept t := by
  have hself : ∀ s : SourceInvocation, s.id = r.id →
      (s.kept t).filter (fun x => x.1 = r.id) = s.kept t := by
    intro s hs
    apply List.filter_eq_self.mpr
    intro x hx
    simp [fst_of_mem_kept hx, hs]
  rw [keptSamples, List.filter_flatMap,
    flatMap_eq_of_key (sources_nodup es) hr ?_, hself r rfl]
  intro s _ hne
  apply List.filter_eq_nil_iff.mpr
  intro x hx
  simp [fst_of_mem_kept hx, hne]

theorem kept_of_report (h : r.report t = some inv) : r.kept t =
    if inv.valid then (r.samples.filter inv.keeps).map fun s => (r.id, s) else [] := by
  simp only [SourceInvocation.kept, h]

theorem samples_of_mem_sources (hr : r ∈ sources es) : r.samples = samplesOf r.id es := by
  obtain ⟨i, r', hr', rfl⟩ := mem_sources.mp hr
  have hd := recordOf_id hr'
  rw [show (r'.marked (violationsOf es)).id = i from hd.id]
  exact hd.samples

theorem id_of_report (h : r.report t = some inv) : inv.id = r.id := by
  unfold SourceInvocation.report at h
  split at h <;> cases h
  rfl

theorem keptSamples_filter_valid (h : inv ∈ reports es t) (hv : inv.valid = true) :
    (keptSamples es t).filter (fun x => x.1 = inv.id) =
      ((samplesOf inv.id es).filter inv.keeps).map fun s => (inv.id, s) := by
  obtain ⟨r, hr, hrep⟩ := List.mem_filterMap.mp h
  rw [id_of_report hrep, keptSamples_filter hr, kept_of_report hrep, samples_of_mem_sources hr, hv]
  rfl

theorem keptSamples_filter_invalid (h : ∀ inv ∈ reports es t, inv.id = i → inv.valid = false) :
    (keptSamples es t).filter (fun x => x.1 = i) = [] := by
  apply List.filter_eq_nil_iff.mpr
  intro x hx
  obtain ⟨r, hr, hx⟩ := List.mem_flatMap.mp hx
  cases hrep : r.report t with
  | none =>
      simp only [SourceInvocation.kept, hrep] at hx
      cases hx
  | some inv =>
      have hinv : inv ∈ reports es t := List.mem_filterMap.mpr ⟨r, hr, hrep⟩
      rw [kept_of_report hrep] at hx
      cases hv : inv.valid with
      | false => simp [hv] at hx
      | true =>
          have hid : inv.id = x.1 := by
            rw [id_of_report hrep, fst_of_mem_kept (r := r) (t := t) (by rw [kept_of_report hrep]; exact hx)]
          simp only [decide_eq_true_eq]
          intro hi
          rw [h inv hinv (hid.trans hi)] at hv
          cases hv

theorem keptSamples_of_only {e b : Boundary} (h : Retained i es e b)
    (honly : ∀ j e' b', Retained j es e' b' → j = i) : keptSamples es t =
      ((samplesOf i es).filter fun s => e.timestampNs ≤ s.timestampNs ∧ s.timestampNs ≤ b.timestampNs).map
        fun s => (i, s) := by
  obtain ⟨inv, hinv, hrep⟩ : ∃ inv ∈ reports es t, Reported i es t e inv := exists_report (by rw [h.entry]; rfl)
  have hall : (keptSamples es t).filter (fun x => x.1 = i) = keptSamples es t := by
    apply List.filter_eq_self.mpr
    intro x hx
    obtain ⟨e', b', hx, -⟩ := mem_keptSamples.mp hx
    simpa using honly _ _ _ hx
  have hkept := keptSamples_filter_valid hinv (hrep.valid.mpr ⟨_, h⟩)
  rw [hrep.id, hall] at hkept
  rw [hkept]
  refine congrArg (List.map _) (List.filter_congr fun s _ => ?_)
  have hend : inv.endNs = b.timestampNs := by rw [hrep.endNs, h.ret]; rfl
  rw [Bool.eq_iff_iff]
  simp [Invocation.keeps, hrep.startNs, hend]

/-! ## The profile -/

variable {ks : List Stack} {ss : List Sample}

theorem Collected.samplesUnder (h : Collected p es t ks ss) (i : Nat) :
    (collectEvents p es t).samplesUnder i =
      ((keptSamples es t).filter fun x => x.1 = i).map fun x => x.2.resolved x.1 := by
  rw [Profile.samplesUnder, Profile.resolvedSamples, h.eq, h.resolved, List.filter_map]
  rfl

theorem Collected.invocations_eq (h : Collected p es t ks ss) (hi : p.invocations = []) :
    (collectEvents p es t).invocations = reports es t := by
  rw [h.eq]
  simp only [bookOf, Profile.setBook, hi, List.nil_append, reports]

end SliceProfiler
