import SliceProfiler.Capture.Replay
import SliceProfiler.Collector.Lemmas.Counters
import SliceProfiler.Core.Lemmas.Validate

/-!
# When the profile of a capture is valid
-/

namespace SliceProfiler

open Lib

variable {p : Profile} {es : List CollectorEvent} {t : Nat} {names : Map Nat String}

/-! ## Threads -/

theorem tids_rebuildThreads : ((rebuildThreads p names).threads.map (·.tid)) =
    dedupByKey id (sortByKey id (p.invocations.map (·.tid) ++ p.samples.map (·.tid))) := by
  simp [rebuildThreads, Function.comp_def]

theorem nodup_rebuildThreads : ((rebuildThreads p names).threads.map (·.tid)).Nodup := by
  rw [tids_rebuildThreads]
  exact (dedupByKey_strict (sortByKey_sorted id _)).imp fun h => h.ne

theorem mem_rebuildThreads {tid : Nat} (h : tid ∈ p.invocations.map (·.tid)) :
    ∃ thread ∈ (rebuildThreads p names).threads, thread.tid = tid := by
  have hm : tid ∈ (dedupByKey id (sortByKey id (p.invocations.map (·.tid) ++ p.samples.map (·.tid)))).map id := by
    rw [mem_keys_dedupByKey, List.map_id, mem_sortByKey]
    exact List.mem_append_left _ h
  have htids : (rebuildThreads p names).threads.map (·.tid) = _ := tids_rebuildThreads
  rw [List.map_id, ← htids] at hm
  exact List.mem_map.mp hm

/-! ## Records -/

/-- The functions of the events are in the table. -/
def KnownFunctions (p : Profile) (es : List CollectorEvent) : Prop :=
  ∀ e ∈ es, ∀ f ∈ e.functionIds, ∃ g ∈ p.functions, g.id = f

theorem exists_entry {i : Nat} {b : Boundary} (h : (entriesOf i es).head? = some b) :
    .entry (some i) b.functionId b.tid b.timestampNs ∈ es := by
  obtain ⟨e, he, hb⟩ := List.mem_filterMap.mp (List.mem_of_mem_head? h)
  cases e with
  | entry id f tid ts =>
      cases id with
      | none => cases hb
      | some id =>
          simp only [CollectorEvent.entryOf] at hb
          split at hb
          · rename_i hid
            cases hb; cases hid; exact he
          · cases hb
  | ret | violation | sample | droppedEvents | droppedSamples => cases hb

theorem KnownFunctions.entry (hf : KnownFunctions p es) {i : Nat} {b : Boundary}
    (h : (entriesOf i es).head? = some b) : ∃ g ∈ p.functions, g.id = b.functionId :=
  hf _ (exists_entry h) _ (List.mem_singleton.mpr rfl)

theorem KnownFunctions.frames (hf : KnownFunctions p es) {frames : List Frame} (h : frames ∈ framesIn es)
    {f : Frame} (hm : f ∈ frames) {id : Nat} (hid : f.functionId = some id) : ∃ g ∈ p.functions, g.id = id := by
  obtain ⟨e, he, hfr⟩ := List.mem_filterMap.mp (List.mem_toFinset.mp h)
  cases e with
  | sample i s =>
      cases hfr
      exact hf _ he id (List.mem_filterMap.mpr ⟨f, hm, hid⟩)
  | entry | ret | violation | droppedEvents | droppedSamples => cases hfr

theorem Collected.mem_samples {ks : List Stack} {ss : List Sample} (h : Collected p es t ks ss)
    {i tid ts : Nat} : (∃ s ∈ ss, s.invocationId = i ∧ s.tid = tid ∧ s.timestampNs = ts) ↔
      ∃ s, (i, s) ∈ keptSamples es t ∧ s.tid = tid ∧ s.timestampNs = ts := by
  constructor
  · rintro ⟨s, hs, rfl, rfl, rfl⟩
    have hm : resolve ks s ∈ (keptSamples es t).map fun x => x.2.resolved x.1 := by
      rw [← h.resolved]; exact List.mem_map_of_mem hs
    obtain ⟨x, hx, he⟩ := List.mem_map.mp hm
    simp only [PendingSample.resolved, resolve, ResolvedSample.mk.injEq] at he
    refine ⟨x.2, ?_, he.2.2.2.1, he.1⟩
    rw [← he.2.1]; exact hx
  · rintro ⟨s, hs, rfl, rfl⟩
    have hm : s.resolved i ∈ ss.map (resolve ks) := by
      rw [h.resolved]; exact List.mem_map_of_mem (f := fun x : Nat × PendingSample => x.2.resolved x.1) hs
    obtain ⟨s', hs', he⟩ := List.mem_map.mp hm
    simp only [PendingSample.resolved, resolve, ResolvedSample.mk.injEq] at he
    exact ⟨s', hs', he.2.1, he.2.2.2.1, he.1⟩

theorem Collected.length {ks : List Stack} {ss : List Sample} (h : Collected p es t ks ss) :
    ss.length = (keptSamples es t).length := by
  simpa using congrArg List.length h.resolved

/-! ## Validity -/

section Validity

variable {ks : List Stack} {ss : List Sample}

theorem Collected.invocations (h : Collected p es t ks ss) (hp : p.Fresh) :
    (rebuildThreads (collectEvents p es t) names).invocations = reports es t := by
  simp only [rebuildThreads, h.eq]; exact bookOf_invocations hp

theorem Collected.stacks_eq (h : Collected p es t ks ss) :
    (rebuildThreads (collectEvents p es t) names).stacks = ks := by
  simp only [rebuildThreads, h.eq]

theorem Collected.samples_eq (h : Collected p es t ks ss) :
    (rebuildThreads (collectEvents p es t) names).samples = ss := by
  simp only [rebuildThreads, h.eq]

theorem Collected.functions_eq (h : Collected p es t ks ss) :
    (rebuildThreads (collectEvents p es t) names).functions = p.functions := by
  simp only [rebuildThreads, h.eq]; rfl

theorem Collected.quality_eq (h : Collected p es t ks ss) :
    (rebuildThreads (collectEvents p es t) names).quality = (bookOf p es t).quality := by
  simp only [rebuildThreads, h.eq]

theorem Reported.bounds {i : Nat} {e : Boundary} {inv : Invocation} (h : Reported i es t e inv)
    (he : (entriesOf i es).head? = some e) (ho : OrderedBoundaries es) : inv.startNs ≤ inv.endNs := by
  rw [h.startNs, h.endNs]
  cases hr : (returnsOf i es).getLast? with
  | none => exact le_max_right t _
  | some r => exact ho i e r he hr

theorem Collected.invocation_wellFormed (h : Collected p es t ks ss) (hp : p.Fresh)
    (hf : KnownFunctions p es) (ho : OrderedBoundaries es) {inv : Invocation}
    (hi : inv ∈ (rebuildThreads (collectEvents p es t) names).invocations) :
    inv.WellFormed (rebuildThreads (collectEvents p es t) names) := by
  obtain ⟨e, he, hr⟩ := mem_reports.mp (h.invocations hp ▸ hi)
  refine ⟨?_, mem_rebuildThreads (List.mem_map_of_mem hi), hr.bounds he ho, ?_, .root hi hr.parentId⟩
  · rw [hr.functionId, h.functions_eq]
    exact hf.entry he
  · rw [hr.parentId]; rintro q ⟨⟩

theorem Collected.sample_wellFormed (h : Collected p es t ks ss) (hp : p.Fresh) (hs : SamplesOnThread es)
    {s : Sample} (hm : s ∈ ss) : s.WellFormed (rebuildThreads (collectEvents p es t) names) := by
  obtain ⟨c, htable⟩ := h.table
  obtain ⟨x, hx, htid, hts⟩ := h.mem_samples.mp ⟨s, hm, rfl, rfl, rfl⟩
  obtain ⟨e, b, hb, hsm, hstart, hend⟩ := mem_keptSamples.mp hx
  have he : (entriesOf s.invocationId es).head? = some e := by rw [hb.entry]; rfl
  obtain ⟨inv, hi, hr⟩ := exists_report (t := t) he
  refine ⟨?_, inv, by rw [h.invocations hp]; exact hi, hr.id, ?_, ?_, ?_⟩
  · rw [h.stacks_eq]; exact htable.known s hm
  · rw [hr.tid, ← htid, hs _ e b hb x hsm hstart hend]
  · rw [hr.startNs, ← hts]; exact hstart
  · rw [hr.endNs, hb.ret, ← hts]; exact hend

theorem Collected.orderedBoundaries (h : Collected p es t ks ss) (hp : p.Fresh)
    (hw : (rebuildThreads (collectEvents p es t) names).WellFormed) : OrderedBoundaries es := by
  intro i e r he hr
  obtain ⟨inv, hi, hrep⟩ := exists_report (t := t) he
  have hb := (hw.invocations inv (by rw [h.invocations hp]; exact hi)).bounds
  rw [hrep.startNs, hrep.endNs, hr] at hb
  exact hb

theorem Collected.samplesOnThread (h : Collected p es t ks ss) (hp : p.Fresh)
    (hw : (rebuildThreads (collectEvents p es t) names).WellFormed) : SamplesOnThread es := by
  intro i e b hb x hx hstart hend
  have hkept : (i, x) ∈ keptSamples es t := mem_keptSamples.mpr ⟨e, b, hb, hx, hstart, hend⟩
  obtain ⟨s, hs, hid, htid, -⟩ := h.mem_samples.mpr ⟨x, hkept, rfl, rfl⟩
  obtain ⟨inv, hi, hinvid, hinvtid, -⟩ := (hw.samples s (by rw [h.samples_eq]; exact hs)).invocation
  rw [h.invocations hp] at hi
  obtain ⟨e', he', hrep⟩ := mem_reports.mp hi
  rw [hinvid, hid, hb.entry] at he'
  cases he'
  rw [← htid, ← hinvtid, hrep.tid]

/-- The events decide whether the profile is well formed. -/
theorem Collected.wellFormed_iff (h : Collected p es t ks ss) (hp : p.Fresh) (hf : KnownFunctions p es)
    (hlen : es.countP CollectorEvent.isSample ≤ u64Max) (names : Map Nat String) :
    (rebuildThreads (collectEvents p es t) names).WellFormed ↔ OrderedBoundaries es ∧ SamplesOnThread es := by
  constructor
  · exact fun hw => ⟨h.orderedBoundaries hp hw, h.samplesOnThread hp hw⟩
  · rintro ⟨ho, hs⟩
    obtain ⟨c, htable⟩ := h.table
    refine ⟨?_, ?_, nodup_rebuildThreads, ?_, ?_, fun inv hi => h.invocation_wellFormed hp hf ho hi, ?_, ?_, ?_⟩
    · simp only [rebuildThreads, h.eq]; exact hp.version
    · rw [h.functions_eq]; exact hp.functionIds
    · rw [h.invocations hp]; exact List.pairwise_map.mpr ((reports_strict es t).imp fun hlt => hlt.ne)
    · rw [h.stacks_eq]; exact htable.idsNodup
    · intro k hk f hfm id hid
      rw [h.stacks_eq] at hk
      rw [h.functions_eq]
      exact hf.frames (keptFrames_subset es t (htable.bounded k hk)) hfm hid
    · intro s hsm
      rw [h.samples_eq] at hsm
      exact h.sample_wellFormed hp hs hsm
    · obtain ⟨hc, hi, hsg⟩ := bookOf_quality (t := t) hp hlen
      refine ⟨?_, ?_, ?_⟩
      · rw [h.quality_eq, h.invocations hp]; exact hc
      · rw [h.quality_eq, h.invocations hp]; exact hi
      · rw [h.quality_eq, h.samples_eq, h.length]; exact hsg

end Validity

end SliceProfiler
