import SliceProfiler.Capture.Lemmas.Replay
import SliceProfiler.Capture.Lemmas.Ring
import SliceProfiler.Collector.Lemmas.Fits
import SliceProfiler.Collector.Lemmas.Report

/-! # The numbers of a capture are in range -/

namespace SliceProfiler

open Lib

variable {request : CaptureRequest} {resolver : Resolver} {store : StackStore} {p : Profile}
  {events : List Event} {finishNs : Nat}

/-- The addresses of the stacks fit their type. -/
def StackStore.Fits (store : StackStore) : Prop := ∀ stackId, ∀ address ∈ store.get stackId, address ≤ u64Max

theorem StackStore.Fits.insertStack (h : store.Fits) {stackId : Int} {hid : 0 ≤ stackId ∧ stackId < 32768}
    {addresses : List Nat} (ha : ∀ address ∈ addresses, address ≤ u64Max) :
    (store.insertStack stackId hid addresses).Fits := by
  intro k address hm
  rw [get_insertStack] at hm
  split at hm
  · exact ha address hm
  · exact h k address hm

/-- Whatever bytes are delivered, the records and the addresses fit their types. -/
structure Ring.Fits (r : Ring) : Prop where
  events : ∀ e ∈ r.events, e.Fits
  stackStore : r.stackStore.Fits

theorem Ring.Fits.callback {r : Ring} (h : r.Fits) (d : Delivery) : (r.callback d).Fits := by
  unfold Ring.callback
  split
  · exact h
  · constructor
    · intro e he
      rcases List.mem_append.mp he with he | he
      · exact h.events e he
      · rw [List.mem_singleton.mp he]
        exact readEvent_fits d.bytes
    · dsimp only
      split
      · split
        · exact h.stackStore.insertStack (readAddresses_le _)
        · exact h.stackStore
      · exact h.stackStore

theorem drain_fits (deliveries : List Delivery) : (Ring.drain deliveries).Fits := by
  suffices hfold : ∀ r : Ring, r.Fits → (deliveries.foldl Ring.callback r).Fits from
    hfold {} ⟨fun _ he => (List.not_mem_nil he).elim, fun _ _ ha => (List.not_mem_nil ha).elim⟩
  induction deliveries with
  | nil => exact fun _ h => h
  | cons d deliveries ih => exact fun r h => ih _ (h.callback d)

theorem length_events_drain_le (deliveries : List Delivery) :
    (Ring.drain deliveries).events.length ≤ deliveries.length := by
  suffices hfold : ∀ r : Ring, (deliveries.foldl Ring.callback r).events.length ≤ r.events.length + deliveries.length by
    simpa [Ring.drain] using hfold {}
  induction deliveries with
  | nil => exact fun _ => Nat.le_refl _
  | cons d deliveries ih =>
      intro r
      have hstep : (r.callback d).events.length ≤ r.events.length + 1 := by
        unfold Ring.callback
        split
        · exact Nat.le_succ _
        · exact (List.length_append ..).le
      have := ih (r.callback d)
      rw [List.foldl_cons, List.length_cons]
      omega

theorem StackStore.Fits.frames (h : store.Fits) (resolver : Resolver) (stackId : Int) :
    ∀ f ∈ resolver.frames (store.get stackId), frameCodec.fits f = true := by
  intro f hf
  obtain ⟨address, ha, rfl⟩ := List.mem_map.mp (List.mem_reverse.mp hf)
  exact frame_fits_iff.mpr ⟨nofun, fun _ hx => by cases hx; exact h stackId address ha⟩

theorem function_fits_bounds {f : Function} (h : functionCodec.fits f = true) : f.id ≤ u32Max ∧ f.address ≤ u64Max := by
  simp only [functionCodec, Codec.fits_record, Fields.fits_cons, fits_u32, fits_u64, Equiv.coe_fn_mk, Bool.and_eq_true,
    decide_eq_true_eq] at h
  exact ⟨h.1, h.2.2.2.1⟩

theorem offCpuFrames_fits (hr : functionCodec.fits request.function = true) {frames : List Frame}
    (h : ∀ f ∈ frames, frameCodec.fits f = true) : ∀ f ∈ request.offCpuFrames frames, frameCodec.fits f = true := by
  unfold CaptureRequest.offCpuFrames
  split
  · exact h
  · obtain ⟨hid, haddress⟩ := function_fits_bounds hr
    intro f hf
    rcases List.mem_cons.mp hf with rfl | hf
    · refine frame_fits_iff.mpr ⟨fun _ hx => ?_, fun _ hx => ?_⟩
      · cases hx; exact hid
      · cases hx; exact haddress
    · exact h f hf

theorem translate_fits (hr : functionCodec.fits request.function = true) (hs : store.Fits) {e : Event} (he : e.Fits) :
    (translate request resolver store e).Fits := by
  obtain ⟨hid, -⟩ := function_fits_bounds hr
  have hinv : ∀ i, some e.invocationId = some i → i ≤ u64Max := by
    rintro _ ⟨⟩; exact he.invocationId
  unfold translate
  split
  · exact ⟨hinv, hid, he.tid, he.timestampNs⟩
  · exact ⟨hinv, hid, he.tid, he.timestampNs⟩
  · exact ⟨hinv, he.tid, he.timestampNs, he.cpu, he.weightNs, hs.frames resolver e.stackId⟩
  · trivial
  · exact ⟨hinv, he.tid, he.timestampNs, he.cpu, he.weightNs, offCpuFrames_fits hr (hs.frames resolver e.stackId)⟩
  · trivial

theorem replay_fits (hr : functionCodec.fits request.function = true) (hs : store.Fits) (he : ∀ e ∈ events, e.Fits)
    (hp : p.Fits) (hn : finishNs ≤ u64Max) : (replay request resolver store p events finishNs).Fits := by
  rw [replay_eq]
  refine collectEvents_fits hp (fun e hm => ?_) hn
  obtain ⟨raw, hraw, rfl⟩ := List.mem_map.mp hm
  exact translate_fits hr hs (he raw (mem_sortByKey.mp hraw))

theorem startProfile_fits (hr : functionCodec.fits request.function = true) {now eventsDropped samplesDropped : Nat}
    (hnow : now ≤ u64Max) (hevents : eventsDropped ≤ u64Max) (hsamples : samplesDropped ≤ u64Max) (release : String) :
    (startProfile request now release eventsDropped samplesDropped).Fits := by
  have hversion : 1 ≤ u16Max := by decide
  have hperiod : 1000000000 / sampleFrequencyHz ≤ u64Max := by decide
  refine Profile.fits_iff.mpr ⟨hversion, metadata_fits_iff.mpr ⟨hnow, hperiod⟩, ?_, nofun, nofun, nofun, nofun, ?_⟩
  · simpa [startProfile, emptyProfile] using hr
  · exact quality_fits_iff.mpr ⟨Nat.zero_le _, hevents, Nat.zero_le _, hsamples, Nat.zero_le _, Nat.zero_le _,
      Nat.zero_le _, Nat.zero_le _⟩

theorem Profile.Fits.rebuildThreads (h : p.Fits) (names : Map Nat String) : (rebuildThreads p names).Fits := by
  obtain ⟨hversion, hmeta, hfunctions, -, hinvocations, hstacks, hsamples, hquality⟩ := Profile.fits_iff.mp h
  refine Profile.fits_iff.mpr ⟨hversion, hmeta, hfunctions, ?_, hinvocations, hstacks, hsamples, hquality⟩
  intro t ht
  obtain ⟨tid, htid, rfl⟩ := List.mem_map.mp ht
  have hm := mem_sortByKey.mp ((dedupByKey_sublist _).subset htid)
  rw [thread_fits_iff]
  rcases List.mem_append.mp hm with hm | hm
  · obtain ⟨i, hi, rfl⟩ := List.mem_map.mp hm
    exact (invocation_fits_iff.mp (hinvocations i hi)).2.2.2.1
  · obtain ⟨s, hs, rfl⟩ := List.mem_map.mp hm
    exact (sample_fits_iff.mp (hsamples s hs)).2.2.2.1

/-- There are not more invocations than events. -/
theorem length_reports_le (es : List CollectorEvent) (t : Nat) : (reports es t).length ≤ es.length := by
  have hnodup : ((reports es t).map (·.id)).Nodup := List.pairwise_map.mpr ((reports_strict es t).imp fun h => h.ne)
  have hsub : ((reports es t).map (·.id)).toFinset ⊆ (es.filterMap CollectorEvent.invocationId).toFinset := by
    intro id hid
    obtain ⟨inv, hinv, rfl⟩ := List.mem_map.mp (List.mem_toFinset.mp hid)
    obtain ⟨b, hb⟩ := List.exists_mem_of_ne_nil _ (exists_report_iff.mp ⟨inv, hinv, rfl⟩)
    obtain ⟨e, he, hb⟩ := List.mem_filterMap.mp hb
    refine List.mem_toFinset.mpr (List.mem_filterMap.mpr ⟨e, he, ?_⟩)
    by_contra hne
    rw [(tidOf_eq_none.mp (tidOf_of_ne hne)).1] at hb
    cases hb
  calc (reports es t).length = ((reports es t).map (·.id)).toFinset.card := by
        rw [List.toFinset_card_of_nodup hnodup, List.length_map]
    _ ≤ (es.filterMap CollectorEvent.invocationId).toFinset.card := Finset.card_le_card hsub
    _ ≤ (es.filterMap CollectorEvent.invocationId).length := List.toFinset_card_le _
    _ ≤ es.length := List.length_filterMap_le _ _

theorem capture_fits (hr : functionCodec.fits request.function = true) (hs : store.Fits) (he : ∀ e ∈ events, e.Fits)
    (hlen : events.length * 2 ≤ u64Max) {now eventsDropped samplesDropped : Nat} (hnow : now ≤ u64Max)
    (hevents : eventsDropped ≤ u64Max) (hsamples : samplesDropped ≤ u64Max) (hn : finishNs ≤ u64Max)
    (names : Map Nat String) (release : String) :
    (capture request resolver store names now release eventsDropped samplesDropped events finishNs).Fits := by
  have hp := startProfile_fits hr hnow hevents hsamples release
  have hreplay : (replay request resolver store _ events finishNs).Fits := replay_fits hr hs he hp hn
  have hcount : (replay request resolver store (startProfile request now release eventsDropped samplesDropped) events
      finishNs).invocations.length ≤ events.length := by
    rw [replay_eq, collectEvents_reports (tagged_translateAll events) rfl]
    refine (length_reports_le _ _).trans ?_
    rw [translateAll, sortEvents, List.length_map, length_sortByKey]
  have hq := quality_fits_iff.mp hreplay.quality
  refine (hreplay.rebuildThreads names).setQuality (quality_fits_iff.mpr ⟨max_le hq.1 ?_, hq.2⟩)
  exact (Nat.mul_le_mul_right 2 hcount).trans hlen

end SliceProfiler
