import Mathlib.Algebra.BigOperators.Group.List.Lemmas
import SliceProfiler.Capture.Lemmas.Events
import SliceProfiler.Collector.Lemmas.Samples
import SliceProfiler.Core.Lemmas.Metrics

/-!
# The off-CPU samples of a capture

The weights of the off-CPU samples of a valid invocation are those of its off-CPU records between its bounds.
-/

namespace SliceProfiler

open Lib

def Profile.offCpuSamples (p : Profile) (i : Nat) : List Sample :=
  p.samples.filter fun s => s.invocationId = i ∧ s.state = .offCpu

/-- The event is an off-CPU record of the invocation, between its bounds. -/
def Event.offCpuIn (inv : Invocation) (e : Event) : Bool :=
  e.kind = 5 ∧ e.invocationId = inv.id ∧ inv.startNs ≤ e.timestampNs ∧ e.timestampNs ≤ inv.endNs

variable {request : CaptureRequest} {resolver : Resolver} {store : StackStore} {events : List Event}
  {names : Map Nat String} {now eventsDropped samplesDropped finishNs : Nat} {release : String}
  {inv : Invocation}

theorem offCpu_sampleOf_translate (e : Event) :
    (((translate request resolver store e).sampleOf inv.id).filter fun s =>
      inv.keeps s && decide (s.state = .offCpu)).map (·.weightNs) =
      if Event.offCpuIn inv e then some e.weightNs else none := by
  obtain ⟨kind, tid, ts, id, stackId, cpu, weight⟩ := e
  cases kindCase kind with
  | offCpu =>
      simp only [translate, CollectorEvent.sampleOf, Event.offCpuIn, true_and]
      by_cases hid : id = inv.id <;> simp [hid, Invocation.keeps, Option.filter, apply_ite]
  | sample =>
      simp only [translate, CollectorEvent.sampleOf, Event.offCpuIn]
      by_cases hid : id = inv.id <;> simp [hid, Option.filter]
  | entry | ret | violation => simp [translate, CollectorEvent.sampleOf, Event.offCpuIn]
  | unknown h => simp [translate, CollectorEvent.sampleOf, Event.offCpuIn, h]

theorem offCpuWeights_capture
    (h : inv ∈ (capture request resolver store names now release eventsDropped samplesDropped events
      finishNs).invocations) (hv : inv.valid = true) :
    (((capture request resolver store names now release eventsDropped samplesDropped events
      finishNs).offCpuSamples inv.id).map (·.weightNs)).Perm
        ((events.filter (Event.offCpuIn inv)).map (·.weightNs)) := by
  obtain ⟨ks, ss, hc⟩ :=
    collected_capture request resolver store now release eventsDropped samplesDropped events finishNs
  have hsamples : (capture request resolver store names now release eventsDropped samplesDropped events
      finishNs).samples = ss := by simp only [capture, replay_eq, hc.samples_eq]
  have hunder := hc.samplesUnder inv.id
  rw [keptSamples_filter_valid (mem_capture_invocations.mp h) hv, List.map_map] at hunder
  simp only [Profile.samplesUnder, Profile.resolvedSamples, hc.eq] at hunder
  have hweights : ((ss.filter fun s => s.invocationId = inv.id ∧ s.state = .offCpu).map (·.weightNs)) =
      (((ss.map (resolve ks)).filter fun r => r.invocationId = inv.id).filter
        fun r => r.state = .offCpu).map (·.weightNs) := by
    simp only [List.filter_map, List.filter_filter, List.map_map, Bool.decide_and, Bool.and_comm]
    rfl
  have hevents : (((samplesOf inv.id (translateAll request resolver store events)).filter fun s =>
      inv.keeps s && decide (s.state = .offCpu)).map (·.weightNs)) =
        ((sortEvents events).filter (Event.offCpuIn inv)).map (·.weightNs) := by
    rw [samplesOf, translateAll, List.filterMap_map, List.filter_filterMap, List.map_filterMap,
      ← List.filterMap_eq_map, ← List.filterMap_eq_filter, List.filterMap_filterMap]
    refine List.filterMap_congr fun e _ => (offCpu_sampleOf_translate e).trans ?_
    cases he : Event.offCpuIn inv e <;> simp [Option.guard, he]
  have hsplit : ((List.map ((fun x : Nat × PendingSample => x.2.resolved x.1) ∘ fun s => (inv.id, s))
      ((samplesOf inv.id (translateAll request resolver store events)).filter inv.keeps)).filter
        fun r => r.state = .offCpu).map (·.weightNs) =
      ((samplesOf inv.id (translateAll request resolver store events)).filter fun s =>
        inv.keeps s && decide (s.state = .offCpu)).map (·.weightNs) := by
    simp [List.filter_map, List.filter_filter, PendingSample.resolved, Function.comp_def, Bool.and_comm]
  rw [Profile.offCpuSamples, hsamples, hweights, hunder, hsplit, hevents]
  exact ((sortByKey_perm Event.sortKey events).filter _).map _

/-! ## Queries on the off-CPU samples -/

variable {q : Query}

/-- The flame graph of the function may start at some frame of a blocked interval, whatever its stack is. -/
theorem any_startsAt_offCpuFrames (hf : q.functionId = request.function.id) (frames : List Frame) :
    (request.offCpuFrames frames).any (q.startsAt (some request.function.demangledName)) = true := by
  unfold CaptureRequest.offCpuFrames
  split
  · rename_i h
    simp only [List.any_eq_true, Bool.or_eq_true] at h ⊢
    obtain ⟨frame, hm, h⟩ := h
    refine ⟨frame, hm, ?_⟩
    rw [Query.startsAt, hf, Bool.or_eq_true]
    exact h.symm
  · simp [Query.startsAt, hf]

theorem offCpu_of_mem_samplesOf {i : Nat} {s : PendingSample}
    (h : s ∈ samplesOf i (translateAll request resolver store events)) (hs : s.state = .offCpu) :
    ∃ frames, s.frames = request.offCpuFrames frames := by
  obtain ⟨x, hx, hxs⟩ := List.mem_filterMap.mp h
  obtain ⟨e, -, rfl⟩ := mem_translateAll.mp hx
  obtain ⟨kind, tid, ts, id, stackId, cpu, weight⟩ := e
  cases kindCase kind with
  | offCpu =>
      simp only [translate, CollectorEvent.sampleOf] at hxs
      split at hxs <;> cases hxs
      exact ⟨_, rfl⟩
  | sample =>
      simp only [translate, CollectorEvent.sampleOf] at hxs
      split at hxs <;> cases hxs
      cases hs
  | entry | ret | violation => cases hxs
  | unknown hk => simp [translate, CollectorEvent.sampleOf, hk] at hxs

theorem knownStacks_capture : (capture request resolver store names now release eventsDropped samplesDropped events
    finishNs).KnownStacks := by
  obtain ⟨ks, ss, h⟩ :=
    collected_capture request resolver store now release eventsDropped samplesDropped events finishNs
  obtain ⟨c, htable⟩ := h.table
  have hknown := htable.knownStacks
  constructor
  · simp only [capture, replay_eq, h.stacks_eq]
    exact hknown.ids
  · simp only [capture, replay_eq, h.stacks_eq, h.samples_eq]
    exact hknown.known

theorem offCpu_resolvedSamples {s : ResolvedSample}
    (hs : s ∈ (capture request resolver store names now release eventsDropped samplesDropped events
      finishNs).resolvedSamples) (hstate : s.state = .offCpu) : ∃ frames, s.frames = request.offCpuFrames frames := by
  obtain ⟨ks, ss, h⟩ :=
    collected_capture request resolver store now release eventsDropped samplesDropped events finishNs
  simp only [Profile.resolvedSamples, capture, replay_eq, h.stacks_eq, h.samples_eq, h.resolved] at hs
  obtain ⟨x, hx, rfl⟩ := List.mem_map.mp hs
  obtain ⟨e, b, -, hm, -⟩ := mem_keptSamples.mp hx
  exact offCpu_of_mem_samplesOf hm hstate

theorem selectedName_capture (hf : q.functionId = request.function.id) :
    q.selectedName (capture request resolver store names now release eventsDropped samplesDropped events finishNs) =
      some request.function.demangledName := by
  obtain ⟨ks, ss, h⟩ :=
    collected_capture request resolver store now release eventsDropped samplesDropped events finishNs
  simp only [Query.selectedName, capture, replay_eq, h.functions_eq]
  simp [startProfile, emptyProfile, hf]

theorem invocationIds_capture : ((capture request resolver store names now release eventsDropped samplesDropped events
    finishNs).invocations.map (·.id)).Nodup := by
  obtain ⟨ks, ss, h⟩ :=
    collected_capture request resolver store now release eventsDropped samplesDropped events finishNs
  simp only [capture, replay_eq, h.invocations freshStartProfile]
  exact List.pairwise_map.mpr ((reports_strict _ _).imp fun hlt => hlt.ne)

/-- The event is an off-CPU record of a selected invocation of the profile, between its bounds. -/
def Event.BlockedIn (p : Profile) (ids : Finset Nat) (e : Event) : Prop :=
  e.kind = 5 ∧ e.invocationId ∈ ids ∧
    ∃ inv ∈ p.invocations, inv.id = e.invocationId ∧ inv.startNs ≤ e.timestampNs ∧ e.timestampNs ≤ inv.endNs

instance (p : Profile) (ids : Finset Nat) (e : Event) : Decidable (e.BlockedIn p ids) :=
  inferInstanceAs (Decidable (_ ∧ _))

/-- The off-CPU weight of a query when the flame graph may start in every off-CPU sample. -/
theorem weight_offCpu {p : Profile} (hm : q.metric.includes .offCpu = true)
    (hstart : ∀ s ∈ p.resolvedSamples, s.state = .offCpu → s.frames.any (q.startsAt (q.selectedName p)) = true)
    (ids : Finset Nat) : p.weight q ids (fun s => s.state = .offCpu) =
      ∑ i ∈ ids, ((p.offCpuSamples i).map (·.weightNs)).sum := by
  have hcontributes : p.weight q ids (fun s => s.state = .offCpu) =
      (((p.samples.filter fun s => s.state = .offCpu).filter fun s => s.invocationId ∈ ids).map (·.weightNs)).sum := by
    have hres : (p.contributing q ids).filter (fun s => s.state = .offCpu) =
        p.resolvedSamples.filter fun s => decide (s.state = .offCpu) && decide (s.invocationId ∈ ids) := by
      rw [Profile.contributing, List.filter_filter]
      refine List.filter_congr fun s hs => ?_
      by_cases hstate : s.state = .offCpu
      · simp [hstate, Query.contributes, hm, hstart s hs hstate]
      · simp [hstate]
    rw [Profile.weight, hres, Profile.resolvedSamples, List.filter_map, List.map_map, List.filter_filter]
    congr 2
    refine List.filter_congr fun s _ => ?_
    exact Bool.and_comm _ _
  rw [hcontributes, sum_filter_mem]
  refine Finset.sum_congr rfl fun i _ => ?_
  rw [Profile.offCpuSamples, List.filter_filter]
  simp only [Bool.decide_and]

theorem sum_blockedIn {p : Profile} (hn : (p.invocations.map (·.id)).Nodup) {ids : Finset Nat}
    (hids : ∀ i ∈ ids, ∃ inv ∈ p.invocations, inv.id = i ∧ inv.valid = true) {w : Nat → Nat}
    (hw : ∀ inv ∈ p.invocations, inv.valid = true →
      w inv.id = ((events.filter (Event.offCpuIn inv)).map (·.weightNs)).sum) :
    ((events.filter fun e => e.BlockedIn p ids).map (·.weightNs)).sum = ∑ i ∈ ids, w i := by
  have hsplit : (events.filter fun e => e.BlockedIn p ids) =
      (events.filter fun e => e.kind = 5 ∧ ∃ inv ∈ p.invocations, inv.id = e.invocationId ∧
        inv.startNs ≤ e.timestampNs ∧ e.timestampNs ≤ inv.endNs).filter fun e => e.invocationId ∈ ids := by
    rw [List.filter_filter]
    refine List.filter_congr fun e _ => ?_
    rw [← Bool.decide_and, decide_eq_decide]
    exact and_left_comm
  rw [hsplit, sum_filter_mem]
  refine Finset.sum_congr rfl fun i hi => ?_
  obtain ⟨inv, hinv, rfl, hv⟩ := hids i hi
  rw [hw inv hinv hv, List.filter_filter]
  congr 2
  refine List.filter_congr fun e _ => ?_
  rw [Event.offCpuIn, ← Bool.decide_and, decide_eq_decide]
  constructor
  · rintro ⟨hid, hk, inv', hinv', hid', hbounds⟩
    obtain rfl : inv' = inv := List.inj_on_of_nodup_map hn hinv' hinv (hid'.trans hid)
    exact ⟨hk, hid, hbounds⟩
  · rintro ⟨hk, hid, hbounds⟩
    exact ⟨hid, hk, inv, hinv, hid.symm, hbounds⟩

/-- The weight of the off-CPU records that the result stands for. -/
def QueryResult.blockedNs (r : QueryResult) (p : Profile) (events : List Event) : Nat :=
  ((events.filter fun e => e.BlockedIn p r.selectedInvocationIds.toFinset).map (·.weightNs)).sum

theorem weight_capture (hf : q.functionId = request.function.id) (hm : q.metric.includes .offCpu = true)
    {r : QueryResult} (h : executeQuery (capture request resolver store names now release eventsDropped samplesDropped
      events finishNs) q = .ok r) :
    (capture request resolver store names now release eventsDropped samplesDropped events finishNs).weight q
        r.selectedInvocationIds.toFinset (fun s => s.state = .offCpu) =
      r.blockedNs (capture request resolver store names now release eventsDropped samplesDropped events finishNs)
        events := by
  have hsel := (executeQuery_totals knownStacks_capture h).1
  rw [weight_offCpu hm, QueryResult.blockedNs, sum_blockedIn]
  · exact invocationIds_capture
  · intro i hi
    rw [hsel, List.mem_toFinset] at hi
    obtain ⟨inv, hinv, rfl⟩ := List.mem_map.mp hi
    obtain ⟨hmem, he⟩ := mem_candidates.mp (selected_sublist.subset hinv)
    exact ⟨inv, hmem, rfl, he.valid⟩
  · intro inv hinv hv
    exact (offCpuWeights_capture hinv hv).sum_eq
  · intro s hs hstate
    obtain ⟨frames, hframes⟩ := offCpu_resolvedSamples hs hstate
    rw [hframes, selectedName_capture hf]
    exact any_startsAt_offCpuFrames hf frames

end SliceProfiler
