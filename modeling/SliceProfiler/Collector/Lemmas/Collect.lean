import SliceProfiler.Collector.Lemmas.Finish

/-!
# The profile of a sequence of events
-/

namespace SliceProfiler

open Lib

/-! ## The records at the end -/

/-- The records by increasing identity, after the violations. -/
def sources (es : List CollectorEvent) : List SourceInvocation :=
  sortByKey (·.id) ((es.foldl Correlator.collect {}).sourceInvocations.values.map (·.marked (violationsOf es)))

/-- How often a violation falls inside a record. -/
def suspicions (es : List CollectorEvent) : Nat :=
  ((violationsOf es).map fun v =>
    (es.foldl Correlator.collect {}).sourceInvocations.values.countP (·.violatedAt v)).sum

variable {es : List CollectorEvent} {p : Profile} {t : Nat}

theorem recordOf_id {i : Nat} {r : SourceInvocation} (h : recordOf i es = some r) : Describes i es r := by
  rcases recordOf_spec i es with ⟨hn, -⟩ | ⟨r', hr, hd⟩
  · rw [h] at hn; cases hn
  · rw [h] at hr; cases hr; exact hd

theorem mem_sources {r : SourceInvocation} :
    r ∈ sources es ↔ ∃ i r', recordOf i es = some r' ∧ r'.marked (violationsOf es) = r := by
  simp only [sources, mem_sortByKey, List.mem_map, Map.mem_values, lookup_collectAll]
  constructor
  · rintro ⟨r', ⟨i, hi⟩, he⟩; exact ⟨i, r', hi, he⟩
  · rintro ⟨i, r', hi, he⟩; exact ⟨r', ⟨i, hi⟩, he⟩

theorem sources_strict (es : List CollectorEvent) : (sources es).Pairwise fun r s => r.id < s.id := by
  refine sortByKey_strict ?_
  rw [List.map_map]
  refine Map.values_nodup fun i r hr => ?_
  rw [lookup_collectAll] at hr
  exact (recordOf_id hr).id

theorem sources_nodup (es : List CollectorEvent) : ((sources es).map (·.id)).Nodup :=
  List.pairwise_map.mpr ((sources_strict es).imp fun h => h.ne)

/-! ## The whole capture -/

theorem appendAll_active (s : Correlator × Profile) (l : List (Nat × PendingSample)) :
    (appendAll s l).1.active = s.1.active := by
  induction l generalizing s with
  | nil => rfl
  | cons x l ih =>
      refine (ih _).trans ?_
      simp only [Correlator.appendSample, Correlator.internStack]
      cases s.1.stackIds.lookup x.2.frames <;> rfl

/-- The profile without its samples: the reports, and the counters of the events, of the violations and
of the records. -/
def bookOf (p : Profile) (es : List CollectorEvent) (t : Nat) : Profile :=
  p.setBook (p.invocations ++ (sources es).filterMap (·.report t))
    ((sources es).foldl (SourceInvocation.tally t)
      (CaptureQuality.suspect^[suspicions es] (es.foldl CollectorEvent.tally p.quality)))

/-- The samples that reach the profile, in their order. -/
def keptSamples (es : List CollectorEvent) (t : Nat) : List (Nat × PendingSample) :=
  (sources es).flatMap (·.kept t)

def keptFrames (es : List CollectorEvent) (t : Nat) : Finset (List Frame) :=
  ((keptSamples es t).map (·.2.frames)).toFinset

theorem collectEvents_eq (he : ∀ e ∈ es, e.Tagged) (p : Profile) (t : Nat) :
    ∃ c, c.stackIds = ∅ ∧ c.nextStackId = 1 ∧
      collectEvents p es t = (appendAll (c, bookOf p es t) (keptSamples es t)).2 := by
  have hc : Collecting (es.foldl Correlator.collect {}) := collecting_collectAll .initial es
  rw [collectEvents, pushAll_of_tagged he rfl]
  generalize hc₁ : es.foldl Correlator.collect {} = c₁ at hc
  refine ⟨{ c₁ with sourceInvocations := ∅ }, hc.stackIds, hc.nextStackId, ?_⟩
  have hsource : c₁.finishSource (p.count fun q => es.foldl CollectorEvent.tally q) t =
      appendAll ({ c₁ with sourceInvocations := ∅ }, bookOf p es t) (keptSamples es t) := by
    have hv : c₁.sourceViolations = violationsOf es := by rw [← hc₁, collectAll_violations]
    simp only [Correlator.finishSource, hv, foldl_markViolation, foldl_finishInvocation, bookOf,
      keptSamples, sources, suspicions, hc₁]
    rfl
  cases hm : c₁.sourceMode with
  | true =>
      simp only [Correlator.finish, hm, ↓reduceIte, hsource, appendAll_active, hc.active]
      rfl
  | false =>
      -- no event had an identity, so there are no records
      have hvalues : (es.foldl Correlator.collect {}).sourceInvocations.values = [] := by
        rw [hc₁, hc.sourceMode hm]; rfl
      have hsrc : sources es = [] := by rw [sources, hvalues]; rfl
      have hsus : suspicions es = 0 := by simp [suspicions, hvalues]
      simp only [Correlator.finish, hm, hc.active, bookOf, keptSamples, hsrc, hsus, Bool.false_eq_true, ↓reduceIte,
        List.filterMap_nil, List.append_nil, List.foldl_nil, Function.iterate_zero, id_eq, List.flatMap_nil]
      rfl

/-- The frames of a kept sample are those of some sample event. -/
theorem frames_of_kept {r : SourceInvocation} (hr : r ∈ sources es) {x : Nat × PendingSample}
    (hx : x ∈ r.kept t) : x.1 = r.id ∧ x.2 ∈ samplesOf r.id es ∧ x.2.frames ∈ framesIn es := by
  obtain ⟨i, r', hr', rfl⟩ := mem_sources.mp hr
  have hd := recordOf_id hr'
  have hid : (r'.marked (violationsOf es)).id = i := hd.id
  have hmem : x.1 = (r'.marked (violationsOf es)).id ∧ x.2 ∈ (r'.marked (violationsOf es)).samples := by
    unfold SourceInvocation.kept at hx
    split at hx
    · split at hx
      · obtain ⟨s, hs, rfl⟩ := List.mem_map.mp hx
        exact ⟨rfl, List.mem_of_mem_filter hs⟩
      · cases hx
    · cases hx
  have hs : x.2 ∈ samplesOf i es := by rw [← hd.samples]; exact hmem.2
  refine ⟨hmem.1, hid ▸ hs, ?_⟩
  obtain ⟨e, he, hes⟩ := List.mem_filterMap.mp hs
  refine List.mem_toFinset.mpr (List.mem_filterMap.mpr ⟨e, he, ?_⟩)
  cases e with
  | sample id s =>
      cases id with
      | none => cases hes
      | some id =>
          simp only [CollectorEvent.sampleOf] at hes
          split at hes
          · cases hes; rfl
          · cases hes
  | entry | ret | violation | droppedEvents | droppedSamples => cases hes

theorem keptFrames_subset (es : List CollectorEvent) (t : Nat) : keptFrames es t ⊆ framesIn es := by
  intro frames h
  obtain ⟨x, hx, rfl⟩ := List.mem_map.mp (List.mem_toFinset.mp h)
  obtain ⟨r, hr, hx⟩ := List.mem_flatMap.mp hx
  exact (frames_of_kept hr hx).2.2

/-- The profile that a sequence of events leads to. -/
structure Collected (p : Profile) (es : List CollectorEvent) (t : Nat) (ks : List Stack) (ss : List Sample) :
    Prop where
  eq : collectEvents p es t = { bookOf p es t with «stacks» := ks, samples := ss }
  table : ∃ c, StackTable (keptFrames es t) c { bookOf p es t with «stacks» := ks, samples := ss }
  resolved : ss.map (resolve ks) = (keptSamples es t).map fun x => x.2.resolved x.1

theorem collected_of_kept (he : ∀ e ∈ es, e.Tagged) (hF : (keptFrames es t).card ≤ u32Max)
    (hk : p.stacks = []) (hs : p.samples = []) : ∃ ks ss, Collected p es t ks ss := by
  obtain ⟨c, hcs, hcn, heq⟩ := collectEvents_eq he p t
  have htable : StackTable (keptFrames es t) c (bookOf p es t) := .initial hcs hcn hk hs
  obtain ⟨c', ks, ss, ha⟩ := htable.appendAll (s := (c, bookOf p es t)) hF (l := keptSamples es t)
    fun x hx => List.mem_toFinset.mpr (List.mem_map_of_mem hx)
  refine ⟨ks, ss, ?_, ⟨c', ha.table⟩, ?_⟩
  · rw [heq, ha.eq]
  · rw [ha.resolved]
    simp [Profile.resolvedSamples, bookOf, Profile.setBook, hs]

theorem collected (he : ∀ e ∈ es, e.Tagged) (hF : (framesIn es).card ≤ u32Max) (hk : p.stacks = [])
    (hs : p.samples = []) (t : Nat) : ∃ ks ss, Collected p es t ks ss :=
  collected_of_kept he ((Finset.card_le_card (keptFrames_subset es t)).trans hF) hk hs

theorem Collected.usedStacks {ks : List Stack} {ss : List Sample} (h : Collected p es t ks ss) :
    ({ bookOf p es t with «stacks» := ks, samples := ss } : Profile).UsedStacks := by
  obtain ⟨c, htable⟩ := h.table
  intro k hk
  obtain ⟨x, hx, he⟩ := List.mem_map.mp (List.mem_toFinset.mp (htable.bounded k hk))
  refine ⟨x.2.resolved x.1, ?_, he⟩
  rw [Profile.resolvedSamples, h.resolved]
  exact List.mem_map_of_mem (f := fun x : Nat × PendingSample => x.2.resolved x.1) hx

end SliceProfiler
