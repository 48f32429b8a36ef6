import SliceProfiler.Collector.Lemmas.Counters
import SliceProfiler.Collector.Lemmas.Local
import SliceProfiler.Collector.Lemmas.Samples

/-!
# Runs of the local path

What holds of the correlator and of the profile after every prefix of a stream without identities.
-/

namespace SliceProfiler

open Lib

/-- No invocation with the id has been invalidated. -/
structure Unharmed (active : Map Nat ActiveInvocation) (invocations : List Invocation) (i : Nat) : Prop where
  active : ∀ tid a, active.lookup tid = some a → a.id = i → a.valid = true
  closed : ∀ inv ∈ invocations, inv.id = i → inv.valid = true

/-- The state of the local path after the events `es`, whose tagged stream is `ts`. -/
structure LocalState (F : Finset (List Frame)) (p₀ : Profile) (es ts : List CollectorEvent) (c : Correlator)
    (p : Profile) : Prop where
  tracks : Tracks es ts c.nextInvocationId c.active p.invocations
  sourceMode : c.sourceMode = false
  table : StackTable F c p
  samples : ∀ i, Unharmed c.active p.invocations i → p.samplesUnder i = (samplesOf i ts).map (·.resolved i)
  complete : p.quality.completeInvocations =
    countUp (p.invocations.countP (·.valid)) p₀.quality.completeInvocations
  incomplete : p.quality.incompleteInvocations =
    countUp (p.invocations.countP (!·.valid)) p₀.quality.incompleteInvocations
  functions : p.functions = p₀.functions

variable {F : Finset (List Frame)} {p₀ p : Profile} {c : Correlator} {es ts : List CollectorEvent}
  {e : CollectorEvent} {a : ActiveInvocation} {tid t f : Nat}

theorem LocalState.initial (hi : p₀.invocations = []) (hk : p₀.stacks = []) (hs : p₀.samples = []) :
    LocalState F p₀ [] [] {} p₀ where
  tracks := by rw [hi]; exact .initial
  sourceMode := rfl
  table := .initial rfl rfl hk hs
  samples i _ := by simp [Profile.samplesUnder, Profile.resolvedSamples, hs, samplesOf]
  complete := by rw [hi]; rfl
  incomplete := by rw [hi]; rfl
  functions := rfl

/-! ## Returns -/

theorem samplesOf_concat_boundary {i : Nat} (h : e.sampleOf i = none) :
    samplesOf i (ts ++ [e]) = samplesOf i ts := by
  rw [samplesOf_concat, h]
  exact List.append_nil _

/-- What a return makes of the active invocation. -/
def returnedBy (tid timestampNs functionId : Nat) (active : ActiveInvocation) : Invocation :=
  ⟨active.id, active.functionId, none, tid, active.startNs, timestampNs, true,
    active.valid && active.functionId == functionId && decide (timestampNs ≥ active.startNs)⟩

theorem ActiveInvocation.Tracked.returned (h : a.Tracked tid es ts) (hlater : Later es (.ret none f tid t)) :
    (returnedBy tid t f a).Returned (es ++ [.ret none f tid t]) (ts ++ [.ret (some a.id) f tid t]) := by
  have hstart : a.startNs < t := hlater _ h.start (tid, t) rfl rfl
  have hs : samplesOf a.id (ts ++ [.ret (some a.id) f tid t]) = samplesOf a.id ts := samplesOf_concat_boundary rfl
  refine ⟨rfl, rfl, hstart.le, by simp [stampsOf_concat, CollectorEvent.stamp, returnedBy], ?_,
    a.functionId == f, ?_, ?_⟩
  · intro s hm
    change s ∈ samplesOf a.id _ at hm
    rw [hs] at hm
    exact ⟨(h.samples s hm).1, (hlater _ (h.samples s hm).2 (tid, t) rfl rfl).le⟩
  · change recordOf a.id _ = some (returnedRecord a.id a.functionId tid a.startNs t _ (samplesOf a.id _))
    rw [hs, recordOf_concat, h.record]
    simp [assemble, openRecord, returnedRecord, SourceInvocation.onReturn, hstart.le]
  · have hno : ∀ v, CollectorEvent.violationAt (.ret none f tid t) = some v →
        ¬ (v.1 = tid ∧ a.startNs ≤ v.2 ∧ v.2 ≤ t) := fun v hv => by cases hv
    have hbefore : (∀ v ∈ violationsOf es, v.1 = tid → v.2 < a.startNs) ↔
        ∀ v ∈ violationsOf es, ¬ (v.1 = tid ∧ a.startNs ≤ v.2 ∧ v.2 ≤ t) := by
      refine forall₂_congr fun v hv => ?_
      have hlt : v.1 = tid → v.2 < t := hlater v (mem_stampsOf_of_violation hv) (tid, t) rfl
      constructor
      · rintro hb ⟨ht, hge, -⟩
        exact absurd (hb ht) hge.not_gt
      · intro hn ht
        by_contra hge
        exact hn ⟨ht, not_lt.mp hge, (hlt ht).le⟩
    simp only [returnedBy, Bool.and_eq_true, decide_eq_true_eq, forall_violationsOf_concat, h.valid, hbefore]
    exact ⟨fun hv => ⟨hv.1.2, hv.1.1, hno⟩, fun hv => ⟨⟨hv.2.1, hv.1⟩, hstart.le⟩⟩

/-! ## Samples -/

theorem ActiveInvocation.Tracked.sample {s : PendingSample} (h : a.Tracked s.tid es ts)
    (hlater : Later es (.sample none s)) :
    a.Tracked s.tid (es ++ [.sample none s]) (ts ++ [.sample (some a.id) s]) := by
  have hs : samplesOf a.id (ts ++ [.sample (some a.id) s]) = samplesOf a.id ts ++ [s] := by
    simp [samplesOf_concat, CollectorEvent.sampleOf]
  refine ⟨h.thread, ?_, mem_stampsOf_concat h.start, ?_, ?_⟩
  · rw [hs, recordOf_concat, h.record]
    simp [assemble, openRecord, SourceInvocation.onSample]
  · intro x hx
    rw [hs, List.mem_append, List.mem_singleton] at hx
    rcases hx with hx | rfl
    · exact ⟨(h.samples x hx).1, mem_stampsOf_concat (h.samples x hx).2⟩
    · exact ⟨(hlater _ h.start (x.tid, x.timestampNs) rfl rfl).le, by simp [stampsOf_concat, CollectorEvent.stamp]⟩
  · rw [forall_violationsOf_concat, h.valid]
    exact ⟨fun hv => ⟨hv, fun v he => by cases he⟩, fun hv => hv.1⟩

/-! ## Violations -/

theorem ActiveInvocation.Tracked.violated (h : a.Tracked tid es ts) (hlater : Later es (.violation tid t)) :
    ActiveInvocation.Tracked { a with valid := false } tid (es ++ [.violation tid t]) (ts ++ [.violation tid t]) := by
  have hs : samplesOf a.id (ts ++ [.violation tid t]) = samplesOf a.id ts := samplesOf_concat_boundary rfl
  refine ⟨h.thread, ?_, mem_stampsOf_concat h.start, ?_, ?_⟩
  · change recordOf a.id _ = some (openRecord a.id a.functionId tid a.startNs (samplesOf a.id _))
    rw [hs, recordOf_concat, h.record]
    rfl
  · intro x hx
    change x ∈ samplesOf a.id _ at hx
    rw [hs] at hx
    exact ⟨(h.samples x hx).1, mem_stampsOf_concat (h.samples x hx).2⟩
  · refine ⟨fun hv => absurd hv Bool.false_ne_true, fun hv => ?_⟩
    have hlt : t < a.startNs := hv (tid, t) (by simp [violationsOf_concat, CollectorEvent.violationAt]) rfl
    exact absurd (hlater _ h.start (tid, t) rfl rfl) hlt.not_gt

/-! ## One event -/

theorem samplesOf_concat_ne {i : Nat} (h : e.invocationId ≠ some i) :
    samplesOf i (ts ++ [e]) = samplesOf i ts := by
  rw [samplesOf_concat, (tidOf_eq_none.mp (tidOf_of_ne h)).2.2]
  exact List.append_nil _

theorem LocalState.entry (h : LocalState F p₀ es ts c p) (hbound : es.countP CollectorEvent.isEntry < u64Max)
    (hlater : Later es (.entry none f tid t)) :
    LocalState F p₀ (es ++ [.entry none f tid t]) (ts ++ [.entry (some c.nextInvocationId) f tid t])
      (c.localEntry (p.count .generateEvent) f tid t).1 (c.localEntry (p.count .generateEvent) f tid t).2 := by
  have htracks := h.tracks.entry hbound hlater
  have hsame : ∀ i, samplesOf i (ts ++ [.entry (some c.nextInvocationId) f tid t]) = samplesOf i ts :=
    fun i => samplesOf_concat_boundary rfl
  -- an invocation that is unharmed after the entry was unharmed before it
  have hclean : ∀ i, Unharmed (c.active.insert tid ⟨c.nextInvocationId, f, tid, t, true⟩)
      (p.invocations ++ ((c.active.lookup tid).map (supersededBy tid t)).toList) i →
      Unharmed c.active p.invocations i := by
    intro i hu
    refine ⟨fun tid' a ha hid => ?_, fun inv hi => hu.closed inv (List.mem_append_left _ hi)⟩
    by_cases ht : tid' = tid
    · rw [ht] at ha
      have hv := hu.closed (supersededBy tid t a) (by simp [ha]) hid
      cases hv
    · exact hu.active tid' a (by rw [AList.lookup_insert_ne ht, ha]) hid
  unfold Correlator.localEntry
  cases hl : c.active.lookup tid with
  | none =>
      rw [hl, Option.map_none, Option.toList_none, List.append_nil] at htracks hclean
      exact ⟨htracks, h.sourceMode, h.table.keep rfl rfl rfl rfl,
        fun i hu => (h.samples i (hclean i hu)).trans (by rw [hsame i]),
        h.complete, h.incomplete, h.functions⟩
  | some existing =>
      rw [hl, Option.map_some, Option.toList_some] at htracks hclean
      refine ⟨htracks, h.sourceMode, h.table.keep rfl rfl rfl rfl,
        fun i hu => (h.samples i (hclean i hu)).trans (by rw [hsame i]),
        ?_, ?_, h.functions⟩
      · simp only [List.countP_append, List.countP_singleton, Bool.false_eq_true, ↓reduceIte, Nat.add_zero]
        exact h.complete
      · simp only [List.countP_append, List.countP_singleton, Bool.not_false, ↓reduceIte, countUp_succ]
        exact congrArg (fun q => satAdd64 q 1) h.incomplete

theorem LocalState.ret (h : LocalState F p₀ es ts c p) (ha : c.active.lookup tid = some a)
    (hlater : Later es (.ret none f tid t)) :
    LocalState F p₀ (es ++ [.ret none f tid t]) (ts ++ [.ret (some a.id) f tid t])
      (c.localReturn (p.count .generateEvent) f tid t).1 (c.localReturn (p.count .generateEvent) f tid t).2 := by
  have hev : TouchEvent tid a.id es (.ret none f tid t) (.ret (some a.id) f tid t) :=
    ⟨hlater, rfl, fun i hi => (Option.some.inj hi).symm, rfl, (fun _ hv => nomatch hv), rfl⟩
  have htracks := h.tracks.touch ha hev
    (.returns (returnedBy tid t f a) rfl ((h.tracks.tracked tid a ha).returned hlater))
  have hclean : ∀ i, Unharmed (c.active.erase tid) (p.invocations ++ [returnedBy tid t f a]) i →
      Unharmed c.active p.invocations i := by
    intro i hu
    refine ⟨fun tid' b hb hid => ?_, fun inv hi => hu.closed inv (List.mem_append_left _ hi)⟩
    by_cases ht : tid' = tid
    · rw [ht, ha] at hb
      cases hb
      have hv := hu.closed (returnedBy tid t f a) (by simp) hid
      simp only [returnedBy, Bool.and_eq_true] at hv
      exact hv.1.1
    · exact hu.active tid' b (by rw [lookup_erase_if, if_neg ht, hb]) hid
  have hsamples : ∀ i, Unharmed (c.active.erase tid) (p.invocations ++ [returnedBy tid t f a]) i →
      p.samplesUnder i = (samplesOf i (ts ++ [.ret (some a.id) f tid t])).map (·.resolved i) :=
    fun i hu => (h.samples i (hclean i hu)).trans (by rw [samplesOf_concat_boundary rfl])
  simp only [Correlator.localReturn, ha]
  refine ⟨htracks, h.sourceMode, h.table.keep rfl rfl rfl rfl, hsamples, ?_, ?_, h.functions⟩
  · simp only [List.countP_append, List.countP_singleton]
    split
    · rw [countUp_succ]
      exact congrArg (fun q => satAdd64 q 1) h.complete
    · exact h.complete
  · simp only [List.countP_append, List.countP_singleton]
    cases hv : a.valid && a.functionId == f && decide (t ≥ a.startNs) with
    | true => exact h.incomplete
    | false =>
        simp only [Bool.not_false, ↓reduceIte, countUp_succ]
        exact congrArg (fun q => satAdd64 q 1) h.incomplete

theorem Profile.samplesUnder_append {ks : List Stack} {ss : List Sample} {l : List ResolvedSample}
    (hr : ss.map (resolve ks) = p.resolvedSamples ++ l) (i : Nat) :
    Profile.samplesUnder { p with «stacks» := ks, samples := ss } i =
      p.samplesUnder i ++ l.filter fun r => r.invocationId = i := by
  change (ss.map (resolve ks)).filter _ = _
  rw [hr, List.filter_append]
  rfl

theorem LocalState.sample {s : PendingSample} (h : LocalState F p₀ es ts c p) (hF : F.card ≤ u32Max)
    (hs : s.frames ∈ F) (ha : c.active.lookup s.tid = some a) (hlater : Later es (.sample none s)) :
    LocalState F p₀ (es ++ [.sample none s]) (ts ++ [.sample (some a.id) s])
      (c.localSample (p.count .generateSample) s).1 (c.localSample (p.count .generateSample) s).2 := by
  have hev : TouchEvent s.tid a.id es (.sample none s) (.sample (some a.id) s) :=
    ⟨hlater, rfl, fun i hi => (Option.some.inj hi).symm, rfl, (fun _ hv => nomatch hv), rfl⟩
  have htracks := h.tracks.touch ha hev (.stays c.active a (fun _ _ => rfl) ha rfl
    ((h.tracks.tracked s.tid a ha).sample hlater))
  have hother : ∀ i, i ≠ a.id → samplesOf i (ts ++ [.sample (some a.id) s]) = samplesOf i ts :=
    fun i hi => samplesOf_concat_ne fun hc => hi (Option.some.inj hc).symm
  simp only [Correlator.localSample, ha]
  cases hv : a.valid with
  | false =>
      refine ⟨htracks, h.sourceMode, h.table.keep rfl rfl rfl rfl, fun i hu => ?_, h.complete, h.incomplete,
        h.functions⟩
      have hi : i ≠ a.id := by
        rintro rfl
        rw [hu.active s.tid a ha rfl] at hv
        cases hv
      exact (h.samples i hu).trans (by rw [hother i hi])
  | true =>
      have htable : StackTable F c (p.count .generateSample) := h.table.keep rfl rfl rfl rfl
      obtain ⟨c', ks, ss, happ⟩ := htable.append hF a.id hs
      have heq : c.appendSample (p.count .generateSample) a.id s =
          (c', { p.count .generateSample with «stacks» := ks, samples := ss }) := happ.eq
      have hc : c'.active = c.active ∧ c'.nextInvocationId = c.nextInvocationId ∧ c'.sourceMode = c.sourceMode := by
        have := congrArg Prod.fst heq
        simp only [Correlator.appendSample, Correlator.internStack] at this
        rw [← this]
        cases c.stackIds.lookup s.frames <;> exact ⟨rfl, rfl, rfl⟩
      simp only [↓reduceIte, heq]
      refine ⟨by rw [hc.1, hc.2.1]; exact htracks, hc.2.2.trans h.sourceMode, happ.table, fun i hu => ?_,
        h.complete, h.incomplete, h.functions⟩
      rw [hc.1] at hu
      rw [Profile.samplesUnder_append happ.resolved]
      change p.samplesUnder i ++ _ = _
      rw [h.samples i hu]
      by_cases hi : i = a.id
      · simp [hi, samplesOf_concat, CollectorEvent.sampleOf, PendingSample.resolved]
      · rw [hother i hi]
        simp [PendingSample.resolved, Ne.symm hi]

theorem LocalState.violation (h : LocalState F p₀ es ts c p) (ha : c.active.lookup tid = some a)
    (hlater : Later es (.violation tid t)) :
    LocalState F p₀ (es ++ [.violation tid t]) (ts ++ [.violation tid t])
      (c.violation (p.count .generateEvent) tid t).1 (c.violation (p.count .generateEvent) tid t).2 := by
  have hev : TouchEvent tid a.id es (.violation tid t) (.violation tid t) :=
    ⟨hlater, rfl, (fun _ hi => nomatch hi), rfl, (fun v hv => by cases hv; rfl), trivial⟩
  have htracks := h.tracks.touch ha hev (.stays (c.active.insert tid { a with valid := false }) _
    (fun tid' ht => AList.lookup_insert_ne ht) (AList.lookup_insert _) rfl
    ((h.tracks.tracked tid a ha).violated hlater))
  have hclean : ∀ i, Unharmed (c.active.insert tid { a with valid := false }) p.invocations i →
      Unharmed c.active p.invocations i := by
    intro i hu
    refine ⟨fun tid' b hb hid => ?_, hu.closed⟩
    by_cases ht : tid' = tid
    · rw [ht, ha] at hb
      cases hb
      have hv := hu.active tid _ (AList.lookup_insert _) hid
      cases hv
    · exact hu.active tid' b (by rw [AList.lookup_insert_ne ht, hb]) hid
  have hsamples : ∀ i, Unharmed (c.active.insert tid { a with valid := false }) p.invocations i →
      p.samplesUnder i = (samplesOf i (ts ++ [.violation tid t])).map (·.resolved i) :=
    fun i hu => (h.samples i (hclean i hu)).trans (by rw [samplesOf_concat_boundary rfl])
  simp only [Correlator.violation, ha]
  split
  · exact ⟨htracks, h.sourceMode, h.table.keep rfl rfl rfl rfl, hsamples, h.complete, h.incomplete, h.functions⟩
  · exact ⟨htracks, h.sourceMode, h.table.keep rfl rfl rfl rfl, hsamples, h.complete, h.incomplete, h.functions⟩

/-- An event that no active invocation takes part in changes at most the counters that are not compared. -/
theorem LocalState.skip {l : List CollectorEvent} (h : LocalState F p₀ es ts c p)
    (htracks : Tracks (es ++ [e]) (ts ++ l) c.nextInvocationId c.active p.invocations)
    (hl : ∀ x ∈ l, x.invocationId = none) (vs : List (Nat × Nat)) (g : CaptureQuality → CaptureQuality)
    (hg : ∀ q, (g q).completeInvocations = q.completeInvocations ∧
      (g q).incompleteInvocations = q.incompleteInvocations) :
    LocalState F p₀ (es ++ [e]) (ts ++ l) { c with sourceViolations := vs } (p.count g) := by
  have hsame : ∀ i, samplesOf i (ts ++ l) = samplesOf i ts := fun i =>
    (record_append (i := i) ts fun x hx => by rw [hl x hx]; exact fun hc => nomatch hc).2
  exact ⟨htracks, h.sourceMode, h.table.keep rfl rfl rfl rfl, fun i hu => (h.samples i hu).trans (by rw [hsame i]),
    (hg _).1.trans h.complete, (hg _).2.trans h.incomplete, h.functions⟩

theorem LocalState.push (h : LocalState F p₀ es ts c p) (he : e.Untagged)
    (hbound : (es ++ [e]).countP CollectorEvent.isEntry ≤ u64Max) (hlater : Later es e) (hF : F.card ≤ u32Max)
    (hf : ∀ frames, e.frames = some frames → frames ∈ F) :
    LocalState F p₀ (es ++ [e]) (ts ++ (c.tag e).toList) (c.push p e).1 (c.push p e).2 := by
  have hnil : ∀ x ∈ ([] : List CollectorEvent), x.invocationId = none := by simp
  have hnil' : ∀ x ∈ ([] : List CollectorEvent), x.invocationId = none ∧ x.Tagged := by simp
  cases e with
  | entry id f tid t =>
      cases id with
      | some id => cases he
      | none =>
          refine h.entry ?_ hlater
          exact Nat.lt_of_succ_le (by simpa [List.countP_append, CollectorEvent.isEntry] using hbound)
  | ret id f tid t =>
      cases id with
      | some id => cases he
      | none =>
          cases ha : c.active.lookup tid with
          | some a => simpa [Correlator.tag, Correlator.push, ha] using h.ret ha hlater
          | none =>
              have htracks := h.tracks.skip rfl hlater hnil' rfl (fun v hv => by cases hv)
              simp only [Correlator.tag, Correlator.push, Correlator.localReturn, ha]
              exact h.skip htracks hnil c.sourceViolations (fun q => q.generateEvent.mismatch) fun _ => ⟨rfl, rfl⟩
  | violation tid t =>
      cases ha : c.active.lookup tid with
      | some a => exact h.violation ha hlater
      | none =>
          have htracks := h.tracks.skip (l := [.violation tid t]) rfl hlater
            (by simp [CollectorEvent.invocationId, CollectorEvent.Tagged])
            rfl (fun v hv => by cases hv; exact ha)
          simp only [Correlator.tag, Correlator.push, Correlator.violation, ha]
          exact h.skip htracks (by simp [CollectorEvent.invocationId]) _ (fun q => q.generateEvent.mismatch)
            fun _ => ⟨rfl, rfl⟩
  | sample id s =>
      cases id with
      | some id => cases he
      | none =>
          cases ha : c.active.lookup s.tid with
          | some a => simpa [Correlator.tag, Correlator.push, ha] using h.sample hF (hf s.frames rfl) ha hlater
          | none =>
              have htracks := h.tracks.skip rfl hlater hnil' rfl (fun v hv => by cases hv)
              simp only [Correlator.tag, Correlator.push, Correlator.localSample, ha]
              exact h.skip htracks hnil c.sourceViolations _ fun _ => ⟨rfl, rfl⟩
  | droppedEvents n =>
      have htracks := h.tracks.skip (l := [.droppedEvents n]) rfl hlater
        (by simp [CollectorEvent.invocationId, CollectorEvent.Tagged])
        rfl (fun v hv => by cases hv)
      exact h.skip htracks (by simp [CollectorEvent.invocationId]) c.sourceViolations _ fun _ => ⟨rfl, rfl⟩
  | droppedSamples n =>
      have htracks := h.tracks.skip (l := [.droppedSamples n]) rfl hlater
        (by simp [CollectorEvent.invocationId, CollectorEvent.Tagged])
        rfl (fun v hv => by cases hv)
      exact h.skip htracks (by simp [CollectorEvent.invocationId]) c.sourceViolations _ fun _ => ⟨rfl, rfl⟩

theorem localState_pushAll (hi : p₀.invocations = []) (hk : p₀.stacks = []) (hs : p₀.samples = [])
    (hF : F.card ≤ u32Max) (he : ∀ e ∈ es, e.Untagged) (hincrease : StampsIncrease es)
    (hbound : es.countP CollectorEvent.isEntry ≤ u64Max) (hf : framesIn es ⊆ F) :
    LocalState F p₀ es (tagAll ({}, p₀) es) (pushAll ({}, p₀) es).1 (pushAll ({}, p₀) es).2 := by
  induction es using List.reverseRecOn with
  | nil => exact .initial hi hk hs
  | append_singleton es e ih =>
      obtain ⟨hbefore, hlater⟩ := hincrease.concat
      have hbound' : es.countP CollectorEvent.isEntry ≤ u64Max := by
        rw [List.countP_append] at hbound
        omega
      have hframes : framesIn es ⊆ F := by
        intro frames hm
        refine hf (List.mem_toFinset.mpr ?_)
        rw [List.filterMap_append]
        exact List.mem_append_left _ (List.mem_toFinset.mp hm)
      have ih := ih (fun e' h' => he e' (List.mem_append_left _ h')) hbefore hbound' hframes
      rw [tagAll_concat, pushAll_concat]
      refine ih.push (he e (by simp)) hbound hlater hF fun frames h => hf ?_
      exact List.mem_toFinset.mpr (List.mem_filterMap.mpr ⟨e, by simp, h⟩)

end SliceProfiler
