import SliceProfiler.Collector.Lemmas.Counters
import SliceProfiler.Collector.Lemmas.Samples

/-!
# The counters of any sequence of events

Each operation of the correlator either leaves the records alone or appends one record and counts it. This holds for
events with and without an identity, in any mixture.
-/

namespace SliceProfiler

open Lib

/-- The counters of a profile fit its invocations, and count so many events and samples. A counter stops at its
largest value. -/
structure Ledger (p : Profile) (events samples : Nat) : Prop where
  complete : p.quality.completeInvocations = min (p.invocations.countP fun i => i.complete && i.valid) u64Max
  incomplete : p.quality.incompleteInvocations = min (p.invocations.countP fun i => !(i.complete && i.valid)) u64Max
  events : p.quality.eventsGenerated = min events u64Max
  samples : p.quality.samplesGenerated = min samples u64Max

/-- The invocations and the counters that a ledger is about. -/
def Profile.books (p : Profile) : List Invocation × Nat × Nat × Nat × Nat :=
  (p.invocations, p.quality.completeInvocations, p.quality.incompleteInvocations, p.quality.eventsGenerated,
    p.quality.samplesGenerated)

variable {c : Correlator} {p p' : Profile} {m n t : Nat}

/-! ## What an operation may do -/

theorem Ledger.keep (h : Ledger p n m) (hb : p'.books = p.books) : Ledger p' n m := by
  simp only [Profile.books, Prod.mk.injEq] at hb
  obtain ⟨hi, hc, hinc, he, hs⟩ := hb
  exact ⟨by rw [hc, hi, h.complete], by rw [hinc, hi, h.incomplete], he.trans h.events, hs.trans h.samples⟩

theorem Ledger.closeGood (h : Ledger p n m) {inv : Invocation}
    (hb : p'.books = (p.invocations ++ [inv], satAdd64 p.quality.completeInvocations 1,
      p.quality.incompleteInvocations, p.quality.eventsGenerated, p.quality.samplesGenerated))
    (hg : (inv.complete && inv.valid) = true) : Ledger p' n m := by
  simp only [Profile.books, Prod.mk.injEq] at hb
  obtain ⟨hi, hc, hinc, he, hs⟩ := hb
  refine ⟨?_, ?_, he.trans h.events, hs.trans h.samples⟩
  · rw [hc, hi, h.complete, List.countP_append, List.countP_singleton, hg, satAdd64, saturatingAdd_min]
    rfl
  · rw [hinc, hi, h.incomplete, List.countP_append, List.countP_singleton, hg]
    rfl

theorem Ledger.closeBad (h : Ledger p n m) {inv : Invocation}
    (hb : p'.books = (p.invocations ++ [inv], p.quality.completeInvocations,
      satAdd64 p.quality.incompleteInvocations 1, p.quality.eventsGenerated, p.quality.samplesGenerated))
    (hg : (inv.complete && inv.valid) = false) : Ledger p' n m := by
  simp only [Profile.books, Prod.mk.injEq] at hb
  obtain ⟨hi, hc, hinc, he, hs⟩ := hb
  refine ⟨?_, ?_, he.trans h.events, hs.trans h.samples⟩
  · rw [hc, hi, h.complete, List.countP_append, List.countP_singleton, hg]
    rfl
  · rw [hinc, hi, h.incomplete, List.countP_append, List.countP_singleton, hg, satAdd64, saturatingAdd_min]
    rfl

theorem Ledger.event (h : Ledger p n m) : Ledger (p.count .generateEvent) (n + 1) m :=
  ⟨h.complete, h.incomplete, by
    change satAdd64 p.quality.eventsGenerated 1 = _
    rw [h.events, satAdd64, saturatingAdd_min], h.samples⟩

theorem Ledger.sample (h : Ledger p n m) : Ledger (p.count .generateSample) n (m + 1) :=
  ⟨h.complete, h.incomplete, h.events, by
    change satAdd64 p.quality.samplesGenerated 1 = _
    rw [h.samples, satAdd64, saturatingAdd_min]⟩

/-! ## Events -/

/-- An event that counts as generated. -/
def CollectorEvent.isGenerated : CollectorEvent → Bool
  | .entry .. | .ret .. | .violation .. => true
  | _ => false

theorem books_appendSample (id : Nat) (s : PendingSample) : (c.appendSample p id s).2.books = p.books := by
  obtain ⟨hi, hq⟩ := appendSample_book (c := c) (p := p) id s
  rw [Profile.books, hi, hq]
  rfl

theorem Ledger.localEntry (h : Ledger p n m) (f tid ts : Nat) : Ledger (c.localEntry p f tid ts).2 n m := by
  unfold Correlator.localEntry
  cases c.active.lookup tid with
  | none => exact h
  | some existing => exact h.closeBad rfl rfl

theorem Ledger.localReturn (h : Ledger p n m) (f tid ts : Nat) : Ledger (c.localReturn p f tid ts).2 n m := by
  unfold Correlator.localReturn
  cases c.active.lookup tid with
  | none => exact h.keep rfl
  | some active =>
      dsimp only
      cases active.valid && active.functionId == f && decide (ts ≥ active.startNs) with
      | true => exact h.closeGood rfl rfl
      | false => exact h.closeBad rfl rfl

theorem Ledger.localSample (h : Ledger p n m) (s : PendingSample) : Ledger (c.localSample p s).2 n m := by
  unfold Correlator.localSample
  cases c.active.lookup s.tid with
  | none => exact h
  | some active =>
      dsimp only
      split
      · exact h.keep (books_appendSample _ s)
      · exact h

theorem Ledger.violation (h : Ledger p n m) (tid ts : Nat) : Ledger (c.violation p tid ts).2 n m := by
  unfold Correlator.violation
  dsimp only
  cases c.active.lookup tid with
  | none => exact h.keep rfl
  | some active =>
      dsimp only
      split
      · exact h.keep rfl
      · exact h.keep rfl

theorem Ledger.push (h : Ledger p n m) (e : CollectorEvent) :
    Ledger (c.push p e).2 (n + if e.isGenerated then 1 else 0) (m + if e.isSample then 1 else 0) := by
  cases e with
  | entry id f tid ts =>
      cases id with
      | none => exact h.event.localEntry f tid ts
      | some id => exact h.event
  | ret id f tid ts =>
      cases id with
      | none => exact h.event.localReturn f tid ts
      | some id => exact h.event
  | violation tid ts => exact h.event.violation tid ts
  | sample id s =>
      cases id with
      | none => exact h.sample.localSample s
      | some id => exact h.sample
  | droppedEvents | droppedSamples => exact h.keep rfl

theorem ledger_pushAll (h : Ledger p 0 0) (es : List CollectorEvent) :
    Ledger (pushAll (c, p) es).2 (es.countP CollectorEvent.isGenerated) (es.countP CollectorEvent.isSample) := by
  induction es using List.reverseRecOn with
  | nil => exact h
  | append_singleton es e ih =>
      rw [pushAll, List.foldl_concat, List.countP_append, List.countP_append, List.countP_singleton,
        List.countP_singleton]
      exact ih.push e

/-! ## The end of the capture -/

theorem Ledger.finishSamples (id startNs endNs : Nat) (samples : List PendingSample) {s : Correlator × Profile}
    (h : Ledger s.2 n m) : Ledger (samples.foldl (Correlator.finishSample id startNs endNs) s).2 n m := by
  induction samples generalizing s with
  | nil => exact h
  | cons x samples ih =>
      apply ih
      unfold Correlator.finishSample
      split
      · exact h.keep rfl
      · exact h.keep (books_appendSample id x)

theorem books_incomplete (p : Profile) (complete : Bool) :
    (p.count fun q => if complete then q.incomplete.mismatch else q.incomplete).books =
      (p.invocations, p.quality.completeInvocations, satAdd64 p.quality.incompleteInvocations 1,
        p.quality.eventsGenerated, p.quality.samplesGenerated) := by
  cases complete <;> rfl

theorem Ledger.finishInvocation {s : Correlator × Profile} (h : Ledger s.2 n m) (i : SourceInvocation) :
    Ledger (Correlator.finishInvocation t s i).2 n m := by
  unfold Correlator.finishInvocation
  cases i.functionId with
  | none => exact h
  | some f =>
      cases i.startNs with
      | none => exact h
      | some start =>
          dsimp only
          split
          · rename_i hv
            refine (h.closeGood rfl ?_).finishSamples ..
            simp only [Bool.and_eq_true] at hv ⊢
            exact ⟨hv.1.2, hv⟩
          · rename_i hv
            rw [Bool.not_eq_true] at hv
            exact h.closeBad (books_incomplete _ _) (Bool.and_eq_false_imp.mpr fun _ => hv)

theorem books_suspect (k : Nat) (q : CaptureQuality) :
    ({ p with quality := CaptureQuality.suspect^[k] q } : Profile).books =
      ({ p with quality := q } : Profile).books := by
  induction k generalizing q with
  | zero => rfl
  | succ k ih => rw [Function.iterate_succ_apply, ih]; rfl

theorem Ledger.finishSource (h : Ledger p n m) : Ledger (c.finishSource p t).2 n m := by
  rw [Correlator.finishSource, foldl_markViolation]
  refine List.foldlRecOn _ _ (motive := fun s : Correlator × Profile => Ledger s.2 n m) ?_
    fun s hs i _ => hs.finishInvocation i
  exact h.keep (books_suspect _ p.quality)

theorem Ledger.finish (h : Ledger p n m) : Ledger (c.finish p t) n m := by
  have hactive : ∀ (p : Profile) (l : List ActiveInvocation), Ledger p n m →
      Ledger (l.foldl (finishActive t) p) n m := by
    intro p l hp
    refine List.foldlRecOn l _ (motive := fun q : Profile => Ledger q n m) hp fun q hq a _ => ?_
    exact hq.closeBad rfl rfl
  unfold Correlator.finish
  cases c.sourceMode with
  | true => exact hactive _ _ h.finishSource
  | false => exact hactive _ _ h

/-! ## The number of samples -/

theorem length_appendSample (id : Nat) (s : PendingSample) :
    (c.appendSample p id s).2.samples.length = p.samples.length + 1 := by
  simp only [Correlator.appendSample, Correlator.internStack]
  cases c.stackIds.lookup s.frames <;> simp

/-- A sample event without an identity adds one sample at most, and no other event adds any. -/
theorem length_samples_push (e : CollectorEvent) : (c.push p e).2.samples.length ≤
    p.samples.length + if e.isSample && e.invocationId.isNone then 1 else 0 := by
  cases e with
  | entry id f tid ts =>
      cases id with
      | none =>
          simp only [Correlator.push, Correlator.localEntry]
          cases c.active.lookup tid <;> exact Nat.le_refl _
      | some id => exact Nat.le_refl _
  | ret id f tid ts =>
      cases id with
      | none =>
          simp only [Correlator.push, Correlator.localReturn]
          cases c.active.lookup tid <;> exact Nat.le_refl _
      | some id => exact Nat.le_refl _
  | violation tid ts =>
      simp only [Correlator.push, Correlator.violation]
      cases c.active.lookup tid with
      | none => exact Nat.le_refl _
      | some active => dsimp only; split <;> exact Nat.le_refl _
  | sample id s =>
      cases id with
      | none =>
          simp only [Correlator.push, Correlator.localSample]
          cases c.active.lookup s.tid with
          | none => exact Nat.le_succ _
          | some active =>
              dsimp only
              split
              · exact (length_appendSample active.id s).le
              · exact Nat.le_succ _
      | some id => exact Nat.le_refl _
  | droppedEvents | droppedSamples => exact Nat.le_refl _

theorem length_samples_pushAll (es : List CollectorEvent) : (pushAll (c, p) es).2.samples.length ≤
    p.samples.length + es.countP fun e => e.isSample && e.invocationId.isNone := by
  induction es using List.reverseRecOn with
  | nil => exact Nat.le_refl _
  | append_singleton es e ih =>
      rw [pushAll, List.foldl_concat, List.countP_append, List.countP_singleton]
      have hpush := length_samples_push (c := (pushAll (c, p) es).1) (p := (pushAll (c, p) es).2) e
      rw [pushAll] at ih hpush
      omega

/-- The records that the events leave behind do not depend on the events without an identity. -/
theorem sources_push {d : Correlator} (hi : c.sourceInvocations = d.sourceInvocations)
    (hv : c.sourceViolations = d.sourceViolations) (e : CollectorEvent) :
    (c.push p e).1.sourceInvocations = (d.collect e).sourceInvocations ∧
      (c.push p e).1.sourceViolations = (d.collect e).sourceViolations := by
  cases e with
  | entry id f tid ts =>
      cases id with
      | none => exact ⟨hi, hv⟩
      | some id =>
          simp only [Correlator.push, Correlator.collect, Correlator.sourceEntry]
          exact ⟨by rw [hi], hv⟩
  | ret id f tid ts =>
      cases id with
      | none =>
          simp only [Correlator.push, Correlator.localReturn]
          cases c.active.lookup tid <;> exact ⟨hi, hv⟩
      | some id =>
          simp only [Correlator.push, Correlator.collect, Correlator.sourceReturn]
          exact ⟨by rw [hi], hv⟩
  | violation tid ts =>
      simp only [Correlator.push, Correlator.collect, Correlator.violation]
      cases c.active.lookup tid <;> exact ⟨hi, by rw [hv]⟩
  | sample id s =>
      cases id with
      | none =>
          simp only [Correlator.push, Correlator.localSample]
          cases c.active.lookup s.tid with
          | none => exact ⟨hi, hv⟩
          | some active =>
              dsimp only
              split
              · simp only [Correlator.appendSample, Correlator.internStack]
                cases c.stackIds.lookup s.frames <;> exact ⟨hi, hv⟩
              · exact ⟨hi, hv⟩
      | some id =>
          simp only [Correlator.push, Correlator.collect, Correlator.sourceSample]
          exact ⟨by rw [hi], hv⟩
  | droppedEvents | droppedSamples => exact ⟨hi, hv⟩

theorem sources_pushAll (es : List CollectorEvent) :
    (pushAll ({}, p) es).1.sourceInvocations = (es.foldl Correlator.collect {}).sourceInvocations ∧
      (pushAll ({}, p) es).1.sourceViolations = (es.foldl Correlator.collect {}).sourceViolations := by
  induction es using List.reverseRecOn with
  | nil => exact ⟨rfl, rfl⟩
  | append_singleton es e ih =>
      rw [pushAll, List.foldl_concat, List.foldl_concat]
      exact sources_push ih.1 ih.2 e

theorem length_finishSamples (id startNs endNs : Nat) (samples : List PendingSample) (s : Correlator × Profile) :
    (samples.foldl (Correlator.finishSample id startNs endNs) s).2.samples.length ≤
      s.2.samples.length + samples.length := by
  induction samples generalizing s with
  | nil => exact Nat.le_refl _
  | cons x samples ih =>
      have hx : (Correlator.finishSample id startNs endNs s x).2.samples.length ≤ s.2.samples.length + 1 := by
        unfold Correlator.finishSample
        split
        · exact Nat.le_succ _
        · exact (length_appendSample id x).le
      have hrest := ih (Correlator.finishSample id startNs endNs s x)
      rw [List.foldl_cons, List.length_cons]
      omega

theorem length_finishInvocation (s : Correlator × Profile) (i : SourceInvocation) :
    (Correlator.finishInvocation t s i).2.samples.length ≤ s.2.samples.length + i.samples.length := by
  unfold Correlator.finishInvocation
  cases i.functionId with
  | none => exact Nat.le_add_right _ _
  | some f =>
      cases i.startNs with
      | none => exact Nat.le_add_right _ _
      | some start =>
          dsimp only
          split
          · exact length_finishSamples i.id _ _ i.samples _
          · exact Nat.le_add_right _ _

theorem length_finishInvocations (l : List SourceInvocation) (s : Correlator × Profile) :
    (l.foldl (Correlator.finishInvocation t) s).2.samples.length ≤
      s.2.samples.length + (l.map fun i => i.samples.length).sum := by
  induction l generalizing s with
  | nil => exact Nat.le_refl _
  | cons i l ih =>
      have hi := length_finishInvocation (t := t) s i
      have hl := ih (Correlator.finishInvocation t s i)
      rw [List.foldl_cons, List.map_cons, List.sum_cons]
      omega

/-- The samples of all records are samples with an identity. -/
theorem length_sources_samples (es : List CollectorEvent) :
    ((sources es).map fun i => i.samples.length).sum ≤ es.countP fun e => e.isSample && e.invocationId.isSome := by
  have hof : ∀ i, samplesOf i (es.filter fun e => e.invocationId.isSome) = samplesOf i es := by
    intro i
    rw [samplesOf, samplesOf, List.filterMap_filter]
    refine List.filterMap_congr fun e _ => ?_
    cases e with
    | entry id | ret id | sample id => cases id <;> rfl
    | violation | droppedEvents | droppedSamples => rfl
  have hmap : ((sources es).map fun i => i.samples.length) =
      ((sources es).map (·.id)).map fun i => (samplesOf i (es.filter fun e => e.invocationId.isSome)).length := by
    rw [List.map_map]
    refine List.map_congr_left fun r hr => ?_
    rw [Function.comp_apply, hof, samples_of_mem_sources hr]
  rw [hmap]
  refine (length_samplesOf_sum (sources_nodup es) _).trans_eq ?_
  rw [List.countP_filter]

theorem length_samples_finish (es : List CollectorEvent) :
    ((pushAll ({}, p) es).1.finish (pushAll ({}, p) es).2 t).samples.length ≤
      p.samples.length + es.countP CollectorEvent.isSample := by
  have hpush := length_samples_pushAll (c := {}) (p := p) es
  have hsource : ((pushAll ({}, p) es).1.finishSource (pushAll ({}, p) es).2 t).2.samples.length ≤
      (pushAll ({}, p) es).2.samples.length + es.countP fun e => e.isSample && e.invocationId.isSome := by
    obtain ⟨hi, hv⟩ := sources_pushAll (p := p) es
    rw [Correlator.finishSource, hi, hv, collectAll_violations, foldl_markViolation]
    exact (length_finishInvocations (sources es) _).trans (Nat.add_le_add_left (length_sources_samples es) _)
  have hactive : ∀ (q : Profile) (l : List ActiveInvocation), (l.foldl (finishActive t) q).samples = q.samples :=
    fun q l => List.foldlRecOn l _ (motive := fun r : Profile => r.samples = q.samples) rfl fun r hr _ _ => hr
  have hsplit : es.countP CollectorEvent.isSample = (es.countP fun e => e.isSample && e.invocationId.isNone) +
      es.countP fun e => e.isSample && e.invocationId.isSome := by
    rw [List.countP_eq_countP_filter_add es _ fun e => e.invocationId.isNone, List.countP_filter, List.countP_filter]
    simp
  rw [Correlator.finish, hactive]
  cases (pushAll ({}, p) es).1.sourceMode with
  | true => exact hsource.trans (by omega)
  | false => exact hpush.trans (by omega)

end SliceProfiler
