import SliceProfiler.Collector.Lemmas.Ledger
import SliceProfiler.Lib.Splits

/-!
# What the counters say of the events that are lost

A sample outside a reported call is counted as a mismatch, and so is a complete call that is not valid. The dropped
samples are those that the events announce.
-/

namespace SliceProfiler

open Lib

/-- The number of mismatches that the invocation counts for, with these samples of its identity. -/
def Invocation.mismatches (inv : Invocation) (samples : List PendingSample) : Nat :=
  if inv.valid then samples.countP (!inv.keeps ·) else if inv.complete then 1 else 0

def CollectorEvent.announcedDrops : CollectorEvent → Nat
  | .droppedSamples count => count
  | _ => 0

def announcedDrops (es : List CollectorEvent) : Nat := (es.map CollectorEvent.announcedDrops).sum

/-- The counters hold so many mismatches and dropped samples. A counter stops at its largest value. -/
structure LossCounters (q : CaptureQuality) (mismatches dropped : Nat) : Prop where
  stackMismatches : q.stackMismatches = min mismatches u64Max
  samplesDropped : q.samplesDropped = min dropped u64Max

/-- The sample of the profile is this one under the id, whatever its stack is. -/
def PendingSample.RecordedAs (s : PendingSample) (invocationId : Nat) (x : Sample) : Prop :=
  x = ⟨s.timestampNs, invocationId, x.stackId, s.tid, s.cpu, s.state, s.weightNs⟩

variable {q : CaptureQuality} {m d t : Nat} {es : List CollectorEvent} {p : Profile}

/-! ## Counters -/

theorem LossCounters.mismatch (h : LossCounters q m d) : LossCounters q.mismatch (m + 1) d where
  stackMismatches := by
    change satAdd64 q.stackMismatches 1 = _
    rw [h.stackMismatches, satAdd64, saturatingAdd_min]
  samplesDropped := h.samplesDropped

theorem LossCounters.event (h : LossCounters q m d) (e : CollectorEvent) :
    LossCounters (e.tally q) (m + e.violationAt.toList.length) (d + e.announcedDrops) := by
  cases e with
  | entry | ret | sample | droppedEvents => exact ⟨h.stackMismatches, h.samplesDropped⟩
  | violation tid ts =>
      have hgen : LossCounters q.generateEvent m d := ⟨h.stackMismatches, h.samplesDropped⟩
      exact hgen.mismatch
  | droppedSamples count =>
      refine ⟨h.stackMismatches, ?_⟩
      change satAdd64 q.samplesDropped count = _
      rw [h.samplesDropped, satAdd64, saturatingAdd_min]
      rfl

theorem LossCounters.events (h : LossCounters q 0 0) (es : List CollectorEvent) :
    LossCounters (es.foldl CollectorEvent.tally q) (violationsOf es).length (announcedDrops es) := by
  induction es using List.reverseRecOn with
  | nil => exact h
  | append_singleton es e ih =>
      rw [List.foldl_concat, violationsOf_concat, List.length_append, announcedDrops, List.map_append,
        List.sum_append, List.map_singleton, List.sum_singleton]
      exact ih.event e

theorem LossCounters.suspect (h : LossCounters q m d) (n : Nat) : LossCounters (CaptureQuality.suspect^[n] q) m d := by
  induction n generalizing q with
  | zero => exact h
  | succ n ih =>
      rw [Function.iterate_succ_apply]
      exact ih ⟨h.stackMismatches, h.samplesDropped⟩

theorem LossCounters.samples (h : LossCounters q m d) (inv : Invocation) (samples : List PendingSample) :
    LossCounters (samples.foldl (fun q s => if inv.keeps s then q else q.mismatch) q)
      (m + samples.countP (!inv.keeps ·)) d := by
  induction samples generalizing q m with
  | nil => exact h
  | cons s samples ih =>
      rw [List.foldl_cons, List.countP_cons]
      cases hs : inv.keeps s with
      | true => exact ih h
      | false =>
          rw [Nat.add_comm (samples.countP _), ← Nat.add_assoc]
          exact ih h.mismatch

theorem LossCounters.record (h : LossCounters q m d) (r : SourceInvocation) :
    LossCounters (r.tally t q) (m + ((r.report t).map (·.mismatches r.samples)).getD 0) d := by
  unfold SourceInvocation.tally
  cases hr : r.report t with
  | none => exact h
  | some inv =>
      simp only [Option.map_some, Option.getD_some, Invocation.mismatches]
      cases inv.valid with
      | true =>
          have hcomplete : LossCounters q.complete m d := ⟨h.stackMismatches, h.samplesDropped⟩
          exact hcomplete.samples inv r.samples
      | false =>
          have hincomplete : LossCounters q.incomplete m d := ⟨h.stackMismatches, h.samplesDropped⟩
          cases inv.complete with
          | true => exact hincomplete.mismatch
          | false => exact hincomplete

theorem LossCounters.records (h : LossCounters q m d) {l : List SourceInvocation}
    (hl : ∀ r ∈ l, r.samples = samplesOf r.id es) : LossCounters (l.foldl (SourceInvocation.tally t) q)
      (m + ((l.filterMap (·.report t)).map fun inv => inv.mismatches (samplesOf inv.id es)).sum) d := by
  induction l generalizing q m with
  | nil => exact h
  | cons r l ih =>
      have hr := ih (h.record (t := t) r) fun r' hr' => hl r' (List.mem_cons_of_mem r hr')
      rw [List.foldl_cons, List.filterMap_cons]
      cases hrep : r.report t with
      | none =>
          rw [hrep] at hr
          exact hr
      | some inv =>
          rw [hrep, Option.map_some, Option.getD_some, hl r List.mem_cons_self,
            ← id_of_report hrep, Nat.add_assoc] at hr
          rw [List.map_cons, List.sum_cons]
          exact hr

theorem collectEvents_lossCounters (he : ∀ e ∈ es, e.Tagged) (hi : p.invocations = []) (hq : p.quality = {}) :
    LossCounters (collectEvents p es t).quality ((violationsOf es).length +
      ((collectEvents p es t).invocations.map fun inv => inv.mismatches (samplesOf inv.id es)).sum)
      (announcedDrops es) := by
  obtain ⟨hinv, hqual⟩ := collectEvents_book he p t
  have hstart : LossCounters p.quality 0 0 := by
    rw [hq]
    exact ⟨rfl, rfl⟩
  rw [hqual, hinv, hi, List.nil_append]
  exact ((hstart.events es).suspect _).records fun r hr => samples_of_mem_sources hr

/-! ## Kept samples -/

/-- Each appended sample is recorded in its place, whatever the ids of the stacks are. -/
theorem samples_appendAll (s : Correlator × Profile) (l : List (Nat × PendingSample)) :
    ∃ xs, (appendAll s l).2.samples = s.2.samples ++ xs ∧ List.Forall₂ (fun a x => a.2.RecordedAs a.1 x) l xs := by
  induction l generalizing s with
  | nil => exact ⟨[], (List.append_nil _).symm, .nil⟩
  | cons a l ih =>
      obtain ⟨xs, hxs, hall⟩ := ih (s.1.appendSample s.2 a.1 a.2)
      obtain ⟨k, hk⟩ : ∃ k, (s.1.appendSample s.2 a.1 a.2).2.samples =
          s.2.samples ++ [⟨a.2.timestampNs, a.1, k, a.2.tid, a.2.cpu, a.2.state, a.2.weightNs⟩] := by
        simp only [Correlator.appendSample, Correlator.internStack]
        cases s.1.stackIds.lookup a.2.frames <;> exact ⟨_, rfl⟩
      refine ⟨_ :: xs, ?_, .cons (rfl : a.2.RecordedAs a.1 ⟨_, _, k, _, _, _, _⟩) hall⟩
      rw [appendAll, List.foldl_cons, ← appendAll, hxs, hk, List.append_assoc, List.singleton_append]

/-- The samples of the profile under an id are the kept ones of the identity. -/
theorem collectEvents_samples (he : ∀ e ∈ es, e.Tagged) (hs : p.samples = []) (i : Nat) :
    List.Forall₂ (fun a x => a.2.RecordedAs a.1 x) ((keptSamples es t).filter (·.1 = i))
      ((collectEvents p es t).samples.filter (·.invocationId = i)) := by
  obtain ⟨c, -, -, heq⟩ := collectEvents_eq he p t
  obtain ⟨xs, hxs, hall⟩ := samples_appendAll (c, bookOf p es t) (keptSamples es t)
  have hsamples : (collectEvents p es t).samples = xs := by
    rw [heq, hxs]
    change p.samples ++ xs = xs
    rw [hs, List.nil_append]
  rw [hsamples]
  refine List.rel_filter (fun a x hax => ?_) hall
  have hid : x.invocationId = a.1 := by rw [hax]
  simp [hid]

theorem collectEvents_kept (he : ∀ e ∈ es, e.Tagged) (hs : p.samples = []) {inv : Invocation}
    (hm : inv ∈ reports es t) (hv : inv.valid = true) : List.Forall₂ (·.RecordedAs inv.id ·)
      ((samplesOf inv.id es).filter inv.keeps) ((collectEvents p es t).samples.filter (·.invocationId = inv.id)) := by
  have h := collectEvents_samples (t := t) he hs inv.id
  rwa [keptSamples_filter_valid hm hv, List.forall₂_map_left_iff] at h

/-- A sample of the profile belongs to an identity with an entry. -/
theorem entriesOf_of_recordedAs (he : ∀ e ∈ es, e.Tagged)
    (hs : p.samples = []) {i : Nat} {s : PendingSample} {x : Sample}
    (hx : x ∈ (collectEvents p es t).samples) (hrow : s.RecordedAs i x) : entriesOf i es ≠ [] := by
  have hid : x.invocationId = i := by rw [hrow]
  have hflip := (collectEvents_samples (t := t) he hs i).flip
  obtain ⟨a, ha, -⟩ := exists_of_forall₂ hflip (List.mem_filter.mpr ⟨hx, by simpa using hid⟩)
  obtain ⟨hkept, ha⟩ := List.mem_filter.mp ha
  obtain ⟨e, b, hb, -⟩ := mem_keptSamples.mp hkept
  rw [← of_decide_eq_true ha, hb.entry]
  exact List.cons_ne_nil e []

end SliceProfiler
