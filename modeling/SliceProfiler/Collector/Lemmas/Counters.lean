import Mathlib.Algebra.Order.BigOperators.Group.List
import SliceProfiler.Collector.Lemmas.Report

/-!
# The counters that validation reads
-/

namespace SliceProfiler

open Lib

/-! ## Events and violations -/

theorem samplesGenerated_tally (q : CaptureQuality) (es : List CollectorEvent) :
    min (q.samplesGenerated + es.countP CollectorEvent.isSample) u64Max ≤
      (es.foldl CollectorEvent.tally q).samplesGenerated := by
  induction es generalizing q with
  | nil => simp
  | cons e es ih =>
      rw [List.foldl_cons]
      refine le_trans ?_ (ih (e.tally q))
      cases e with
      | sample id s =>
          simp only [List.countP_cons, CollectorEvent.isSample, CollectorEvent.tally,
            CaptureQuality.generateSample, satAdd64, saturatingAdd, ↓reduceIte]
          omega
      | entry | ret | violation | droppedEvents | droppedSamples =>
          simp only [List.countP_cons, CollectorEvent.isSample, Bool.false_eq_true, ↓reduceIte]
          exact le_refl _

/-- The counters of the invocations, and the number of samples. -/
def CaptureQuality.checked (q : CaptureQuality) : Nat × Nat × Nat :=
  (q.completeInvocations, q.incompleteInvocations, q.samplesGenerated)

theorem checked_suspect (n : Nat) (q : CaptureQuality) :
    (CaptureQuality.suspect^[n] q).checked = q.checked := by
  induction n generalizing q with
  | zero => rfl
  | succ n ih => rw [Function.iterate_succ_apply, ih]; rfl

theorem invocations_tally (q : CaptureQuality) (es : List CollectorEvent) :
    (es.foldl CollectorEvent.tally q).completeInvocations = q.completeInvocations ∧
      (es.foldl CollectorEvent.tally q).incompleteInvocations = q.incompleteInvocations := by
  induction es generalizing q with
  | nil => exact ⟨rfl, rfl⟩
  | cons e es ih =>
      obtain ⟨hc, hi⟩ := ih (e.tally q)
      cases e <;> exact ⟨hc, hi⟩

/-! ## Records -/

theorem checked_mismatches (i : Invocation) (samples : List PendingSample) (q : CaptureQuality) :
    (samples.foldl (fun q s => if i.keeps s then q else q.mismatch) q).checked = q.checked := by
  induction samples generalizing q with
  | nil => rfl
  | cons s samples ih =>
      rw [List.foldl_cons, ih]
      split <;> rfl

variable {t : Nat}

theorem tally_none {r : SourceInvocation} (h : r.report t = none) (q : CaptureQuality) : r.tally t q = q := by
  simp only [SourceInvocation.tally, h]

theorem checked_tally {r : SourceInvocation} {inv : Invocation} (h : r.report t = some inv)
    (q : CaptureQuality) :
    (r.tally t q).checked = (if inv.valid then q.complete else q.incomplete).checked := by
  simp only [SourceInvocation.tally, h]
  split
  · exact checked_mismatches _ _ _
  · split <;> rfl

theorem report_complete {r : SourceInvocation} {inv : Invocation} (h : r.report t = some inv)
    (hv : inv.valid = true) : inv.complete = true := by
  unfold SourceInvocation.report at h
  split at h <;> cases h
  simp only [Bool.and_eq_true] at hv ⊢
  exact hv.1.2

/-- The counter `q` after `n` more. -/
def countUp (n q : Nat) : Nat := (fun q => satAdd64 q 1)^[n] q

theorem countUp_succ (n q : Nat) : countUp (n + 1) q = satAdd64 (countUp n q) 1 := Function.iterate_succ_apply' ..

theorem countUp_le (n q : Nat) : countUp n q ≤ q + n := by
  induction n with
  | zero => exact Nat.le_refl q
  | succ n ih =>
      rw [countUp_succ]
      have hone : satAdd64 (countUp n q) 1 ≤ countUp n q + 1 := Nat.min_le_left _ _
      omega

theorem counters_tally (l : List SourceInvocation) (q : CaptureQuality) :
    (l.foldl (SourceInvocation.tally t) q).completeInvocations =
        countUp ((l.filterMap (·.report t)).countP (·.valid)) q.completeInvocations ∧
      (l.foldl (SourceInvocation.tally t) q).incompleteInvocations =
        countUp ((l.filterMap (·.report t)).countP (!·.valid)) q.incompleteInvocations ∧
      (l.foldl (SourceInvocation.tally t) q).samplesGenerated = q.samplesGenerated := by
  induction l generalizing q with
  | nil => exact ⟨rfl, rfl, rfl⟩
  | cons r l ih =>
      obtain ⟨hc, hi, hs⟩ := ih (r.tally t q)
      rw [List.foldl_cons, List.filterMap_cons]
      cases hrep : r.report t with
      | none =>
          rw [tally_none hrep] at hc hi hs ⊢
          exact ⟨hc, hi, hs⟩
      | some inv =>
          have hr := checked_tally hrep q
          cases hv : inv.valid with
          | true =>
              simp only [hv, ↓reduceIte, CaptureQuality.checked, Prod.mk.injEq] at hr
              rw [hr.1] at hc
              rw [hr.2.1] at hi
              simp only [List.countP_cons, hv, Bool.not_true, Bool.false_eq_true, ↓reduceIte, Nat.add_zero]
              exact ⟨hc, hi, hs.trans hr.2.2⟩
          | false =>
              simp only [hv, Bool.false_eq_true, ↓reduceIte, CaptureQuality.checked, Prod.mk.injEq] at hr
              rw [hr.1] at hc
              rw [hr.2.1] at hi
              simp only [List.countP_cons, hv, Bool.not_false, Bool.false_eq_true, ↓reduceIte, Nat.add_zero]
              exact ⟨hc, hi, hs.trans hr.2.2⟩

/-! ## Samples -/

theorem sum_ite_eq_count (ids : List Nat) (id : Nat) :
    (ids.map fun i => if i = id then 1 else 0).sum = ids.count id := by
  induction ids with
  | nil => rfl
  | cons i ids ih => simp [List.count_cons, ih, Nat.add_comm]

/-- A sample event belongs to one identity at most. -/
theorem length_samplesOf_sum {ids : List Nat} (hn : ids.Nodup) (es : List CollectorEvent) :
    (ids.map fun i => (samplesOf i es).length).sum ≤ es.countP CollectorEvent.isSample := by
  induction es with
  | nil => simp [samplesOf]
  | cons e es ih =>
      cases e with
      | sample id s =>
          cases id with
          | none =>
              have h : ∀ i, samplesOf i (.sample none s :: es) = samplesOf i es := fun i => rfl
              simp only [h, List.countP_cons]
              omega
          | some id =>
              have h : ∀ i, (samplesOf i (.sample (some id) s :: es)).length =
                  (samplesOf i es).length + if i = id then 1 else 0 := by
                intro i
                by_cases hi : id = i
                · subst hi; simp [samplesOf, CollectorEvent.sampleOf]
                · simp [samplesOf, CollectorEvent.sampleOf, hi, Ne.symm hi]
              have hone : (ids.map fun i => if i = id then 1 else 0).sum ≤ 1 := by
                rw [sum_ite_eq_count]
                exact List.nodup_iff_count_le_one.mp hn id
              simp only [h, List.sum_map_add, List.countP_cons, CollectorEvent.isSample, ↓reduceIte]
              omega
      | entry | ret | violation | droppedEvents | droppedSamples =>
          simp only [List.countP_cons, CollectorEvent.isSample, Bool.false_eq_true, ↓reduceIte]
          exact ih

theorem length_kept_le {es : List CollectorEvent} {r : SourceInvocation} (hr : r ∈ sources es) :
    (r.kept t).length ≤ (samplesOf r.id es).length := by
  obtain ⟨i, r', hr', rfl⟩ := mem_sources.mp hr
  have hd := recordOf_id hr'
  have hid : (r'.marked (violationsOf es)).id = i := hd.id
  rw [hid, ← hd.samples]
  unfold SourceInvocation.kept
  split
  · split
    · rw [List.length_map]; exact List.length_filter_le _ _
    · exact Nat.zero_le _
  · exact Nat.zero_le _

theorem length_keptSamples_le (es : List CollectorEvent) (t : Nat) :
    (keptSamples es t).length ≤ es.countP CollectorEvent.isSample := by
  refine le_trans ?_ (length_samplesOf_sum (sources_nodup es) es)
  rw [keptSamples, List.length_flatMap, List.map_map]
  exact List.sum_le_sum fun r hr => length_kept_le hr

/-! ## The profile -/

/-- A profile of version 1 without records. -/
structure Profile.Fresh (p : Profile) : Prop where
  version : p.formatVersion = 1
  functionIds : (p.functions.map (·.id)).Nodup
  invocations : p.invocations = []
  «stacks» : p.stacks = []
  samples : p.samples = []
  complete : p.quality.completeInvocations = 0
  incomplete : p.quality.incompleteInvocations = 0

theorem bookOf_invocations {p : Profile} {es : List CollectorEvent} (hp : p.Fresh) :
    (bookOf p es t).invocations = reports es t := by
  simp only [bookOf, Profile.setBook, hp.invocations, List.nil_append, reports]

theorem bookOf_counters (p : Profile) (es : List CollectorEvent) :
    (bookOf p es t).quality.completeInvocations =
        countUp ((reports es t).countP (·.valid)) p.quality.completeInvocations ∧
      (bookOf p es t).quality.incompleteInvocations =
        countUp ((reports es t).countP (!·.valid)) p.quality.incompleteInvocations ∧
      (bookOf p es t).quality.samplesGenerated = (es.foldl CollectorEvent.tally p.quality).samplesGenerated := by
  obtain ⟨hc, hi, hs⟩ := counters_tally (t := t) (sources es)
    (CaptureQuality.suspect^[suspicions es] (es.foldl CollectorEvent.tally p.quality))
  have hsus := checked_suspect (suspicions es) (es.foldl CollectorEvent.tally p.quality)
  obtain ⟨hc', hi'⟩ := invocations_tally p.quality es
  simp only [CaptureQuality.checked, Prod.mk.injEq] at hsus
  rw [hsus.1, hc'] at hc
  rw [hsus.2.1, hi'] at hi
  exact ⟨hc, hi, hs.trans hsus.2.2⟩

theorem reports_complete {es : List CollectorEvent} {inv : Invocation} (h : inv ∈ reports es t)
    (hv : inv.valid = true) : inv.complete = true := by
  obtain ⟨r, -, hr⟩ := List.mem_filterMap.mp h
  exact report_complete hr hv

/-- The counters of the profile are consistent with its records. -/
theorem bookOf_quality {p : Profile} {es : List CollectorEvent} (hp : p.Fresh)
    (hlen : es.countP CollectorEvent.isSample ≤ u64Max) :
    (bookOf p es t).quality.completeInvocations ≤ (reports es t).countP (fun i => i.complete && i.valid) ∧
      (bookOf p es t).quality.incompleteInvocations ≤
        (reports es t).countP (fun i => !i.complete || !i.valid) ∧
      (keptSamples es t).length ≤ (bookOf p es t).quality.samplesGenerated := by
  obtain ⟨hc, hi, hs⟩ := bookOf_counters (t := t) p es
  have hvalid : (reports es t).countP (·.valid) = (reports es t).countP (fun i => i.complete && i.valid) :=
    List.countP_congr fun i h => by cases hv : i.valid <;> simp [hv, reports_complete h]
  have hinvalid : (reports es t).countP (!·.valid) = (reports es t).countP (fun i => !i.complete || !i.valid) :=
    List.countP_congr fun i h => by cases hv : i.valid <;> simp [hv, reports_complete h]
  rw [hc, hi, hs, hp.complete, hp.incomplete, ← hvalid, ← hinvalid]
  have hgen := samplesGenerated_tally p.quality es
  have hlen' := length_keptSamples_le es t
  exact ⟨(countUp_le _ _).trans_eq (Nat.zero_add _), (countUp_le _ _).trans_eq (Nat.zero_add _), by omega⟩

end SliceProfiler
