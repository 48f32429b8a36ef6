import SliceProfiler.Collector.Lemmas.Arrival
import SliceProfiler.Collector.Lemmas.Exhausted
import SliceProfiler.Collector.Lemmas.Ledger
import SliceProfiler.Collector.Lemmas.Losses
import SliceProfiler.Collector.Lemmas.Order
import SliceProfiler.Collector.Lemmas.Overlap
import SliceProfiler.Collector.Lemmas.Samples

/-!
# Theorems on the correlator

Every sample with an identity reaches the profile exactly once when its invocation is reported as complete
and valid and its time lies inside, and never otherwise. The order of the events does not matter, and events
without identities are associated by the same rules, as long as there are ids for all stacks and calls.
-/

namespace SliceProfiler

open Lib

/-! ## Samples -/

/-- The samples of the profile are the pushed ones of the complete and valid invocations inside their
intervals, over a table of stacks without repetition. -/
structure AccountsForSamples (p : Profile) (es : List CollectorEvent) : Prop where
  kept : ∀ inv ∈ p.invocations, inv.Good → p.samplesUnder inv.id =
    ((samplesOf inv.id es).filter fun s => inv.startNs ≤ s.timestampNs ∧ s.timestampNs ≤ inv.endNs).map
      fun s => s.resolved inv.id
  dropped : ∀ i, (∀ inv ∈ p.invocations, inv.id = i → ¬ inv.Good) → p.samplesUnder i = []
  known : ∀ s ∈ p.samples, ∃ k ∈ p.stacks, k.id = s.stackId
  stackIds : (p.stacks.map (·.id)).Nodup
  stackFrames : (p.stacks.map (·.frames)).Nodup
  used : ∀ k ∈ p.stacks, ∃ s ∈ p.samples, s.stackId = k.id

theorem collectEvents_accountsForSamples {p : Profile} {es : List CollectorEvent} (he : ∀ e ∈ es, e.Tagged)
    (hstacks : (framesIn es).card < u32Max) (hi : p.invocations = []) (hk : p.stacks = [])
    (hs : p.samples = []) (t : Nat) : AccountsForSamples (collectEvents p es t) es := by
  obtain ⟨ks, ss, h⟩ := collected he hstacks.le hk hs t
  have hinv := h.invocations_eq hi
  obtain ⟨c, htable⟩ := h.table
  rw [← h.eq] at htable
  constructor
  · intro inv hm hgood
    rw [hinv] at hm
    rw [h.samplesUnder, keptSamples_filter_valid hm hgood.2, List.map_map]
    refine congrArg (List.map _) (List.filter_congr fun s _ => ?_)
    rw [Bool.eq_iff_iff]
    simp [Invocation.keeps]
  · intro i hbad
    rw [h.samplesUnder, keptSamples_filter_invalid, List.map_nil]
    intro inv hm hid
    rw [hinv] at hbad
    obtain ⟨r, -, hrep⟩ := List.mem_filterMap.mp hm
    by_contra hv
    exact hbad inv hm hid ⟨report_complete hrep (by simpa using hv), by simpa using hv⟩
  · exact htable.known
  · exact htable.idsNodup
  · exact htable.distinct
  · intro k hkm
    have hused := h.usedStacks
    rw [← h.eq] at hused
    obtain ⟨r, hr, hf⟩ := hused k hkm
    obtain ⟨s, hsm, rfl⟩ := List.mem_map.mp hr
    obtain ⟨k', hk', hid⟩ := htable.known s hsm
    refine ⟨s, hsm, ?_⟩
    rw [resolve, ← hid, framesOf_of_mem htable.idsNodup hk'] at hf
    rw [← hid, List.inj_on_of_nodup_map htable.distinct hk' hkm hf]

/-- A sample that comes before the entry of its call, one after the return, and a call without a return. -/
def lateSamples : List CollectorEvent :=
  [.sample (some 7) ⟨1, 15, 0, .onCpu, 5, [⟨none, "work", none, none⟩]⟩, .entry (some 7) 1 1 10,
    .ret (some 7) 1 1 20, .sample (some 7) ⟨1, 21, 0, .onCpu, 5, [⟨none, "late", none, none⟩]⟩,
    .entry (some 8) 1 1 30, .sample (some 8) ⟨1, 35, 0, .offCpu, 5, [⟨none, "work", none, none⟩]⟩]

theorem lateSamples_accountsForSamples :
    AccountsForSamples (collectEvents blankProfile lateSamples 40) lateSamples :=
  collectEvents_accountsForSamples (by decide) (by decide) rfl rfl rfl 40

/-! ## Counters -/

/-- The counters agree with the records of the profile and with the pushed events. -/
structure CountersAgree (p : Profile) (es : List CollectorEvent) : Prop where
  ledger : Ledger p (es.countP CollectorEvent.isGenerated) (es.countP CollectorEvent.isSample)
  samples : p.samples.length ≤ es.countP CollectorEvent.isSample

/-- The counters agree after every event and at the end, whatever the events are. -/
theorem collectEvents_countersAgree {p : Profile} (hi : p.invocations = []) (hs : p.samples = [])
    (hq : p.quality = {}) (es : List CollectorEvent) :
    (∀ pre, pre <+: es → CountersAgree (pushAll ({}, p) pre).2 pre) ∧
      ∀ t, CountersAgree (collectEvents p es t) es := by
  have hstart : Ledger p 0 0 := by
    constructor <;> simp [hi, hq]
  have hlen : p.samples.length = 0 := by rw [hs]; rfl
  constructor
  · intro pre _
    refine ⟨ledger_pushAll hstart pre, (length_samples_pushAll pre).trans ?_⟩
    rw [hlen, Nat.zero_add]
    exact List.countP_mono_left fun e _ he => (Bool.and_eq_true _ _ ▸ he).1
  · intro t
    refine ⟨(ledger_pushAll hstart es).finish, (length_samples_finish es).trans_eq ?_⟩
    rw [hlen, Nat.zero_add]

/-- A superseded call, a return of another function, a violation, a call that is still active at the end, and calls
with an identity of which one has a late sample and one has no entry. -/
def mixedIdentities : List CollectorEvent :=
  [.entry none 1 7 1, .entry none 1 7 2, .ret none 1 7 3, .entry none 1 7 4, .ret none 2 7 5, .entry (some 9) 1 8 6,
    .sample (some 9) ⟨8, 7, 0, .onCpu, 5, []⟩, .violation 7 8, .ret (some 9) 1 8 9,
      .sample (some 9) ⟨8, 10, 0, .onCpu, 5, []⟩,
    .ret (some 3) 1 8 11, .droppedEvents 2, .entry none 1 7 12, .sample none ⟨7, 13, 0, .offCpu, 5, []⟩]

theorem mixedIdentities_countersAgree : CountersAgree (collectEvents blankProfile mixedIdentities 20) mixedIdentities :=
  (collectEvents_countersAgree rfl rfl rfl mixedIdentities).2 20

/-! ## Losses -/

/-- The number of mismatches that the invocations of an identity count for. -/
def Profile.mismatchesOf (p : Profile) (es : List CollectorEvent) (i : Nat) : Nat :=
  ((p.invocations.filter (·.id = i)).map (·.mismatches (samplesOf i es))).sum

/-- The number of incomplete invocations of an identity. -/
def Profile.incompletesOf (p : Profile) (i : Nat) : Nat :=
  (p.invocations.filter (·.id = i)).countP fun inv => !(inv.complete && inv.valid)

/-- The counters are the sums of what the violations, the invocations and the announced drops contribute. Each identity
with a boundary is recorded or contributes, and each sample is in the profile, belongs to an invocation that is counted
as incomplete, or is one of the mismatches of a reported one. -/
structure AccountsForLosses (p : Profile) (es : List CollectorEvent) : Prop where
  counters : LossCounters p.quality ((violationsOf es).length +
    (p.invocations.map fun inv => inv.mismatches (samplesOf inv.id es)).sum) (announcedDrops es)
  incomplete : p.quality.incompleteInvocations = min (p.invocations.countP fun i => !(i.complete && i.valid)) u64Max
  boundaries : ∀ i, entriesOf i es ≠ [] ∨ returnsOf i es ≠ [] →
    (∃ inv ∈ p.invocations, inv.id = i) ∨ 0 < p.mismatchesOf es i ∨ 0 < p.incompletesOf i
  samples : ∀ i, ∀ s ∈ samplesOf i es, (∃ x ∈ p.samples, s.RecordedAs i x) ∨
    (∃ inv ∈ p.invocations, inv.id = i ∧ ¬ inv.Good) ∨
      ∃ inv ∈ p.invocations, inv.id = i ∧ inv.Good ∧ inv.keeps s = false
  kept : ∀ inv ∈ p.invocations, inv.Good → List.Forall₂ (·.RecordedAs inv.id ·)
    ((samplesOf inv.id es).filter inv.keeps) (p.samples.filter (·.invocationId = inv.id))

theorem exists_of_mismatchesOf {p : Profile} {es : List CollectorEvent} {i : Nat} (h : 0 < p.mismatchesOf es i) :
    ∃ inv ∈ p.invocations, inv.id = i := by
  by_contra hnone
  push Not at hnone
  have hnil : p.invocations.filter (·.id = i) = [] :=
    List.filter_eq_nil_iff.mpr fun inv hm => by simpa using hnone inv hm
  rw [Profile.mismatchesOf, hnil] at h
  exact Nat.lt_irrefl 0 h

theorem exists_of_incompletesOf {p : Profile} {i : Nat} (h : 0 < p.incompletesOf i) :
    ∃ inv ∈ p.invocations, inv.id = i := by
  obtain ⟨inv, hm, -⟩ := List.countP_pos_iff.mp h
  exact ⟨inv, List.mem_of_mem_filter hm, by simpa using (List.mem_filter.mp hm).2⟩

/-- The events that are lost are accounted for exactly when each identity with a return or a sample has an entry. -/
theorem collectEvents_accountsForLosses {p : Profile} {es : List CollectorEvent} (he : ∀ e ∈ es, e.Tagged)
    (hi : p.invocations = []) (hs : p.samples = []) (hq : p.quality = {}) (t : Nat) :
    AccountsForLosses (collectEvents p es t) es ↔
      ∀ i, returnsOf i es ≠ [] ∨ samplesOf i es ≠ [] → entriesOf i es ≠ [] := by
  have hinv := collectEvents_reports he hi t
  have hrecorded : ∀ i, (∃ inv ∈ (collectEvents p es t).invocations, inv.id = i) ↔ entriesOf i es ≠ [] := by
    rw [hinv]
    exact fun i => exists_report_iff
  constructor
  · rintro h i (hr | hne)
    · rcases h.boundaries i (.inr hr) with hrec | hmis | hinc
      · exact (hrecorded i).mp hrec
      · exact (hrecorded i).mp (exists_of_mismatchesOf hmis)
      · exact (hrecorded i).mp (exists_of_incompletesOf hinc)
    · obtain ⟨s, hmem⟩ := List.exists_mem_of_ne_nil _ hne
      rcases h.samples i s hmem with ⟨x, hx, hrow⟩ | ⟨inv, hm, hid, -⟩ | ⟨inv, hm, hid, -⟩
      · exact entriesOf_of_recordedAs he hs hx hrow
      · exact (hrecorded i).mp ⟨inv, hm, hid⟩
      · exact (hrecorded i).mp ⟨inv, hm, hid⟩
  · intro h
    have hkept : ∀ inv ∈ (collectEvents p es t).invocations, inv.Good → List.Forall₂ (·.RecordedAs inv.id ·)
        ((samplesOf inv.id es).filter inv.keeps) ((collectEvents p es t).samples.filter (·.invocationId = inv.id)) :=
      fun inv hm hgood => collectEvents_kept he hs (hinv ▸ hm) hgood.2
    constructor
    · exact collectEvents_lossCounters he hi hq
    · have hstart : Ledger p 0 0 := by
        constructor <;> simp [hi, hq]
      exact (ledger_pushAll hstart es).finish.incomplete
    · intro i hb
      exact .inl ((hrecorded i).mpr (hb.elim id fun hr => h i (.inl hr)))
    · intro i s hmem
      obtain ⟨inv, hm, rfl⟩ := (hrecorded i).mpr (h i (.inr (List.ne_nil_of_mem hmem)))
      by_cases hgood : inv.Good
      · cases hk : inv.keeps s with
        | false => exact .inr (.inr ⟨inv, hm, rfl, hgood, hk⟩)
        | true =>
            obtain ⟨x, hx, hrow⟩ := exists_of_forall₂ (hkept inv hm hgood) (List.mem_filter.mpr ⟨hmem, hk⟩)
            exact .inl ⟨x, List.mem_of_mem_filter hx, hrow⟩
      · exact .inr (.inl ⟨inv, hm, rfl, hgood⟩)
    · exact hkept

theorem lateSamples_accountsForLosses : AccountsForLosses (collectEvents blankProfile lateSamples 40) lateSamples := by
  refine (collectEvents_accountsForLosses (by decide) rfl rfl rfl 40).mpr fun i h => ?_
  have hi : i = 7 ∨ i = 8 := by
    by_contra hne
    push Not at hne
    simp [lateSamples, returnsOf, samplesOf, CollectorEvent.returnOf, CollectorEvent.sampleOf, List.filterMap_cons,
      hne.1.symm, hne.2.symm] at h
  rcases hi with rfl | rfl
  · decide
  · decide

/-- A return without an entry. -/
def lostEntry : List CollectorEvent := [.ret (some 1) 1 7 10]

/-- The return leaves nothing behind but the number of events. -/
theorem lostEntry_not_accountsForLosses : (∀ e ∈ lostEntry, e.Tagged) ∧
    collectEvents blankProfile lostEntry 20 = { blankProfile with quality := { eventsGenerated := 1 } } ∧
    ¬ AccountsForLosses (collectEvents blankProfile lostEntry 20) lostEntry := by
  refine ⟨by decide, by decide, fun h => ?_⟩
  rcases h.boundaries 1 (.inr (by decide)) with ⟨inv, hm, -⟩ | hmis | hinc
  · cases hm
  · exact absurd hmis (by decide)
  · exact absurd hinc (by decide)

/-! ## Boundaries -/

/-- The invocation has the boundaries of the one entry and the one return of its identity, and these agree. -/
structure Invocation.Consistent (es : List CollectorEvent) (inv : Invocation) (e r : Boundary) : Prop where
  entry : entriesOf inv.id es = [e]
  ret : returnsOf inv.id es = [r]
  sameFunction : e.functionId = r.functionId
  sameTid : e.tid = r.tid
  functionId : inv.functionId = e.functionId
  tid : inv.tid = e.tid
  startNs : inv.startNs = e.timestampNs
  endNs : inv.endNs = r.timestampNs
  ordered : e.timestampNs ≤ r.timestampNs

def BoundariesAgree (p : Profile) (es : List CollectorEvent) : Prop :=
  ∀ inv ∈ p.invocations, inv.Good → ∃ e r, inv.Consistent es e r

/-- The boundaries agree exactly when each return that comes in front of its entry names the function and the thread of
the entry. -/
theorem collectEvents_boundariesAgree {p : Profile} {es : List CollectorEvent} (he : ∀ e ∈ es, e.Tagged)
    (hi : p.invocations = []) (t : Nat) : BoundariesAgree (collectEvents p es t) es ↔
      ∀ i e r, ReturnFirst i es e r → e.functionId = r.functionId ∧ e.tid = r.tid := by
  rw [BoundariesAgree, collectEvents_reports he hi]
  constructor
  · intro h i e r hfirst
    obtain ⟨inv, hm, hgood, rfl, -⟩ := hfirst.retained.report (t := t)
    obtain ⟨e', r', hc⟩ := h inv hm hgood
    obtain rfl : e' = e := by simpa [hfirst.entry] using hc.entry.symm
    obtain rfl : r' = r := by simpa [hfirst.ret] using hc.ret.symm
    exact ⟨hc.sameFunction, hc.sameTid⟩
  · intro h inv hm hgood
    obtain ⟨e, -, hrep⟩ := mem_reports.mp hm
    obtain ⟨r, hr⟩ := hrep.valid.mp hgood.2
    have hagree : e.functionId = r.functionId ∧ e.tid = r.tid := hr.agrees_or_returnFirst.elim id (h _ e r)
    exact ⟨e, r, hr.entry, hr.ret, hagree.1, hagree.2, hrep.functionId, hrep.tid, hrep.startNs,
      by rw [hrep.endNs, hr.ret]; rfl, hr.ordered⟩

/-- A return in front of its entry, on the thread and of the function of the entry. -/
def earlyReturn (functionId tid : Nat) : List CollectorEvent :=
  [.ret (some 1) functionId tid 20, .entry (some 1) 1 7 10]

theorem earlyReturn_boundariesAgree :
    BoundariesAgree (collectEvents blankProfile (earlyReturn 1 7) 30) (earlyReturn 1 7) := by
  refine (collectEvents_boundariesAgree (by decide) rfl 30).mpr fun i e r h => ?_
  obtain rfl : i = 1 := by
    by_contra hi
    have hentry := h.entry
    simp [earlyReturn, entriesOf, CollectorEvent.entryOf, List.filterMap_cons, Ne.symm hi] at hentry
  obtain rfl : e = ⟨1, 7, 10⟩ := by simpa using (h.entry.symm.trans (by rfl : _ = [⟨1, 7, 10⟩]))
  obtain rfl : r = ⟨1, 7, 20⟩ := by simpa using (h.ret.symm.trans (by rfl : _ = [⟨1, 7, 20⟩]))
  exact ⟨rfl, rfl⟩

/-- A return of another function on another thread is not noticed when it comes in front of its entry. -/
theorem earlyReturn_not_boundariesAgree : (∀ e ∈ earlyReturn 2 9, e.Tagged) ∧
    ¬ BoundariesAgree (collectEvents blankProfile (earlyReturn 2 9) 30) (earlyReturn 2 9) := by
  refine ⟨by decide, fun h => ?_⟩
  obtain ⟨e, r, hc⟩ := h ⟨1, 1, none, 7, 10, 20, true, true⟩ (by decide) ⟨rfl, rfl⟩
  obtain rfl : e = ⟨1, 7, 10⟩ := by simpa using (hc.entry.symm.trans (by rfl : _ = [⟨1, 7, 10⟩]))
  obtain rfl : r = ⟨2, 9, 20⟩ := by simpa using (hc.ret.symm.trans (by rfl : _ = [⟨2, 9, 20⟩]))
  exact absurd hc.sameTid (by decide)

/-! ## Overlaps -/

/-- The valid invocations of a thread do not overlap exactly when no retained identity begins inside another one.
Without identities there are none. -/
theorem collectEvents_noOverlap {p : Profile} {es : List CollectorEvent}
    (he : (∀ e ∈ es, e.Tagged) ∨ ∀ e ∈ es, e.Untagged) (hs : StampsOrdered es) (hi : p.invocations = []) (t : Nat) :
    (collectEvents p es t).NoOverlap ↔ ∀ i j e r e' r', ¬ Nested es i j e r e' r' := by
  rcases he with he | he
  · exact noOverlap_reports (collectEvents_reports he hi t)
  · constructor
    · intro _ i j e r e' r' hn
      have hentry := hn.outer.entry
      rw [entriesOf_of_untagged he] at hentry
      cases hentry
    · intro _
      refine (collectEvents_inTurn hi he hs t).imp fun {a b} hab hga hgb ht ho => ?_
      have hle : a.endNs ≤ b.startNs := hab hga hgb ht
      rw [Invocation.Overlaps, Nat.max_lt, Nat.lt_min, Nat.lt_min] at ho
      exact absurd hle ho.2.1.not_ge

/-- Two calls of a thread, one inside the other. -/
def nestedCalls (id id' : Option Nat) : List CollectorEvent :=
  [.entry id 1 7 1, .entry id' 1 7 2, .ret id' 1 7 3, .ret id 1 7 4]

theorem nestedCalls_noOverlap : (collectEvents blankProfile (nestedCalls none none) 5).NoOverlap := by
  refine (collectEvents_noOverlap (.inr (by decide)) (by decide) rfl 5).mpr fun i j e r e' r' hn => ?_
  exact absurd (hn.outer.entry.symm.trans (by rfl : _ = [])) (List.cons_ne_nil _ _)

/-- With identities both calls are valid. -/
theorem nestedCalls_not_noOverlap : (∀ e ∈ nestedCalls (some 1) (some 2), e.Tagged) ∧
    StampsOrdered (nestedCalls (some 1) (some 2)) ∧ (∀ a ∈ stampsOf (nestedCalls (some 1) (some 2)), a.2 ≤ 5) ∧
    ¬ (collectEvents blankProfile (nestedCalls (some 1) (some 2)) 5).NoOverlap := by
  refine ⟨by decide, by decide, by decide, fun h => ?_⟩
  have hinv : (collectEvents blankProfile (nestedCalls (some 1) (some 2)) 5).invocations =
      [⟨1, 1, none, 7, 1, 4, true, true⟩, ⟨2, 1, none, 7, 2, 3, true, true⟩] := by decide
  rw [Profile.NoOverlap, hinv, List.pairwise_pair] at h
  exact h ⟨rfl, rfl⟩ ⟨rfl, rfl⟩ rfl (by unfold Invocation.Overlaps; decide)

/-! ## The order of the events -/

/-- The same invocations and counters, and for each id the same samples in some order. -/
structure SameUpToOrder (p₁ p₂ : Profile) : Prop where
  invocations : p₁.invocations = p₂.invocations
  quality : p₁.quality = p₂.quality
  samples : ∀ i, (p₁.samplesUnder i).Perm (p₂.samplesUnder i)

theorem collectEvents_perm {p : Profile} {es₁ es₂ : List CollectorEvent} (h : OneEach es₁) (hp : es₁.Perm es₂)
    (hstacks : (framesIn es₁).card ≤ u32Max) (hk : p.stacks = []) (hs : p.samples = []) (t : Nat) :
    SameUpToOrder (collectEvents p es₁ t) (collectEvents p es₂ t) := by
  have hframes : framesIn es₂ = framesIn es₁ := by
    rw [framesIn, framesIn, List.toFinset_eq_of_perm _ _ (hp.filterMap _)]
  obtain ⟨ks₁, ss₁, h₁⟩ := collected h.tagged hstacks hk hs t
  obtain ⟨ks₂, ss₂, h₂⟩ := collected (h.perm hp).tagged (hframes ▸ hstacks) hk hs t
  have hsame := SameRecords.of_oneEach h hp
  have hbook := bookOf_eq hsame p t
  constructor
  · rw [h₁.eq, h₂.eq, hbook]
  · rw [h₁.eq, h₂.eq, hbook]
  · intro i
    rw [h₁.samplesUnder, h₂.samplesUnder]
    exact ((keptSamples_perm hsame t).filter _).map _

def crowdSample (k : Nat) : PendingSample := ⟨7, 0, 0, .onCpu, 1, [⟨none, "", none, some k⟩]⟩

/-- A call with a sample for each number. No two samples have the same stack. -/
def crowdedCall (ks : List Nat) : List CollectorEvent :=
  .entry (some 1) 1 7 0 :: ks.map (fun k => .sample (some 1) (crowdSample k)) ++ [.ret (some 1) 1 7 0]

theorem crowdSample_frames_injective : Function.Injective fun k => (crowdSample k).frames := by
  intro a b h
  simpa [crowdSample] using h

theorem samplesOf_crowdedCall (ks : List Nat) : samplesOf 1 (crowdedCall ks) = ks.map crowdSample := by
  simp [samplesOf, crowdedCall, CollectorEvent.sampleOf, List.filterMap_cons, List.filterMap_map, Function.comp_def]

theorem entriesOf_crowdedCall (i : Nat) (ks : List Nat) :
    entriesOf i (crowdedCall ks) = if 1 = i then [⟨1, 7, 0⟩] else [] := by
  by_cases h : 1 = i <;>
    simp [entriesOf, crowdedCall, CollectorEvent.entryOf, List.filterMap_cons, List.filterMap_map, Function.comp_def, h]

theorem returnsOf_crowdedCall (i : Nat) (ks : List Nat) :
    returnsOf i (crowdedCall ks) = if 1 = i then [⟨1, 7, 0⟩] else [] := by
  by_cases h : 1 = i <;>
    simp [returnsOf, crowdedCall, CollectorEvent.returnOf, List.filterMap_cons, List.filterMap_map, Function.comp_def,
      h]

theorem crowdedCall_oneEach (ks : List Nat) : OneEach (crowdedCall ks) := by
  have hmem : ∀ e ∈ crowdedCall ks, e.Tagged ∧ e.invocationId = some 1 ∧ ∀ i tid, e.tidOf i = some tid → tid = 7 := by
    intro e he
    simp only [crowdedCall, List.mem_append, List.mem_cons, List.mem_map, List.not_mem_nil, or_false] at he
    rcases he with (rfl | ⟨k, -, rfl⟩) | rfl <;> refine ⟨rfl, rfl, fun i tid h => ?_⟩ <;>
      by_cases hi : 1 = i <;>
      simp_all [CollectorEvent.tidOf, CollectorEvent.entryOf, CollectorEvent.returnOf, CollectorEvent.sampleOf,
        crowdSample]
  constructor
  · exact fun e he => (hmem e he).1
  · intro i
    rw [entriesOf_crowdedCall]
    split <;> simp
  · intro i
    rw [returnsOf_crowdedCall]
    split <;> simp
  · intro i a ha b hb
    obtain ⟨e, he, hea⟩ := List.mem_filterMap.mp ha
    obtain ⟨e', he', heb⟩ := List.mem_filterMap.mp hb
    rw [(hmem e he).2.2 i a hea, (hmem e' he').2.2 i b heb]
  · intro i e he r hr
    rw [entriesOf_crowdedCall] at he
    rw [returnsOf_crowdedCall] at hr
    split at he <;> simp_all

theorem crowdedCall_perm {ks ks' : List Nat} (h : ks.Perm ks') : (crowdedCall ks).Perm (crowdedCall ks') :=
  ((h.map _).append_right _).cons _

theorem threeSamples_perm : SameUpToOrder (collectEvents blankProfile (crowdedCall [0, 1, 2]) 0)
    (collectEvents blankProfile (crowdedCall [2, 0, 1]) 0) :=
  collectEvents_perm (crowdedCall_oneEach _) (crowdedCall_perm (by decide)) (by decide) rfl rfl 0

/-! ### More stacks than stack ids -/

theorem crowdedCall_retained (ks : List Nat) : Retained 1 (crowdedCall ks) ⟨1, 7, 0⟩ ⟨1, 7, 0⟩ where
  entry := by rw [entriesOf_crowdedCall]; rfl
  ret := by rw [returnsOf_crowdedCall]; rfl
  agree := (crowdedCall_oneEach ks).returnsAgree 1
  ordered := Nat.le_refl 0
  clear v hv := by
    simp [violationsOf, crowdedCall, CollectorEvent.violationAt, List.filterMap_cons, List.filterMap_map,
      Function.comp_def] at hv

theorem keptSamples_crowdedCall (ks : List Nat) :
    keptSamples (crowdedCall ks) 0 = ks.map fun k => (1, crowdSample k) := by
  have honly : ∀ j e b, Retained j (crowdedCall ks) e b → j = 1 := by
    intro j e b h
    have hentry := h.entry
    rw [entriesOf_crowdedCall] at hentry
    split at hentry
    · rename_i hj
      exact hj.symm
    · cases hentry
  have hall : (ks.map crowdSample).filter (fun s => 0 ≤ s.timestampNs ∧ s.timestampNs ≤ 0) = ks.map crowdSample := by
    apply List.filter_eq_self.mpr
    intro s hs
    obtain ⟨k, -, rfl⟩ := List.mem_map.mp hs
    simp [crowdSample]
  rw [keptSamples_of_only (crowdedCall_retained ks) honly, samplesOf_crowdedCall, hall, List.map_map]
  rfl

theorem numbered_crowdedCall (ks : List Nat) (hn : ks.Nodup) :
    ∃ c, Numbered c (collectEvents blankProfile (crowdedCall ks) 0) (ks.map fun k => (1, crowdSample k)) := by
  obtain ⟨c, hc, hnext, heq⟩ := collectEvents_eq (crowdedCall_oneEach ks).tagged blankProfile 0
  have hnil : Numbered c (bookOf blankProfile (crowdedCall ks) 0) [] := .nil hc hnext rfl rfl
  have hframes : ((ks.map fun k => ((1, crowdSample k) : Nat × PendingSample)).map (·.2.frames)).Nodup := by
    rw [List.map_map]
    exact hn.map crowdSample_frames_injective
  rw [heq, keptSamples_crowdedCall]
  exact ⟨_, hnil.appendAll hframes⟩

theorem crowdedCall_not_sameUpToOrder {n : Nat} (hn : u32Max = n) :
    ¬ SameUpToOrder (collectEvents blankProfile (crowdedCall (List.range (n + 1))) 0)
      (collectEvents blankProfile (crowdedCall (List.range (n + 1)).reverse) 0) := by
  intro h
  obtain ⟨c₁, h₁⟩ := numbered_crowdedCall (List.range (n + 1)) List.nodup_range
  obtain ⟨c₂, h₂⟩ := numbered_crowdedCall (List.range (n + 1)).reverse
    (List.nodup_reverse.mpr List.nodup_range)
  generalize collectEvents blankProfile (crowdedCall (List.range (n + 1))) 0 = p₁ at h h₁
  generalize collectEvents blankProfile (crowdedCall (List.range (n + 1)).reverse) 0 = p₂ at h h₂
  rw [List.range_succ_eq_map] at h₁ h₂
  rw [List.reverse_cons, List.map_append, List.map_singleton] at h₂
  have hlast := h₂.last_lost (by simp [hn]) (by simp [crowdSample])
  have hmem := (h.samples 1).mem_iff.mp
    (List.mem_filter.mpr ⟨h₁.first_resolved, by simp [PendingSample.resolved]⟩)
  exact hlast _ (List.mem_of_mem_filter hmem) rfl

/-- With one stack more than there are stack ids, the last stack is lost, and the order decides which one it is. -/
theorem crowdedCall_order : OneEach (crowdedCall (List.range (u32Max + 1))) ∧
    (crowdedCall (List.range (u32Max + 1))).Perm (crowdedCall (List.range (u32Max + 1)).reverse) ∧
    ¬ SameUpToOrder (collectEvents blankProfile (crowdedCall (List.range (u32Max + 1))) 0)
      (collectEvents blankProfile (crowdedCall (List.range (u32Max + 1)).reverse) 0) := by
  have hperm := (List.reverse_perm (List.range (u32Max + 1))).symm
  exact ⟨crowdedCall_oneEach _, crowdedCall_perm hperm, crowdedCall_not_sameUpToOrder rfl⟩

/-! ## The two association paths -/

/-- The same valid invocations, the same counters of invocations, and the same results of all queries. -/
structure SameResults (p₁ p₂ : Profile) : Prop where
  valid : ∀ i, (i ∈ p₁.invocations ∧ i.Good) ↔ (i ∈ p₂.invocations ∧ i.Good)
  complete : p₁.quality.completeInvocations = p₂.quality.completeInvocations
  incomplete : p₁.quality.incompleteInvocations = p₂.quality.incompleteInvocations
  queries : ∀ q, executeQuery p₁ q = executeQuery p₂ q

/-- A stream without identities leads to the same results as the stream with the identities of its local run. -/
theorem collectEvents_tagAll {p : Profile} {es : List CollectorEvent} (he : ∀ e ∈ es, e.Untagged)
    (hincrease : StampsIncrease es) (hentries : es.countP CollectorEvent.isEntry ≤ u64Max)
    (hstacks : (framesIn es).card ≤ u32Max) (hi : p.invocations = []) (hk : p.stacks = []) (hs : p.samples = [])
    (t : Nat) : SameResults (collectEvents p es t) (collectEvents p (tagAll ({}, p) es) t) := by
  have hlocal := localState_pushAll hi hk hs hstacks he hincrease hentries (Finset.Subset.refl _)
  rw [collectEvents]
  have hframes := framesIn_tagAll ({}, p) es
  generalize pushAll ({}, p) es = s at hlocal ⊢
  generalize tagAll ({}, p) es = ts at hlocal hframes ⊢
  obtain ⟨c, p'⟩ := s
  change SameResults (c.finish p' t) _
  change LocalState _ _ _ _ c p' at hlocal
  obtain ⟨ks, ss, h⟩ := collected hlocal.tracks.tagged ((Finset.card_le_card hframes).trans hstacks) hk hs t
  have hinvs : ∀ i, (i ∈ (c.finish p' t).invocations ∧ i.Good) ↔ i ∈ p'.invocations ∧ i.valid = true := by
    intro i
    have hm := mem_validInvocations (p := c.finish p' t) (i := i)
    rw [hlocal.validInvocations, mem_validInvocations] at hm
    exact hm.symm.trans ⟨fun h => ⟨h.1, h.2.2⟩, fun h => ⟨h.1, hlocal.valid_complete h.1 h.2, h.2⟩⟩
  have hreps : ∀ i, (i ∈ (collectEvents p ts t).invocations ∧ i.Good) ↔ i ∈ reports ts t ∧ i.valid = true := by
    intro i
    rw [h.invocations_eq hi]
    exact ⟨fun h => ⟨h.1, h.2.2⟩, fun h => ⟨h.1, reports_complete h.1 h.2, h.2⟩⟩
  obtain ⟨hc, hinc, -⟩ := bookOf_counters (t := t) p ts
  constructor
  · intro i
    rw [hinvs, hreps]
    exact and_congr_left fun hv => (hlocal.tracks.valid_report hv).symm
  · rw [hlocal.finish, h.eq]
    change (CaptureQuality.incomplete^[_] p'.quality).completeInvocations = (bookOf p ts t).quality.completeInvocations
    rw [(incomplete_iterate _ _).1, hlocal.complete, hc, List.countP_eq_length_filter, List.countP_eq_length_filter,
      (hlocal.valid_perm t).length_eq]
  · rw [hlocal.finish, h.eq]
    change (CaptureQuality.incomplete^[_] p'.quality).incompleteInvocations =
      (bookOf p ts t).quality.incompleteInvocations
    rw [(incomplete_iterate _ _).2, hlocal.incomplete, hinc, countUp_add, hlocal.invalid_count]
  · obtain ⟨c', htable⟩ := h.table
    have hknown : (c.finish p' t).KnownStacks := by
      rw [hlocal.finish]
      refine StackTable.knownStacks (F := framesIn es) (c := c) ?_
      exact hlocal.table.keep rfl rfl rfl rfl
    have hperm : (c.finish p' t).validInvocations.Perm (collectEvents p ts t).validInvocations := by
      rw [hlocal.validInvocations, Profile.validInvocations, Profile.validInvocations, h.invocations_eq hi,
        filter_valid fun i => hlocal.valid_complete, filter_valid fun i => reports_complete]
      exact hlocal.valid_perm t
    intro q
    refine executeQuery_congr_valid ?_ hperm ?_ hknown (h.eq ▸ htable.knownStacks) ?_ q
    · rw [hlocal.validInvocations]
      exact hlocal.tracks.nodup.sublist (List.filter_sublist.map _)
    · rw [hlocal.finish, h.eq]
      exact hlocal.functions
    · intro i hm
      obtain ⟨hmem, -, hv⟩ := mem_validInvocations.mp (hlocal.validInvocations t ▸ hm)
      have htagged := h.samplesUnder i.id
      rw [keptSamples_filter_valid ((hlocal.tracks.valid_report hv).mpr hmem) hv, hlocal.keeps hmem hv,
        List.map_map] at htagged
      have huntagged : (c.finish p' t).samplesUnder i.id = p'.samplesUnder i.id := by
        rw [hlocal.finish]
        rfl
      rw [hlocal.samplesUnder hmem hv] at huntagged
      exact .of_eq (huntagged.trans htagged.symm)

/-- A nested entry, a violation, a return of another function, an unmatched return, and calls on two threads. -/
def mixedCalls : List CollectorEvent :=
  [.entry none 1 7 1, .sample none ⟨7, 2, 0, .onCpu, 5, [⟨some 1, "work", none, none⟩]⟩, .entry none 1 8 1,
    .entry none 1 7 3, .violation 8 4, .sample none ⟨7, 5, 0, .onCpu, 5, [⟨some 1, "work", none, none⟩]⟩,
    .ret none 1 8 6, .ret none 1 7 7, .ret none 1 7 9, .entry none 1 7 10, .ret none 2 7 11, .entry none 1 8 12]

theorem mixedCalls_tagAll : SameResults (collectEvents blankProfile mixedCalls 20)
    (collectEvents blankProfile (tagAll ({}, blankProfile) mixedCalls) 20) :=
  collectEvents_tagAll (by decide) (by decide) (by decide) (by decide) rfl rfl rfl 20

/-- With 2^32 stacks the results of a query differ, and with 2^64 calls the counters. -/
theorem collectEvents_tagAll_bounds :
    ((∀ e ∈ nestedCall (u32Max - 2), e.Untagged) ∧ StampsIncrease (nestedCall (u32Max - 2)) ∧
      ¬ SameResults (collectEvents blankProfile (nestedCall (u32Max - 2)) u64Max)
        (collectEvents blankProfile (tagAll ({}, blankProfile) (nestedCall (u32Max - 2))) u64Max)) ∧
    ((∀ e ∈ callPairs (u64Max + 1), e.Untagged) ∧ StampsIncrease (callPairs (u64Max + 1)) ∧
      ¬ SameResults (collectEvents blankProfile (callPairs (u64Max + 1)) u64Max)
        (collectEvents blankProfile (tagAll ({}, blankProfile) (callPairs (u64Max + 1))) u64Max)) :=
  ⟨⟨nestedCall_untagged _, nestedCall_increase _, fun h => nestedCall_query (by decide) u64Max (h.queries workQuery)⟩,
    callPairs_untagged _, callPairs_increase _, fun h => callPairs_complete rfl u64Max h.complete⟩

end SliceProfiler
