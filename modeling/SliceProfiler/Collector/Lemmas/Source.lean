import Mathlib.Data.List.Induction
import SliceProfiler.Collector.Source

/-!
# The record of an identity

Every field of the record that the correlator assembles under an identity, as a function of the events.
-/

namespace SliceProfiler

open Lib

/-- The record of the identity `i` after an event. -/
def assemble (i : Nat) (found : Option SourceInvocation) : CollectorEvent → Option SourceInvocation
  | .entry (some id) functionId tid timestampNs =>
      if id = i then
        some ((found.getD ⟨i, some functionId, tid, some timestampNs, none, false, false, true, []⟩).onEntry
          functionId tid timestampNs)
      else found
  | .ret (some id) functionId tid timestampNs =>
      if id = i then
        some ((found.getD ⟨i, some functionId, tid, none, some timestampNs, false, false, true, []⟩).onReturn
          functionId tid timestampNs)
      else found
  | .sample (some id) s =>
      if id = i then some ((found.getD ⟨i, none, s.tid, none, none, false, false, true, []⟩).onSample s)
      else found
  | _ => found

def recordOf (i : Nat) (es : List CollectorEvent) : Option SourceInvocation := es.foldl (assemble i) none

variable {i : Nat} {es : List CollectorEvent}

/-! ## One more event -/

section Concat

variable {e : CollectorEvent}

theorem entriesOf_concat : entriesOf i (es ++ [e]) = entriesOf i es ++ (e.entryOf i).toList := by
  cases h : e.entryOf i <;> simp [entriesOf, List.filterMap_append, h]

theorem returnsOf_concat : returnsOf i (es ++ [e]) = returnsOf i es ++ (e.returnOf i).toList := by
  cases h : e.returnOf i <;> simp [returnsOf, List.filterMap_append, h]

theorem samplesOf_concat : samplesOf i (es ++ [e]) = samplesOf i es ++ (e.sampleOf i).toList := by
  cases h : e.sampleOf i <;> simp [samplesOf, List.filterMap_append, h]

theorem violationsOf_concat : violationsOf (es ++ [e]) = violationsOf es ++ e.violationAt.toList := by
  cases h : e.violationAt <;> simp [violationsOf, List.filterMap_append, h]

theorem tidsOf_concat : tidsOf i (es ++ [e]) = tidsOf i es ++ (e.tidOf i).toList := by
  cases h : e.tidOf i <;> simp [tidsOf, List.filterMap_append, h]

theorem recordOf_concat : recordOf i (es ++ [e]) = assemble i (recordOf i es) e := by
  simp [recordOf]

theorem regular_concat : Regular i (es ++ [e]) ↔ Regular i es ∧ Accepted i es e := each_concat

end Concat

theorem tidOf_eq_none {e : CollectorEvent} :
    e.tidOf i = none ↔ e.entryOf i = none ∧ e.returnOf i = none ∧ e.sampleOf i = none := by
  simp only [CollectorEvent.tidOf, Option.or_eq_none_iff, Option.map_eq_none_iff]

/-- Without a first event the identity has no events at all. -/
theorem carriedTid_eq_none : carriedTid i es = none ↔ ∀ e ∈ es, e.tidOf i = none := by
  simp only [carriedTid, Option.or_eq_none_iff, Option.map_eq_none_iff, List.head?_eq_none_iff,
    entriesOf, tidsOf, List.filterMap_eq_nil_iff, tidOf_eq_none]
  exact ⟨fun h => h.2, fun h => ⟨fun e he => (h e he).1, h⟩⟩

/-- The record holds what the events say. -/
structure Describes (i : Nat) (es : List CollectorEvent) (r : SourceInvocation) : Prop where
  id : r.id = i
  functionId : r.functionId = carriedFunction i es
  tid : carriedTid i es = some r.tid
  startNs : r.startNs = (entriesOf i es).head?.map (·.timestampNs)
  endNs : r.endNs = (returnsOf i es).getLast?.map (·.timestampNs)
  sawEntry : r.sawEntry = true ↔ entriesOf i es ≠ []
  sawReturn : r.sawReturn = true ↔ returnsOf i es ≠ []
  valid : r.valid = true ↔ Regular i es
  samples : r.samples = samplesOf i es

theorem eq_nil_of_carriedTid (h : carriedTid i es = none) :
    entriesOf i es = [] ∧ returnsOf i es = [] ∧ samplesOf i es = [] ∧ tidsOf i es = [] := by
  have hn := carriedTid_eq_none.mp h
  have hk := fun e he => tidOf_eq_none.mp (hn e he)
  simp only [entriesOf, returnsOf, samplesOf, tidsOf, List.filterMap_eq_nil_iff]
  exact ⟨fun e he => (hk e he).1, fun e he => (hk e he).2.1, fun e he => (hk e he).2.2, hn⟩

theorem regular_of_carriedTid (h : carriedTid i es = none) : Regular i es := by
  intro pre e post he
  obtain ⟨hb, hr, -⟩ := tidOf_eq_none.mp (carriedTid_eq_none.mp h e (by simp [he]))
  exact ⟨by simp [hb], by simp [hr]⟩

theorem accepted_entry {f tid t : Nat} : Accepted i es (.entry (some i) f tid t) ↔
    entriesOf i es = [] ∧ ∀ r ∈ (returnsOf i es).getLast?, t ≤ r.timestampNs := by
  constructor
  · intro h
    exact h.entry ⟨f, tid, t⟩ (by simp [CollectorEvent.entryOf])
  · intro h
    exact ⟨by simpa [CollectorEvent.entryOf] using h, by simp [CollectorEvent.returnOf]⟩

theorem accepted_ret {f tid t : Nat} : Accepted i es (.ret (some i) f tid t) ↔
    returnsOf i es = [] ∧ ReturnAgrees i es ⟨f, tid, t⟩ ∧
      ∀ b ∈ (entriesOf i es).head?, b.timestampNs ≤ t := by
  constructor
  · intro h
    exact h.ret ⟨f, tid, t⟩ (by simp [CollectorEvent.returnOf])
  · intro h
    exact ⟨by simp [CollectorEvent.entryOf], by simpa [CollectorEvent.returnOf] using h⟩

theorem accepted_sample {s : PendingSample} : Accepted i es (.sample (some i) s) :=
  ⟨by simp [CollectorEvent.entryOf], by simp [CollectorEvent.returnOf]⟩

theorem accepted_other {e : CollectorEvent} (hb : e.entryOf i = none) (hr : e.returnOf i = none) :
    Accepted i es e := ⟨by simp [hb], by simp [hr]⟩

section Steps

variable {r : SourceInvocation} {f tid t : Nat}

/-- A second entry only invalidates the record. -/
theorem Describes.entryAgain (h : Describes i es r) (hs : r.sawEntry = true) :
    Describes i (es ++ [.entry (some i) f tid t]) (r.onEntry f tid t) := by
  obtain ⟨b, bs, hb⟩ := List.exists_cons_of_ne_nil (h.sawEntry.mp hs)
  have htid := h.tid
  have hf := h.functionId
  have hstart := h.startNs
  simp only [carriedTid, carriedFunction, hb] at htid hf hstart
  rw [SourceInvocation.onEntry, if_pos hs]
  exact ⟨h.id, by simpa [carriedFunction, entriesOf_concat, hb] using hf,
    by simpa [carriedTid, entriesOf_concat, hb] using htid,
    by simpa [entriesOf_concat, hb] using hstart,
    by simpa [returnsOf_concat, CollectorEvent.returnOf] using h.endNs,
    by simp [hs, entriesOf_concat, hb],
    by simpa [returnsOf_concat, CollectorEvent.returnOf] using h.sawReturn,
    by simp [regular_concat, accepted_entry, hb],
    by simpa [samplesOf_concat, CollectorEvent.sampleOf] using h.samples⟩

/-- The first entry sets the function, the thread and the start. -/
theorem Describes.entryFirst (h : Describes i es r) (hs : r.sawEntry = false) :
    Describes i (es ++ [.entry (some i) f tid t]) (r.onEntry f tid t) := by
  have hb : entriesOf i es = [] := by
    by_contra hb
    exact absurd (h.sawEntry.mpr hb) (by simp [hs])
  rw [SourceInvocation.onEntry, if_neg (by simp [hs])]
  refine ⟨h.id, ?_, ?_, ?_, ?_, ?_, ?_, ?_, ?_⟩
  · simp [carriedFunction, entriesOf_concat, hb, CollectorEvent.entryOf]
  · simp [carriedTid, entriesOf_concat, hb, CollectorEvent.entryOf]
  · simp [entriesOf_concat, hb, CollectorEvent.entryOf]
  · simpa [returnsOf_concat, CollectorEvent.returnOf] using h.endNs
  · simp [entriesOf_concat, CollectorEvent.entryOf]
  · simpa [returnsOf_concat, CollectorEvent.returnOf] using h.sawReturn
  · simp [regular_concat, accepted_entry, hb, h.valid, h.endNs, Option.any_eq_false]
  · simpa [samplesOf_concat, CollectorEvent.sampleOf] using h.samples

theorem Describes.ret (h : Describes i es r) :
    Describes i (es ++ [.ret (some i) f tid t]) (r.onReturn f tid t) := by
  rw [SourceInvocation.onReturn]
  refine ⟨h.id, ?_, ?_, ?_, ?_, ?_, ?_, ?_, ?_⟩
  · simp only [h.functionId, carriedFunction, entriesOf_concat, returnsOf_concat, CollectorEvent.entryOf,
      CollectorEvent.returnOf, Option.toList_none, List.append_nil, ↓reduceIte, Option.toList_some, List.head?_append]
    cases (entriesOf i es).head? <;> cases (returnsOf i es).head? <;> rfl
  · have htid := h.tid
    simp only [carriedTid] at htid
    simp [carriedTid, entriesOf_concat, tidsOf_concat, CollectorEvent.entryOf, List.head?_append, ← Option.or_assoc,
      htid]
  · simpa [entriesOf_concat, CollectorEvent.entryOf] using h.startNs
  · simp [returnsOf_concat, CollectorEvent.returnOf]
  · simpa [entriesOf_concat, CollectorEvent.entryOf] using h.sawEntry
  · simp [returnsOf_concat, CollectorEvent.returnOf]
  · have hret : r.sawReturn = false ↔ returnsOf i es = [] := by
      rw [← Bool.not_eq_true, h.sawReturn, not_not]
    have hf : r.functionId.getD f = f ↔ ∀ g, r.functionId = some g → g = f := by
      cases r.functionId <;> simp
    simp [regular_concat, accepted_ret, ReturnAgrees, h.valid, h.tid, ← h.functionId, h.startNs,
      Option.any_eq_false, hret, hf]
    tauto
  · simpa [samplesOf_concat, CollectorEvent.sampleOf] using h.samples

theorem Describes.sample (h : Describes i es r) (s : PendingSample) :
    Describes i (es ++ [.sample (some i) s]) (r.onSample s) := by
  rw [SourceInvocation.onSample]
  refine ⟨h.id, ?_, ?_, ?_, ?_, ?_, ?_, ?_, ?_⟩
  · simpa [carriedFunction, entriesOf_concat, returnsOf_concat, CollectorEvent.entryOf,
      CollectorEvent.returnOf] using h.functionId
  · have htid := h.tid
    simp only [carriedTid] at htid
    simp [carriedTid, entriesOf_concat, tidsOf_concat, CollectorEvent.entryOf, List.head?_append,
      ← Option.or_assoc, htid]
  · simpa [entriesOf_concat, CollectorEvent.entryOf] using h.startNs
  · simpa [returnsOf_concat, CollectorEvent.returnOf] using h.endNs
  · simpa [entriesOf_concat, CollectorEvent.entryOf] using h.sawEntry
  · simpa [returnsOf_concat, CollectorEvent.returnOf] using h.sawReturn
  · simpa [regular_concat, accepted_sample] using h.valid
  · simp [samplesOf_concat, CollectorEvent.sampleOf, h.samples]

theorem Describes.other {e : CollectorEvent} (h : Describes i es r) (he : e.tidOf i = none) :
    Describes i (es ++ [e]) r := by
  obtain ⟨hb, hr, hs⟩ := tidOf_eq_none.mp he
  have hE : entriesOf i (es ++ [e]) = entriesOf i es := by simp [entriesOf_concat, hb]
  have hR : returnsOf i (es ++ [e]) = returnsOf i es := by simp [returnsOf_concat, hr]
  have hS : samplesOf i (es ++ [e]) = samplesOf i es := by simp [samplesOf_concat, hs]
  have hT : tidsOf i (es ++ [e]) = tidsOf i es := by simp [tidsOf_concat, he]
  refine ⟨h.id, ?_, ?_, ?_, ?_, ?_, ?_, ?_, ?_⟩
  · rw [carriedFunction, hE, hR]; exact h.functionId
  · rw [carriedTid, hE, hT]; exact h.tid
  · rw [hE]; exact h.startNs
  · rw [hR]; exact h.endNs
  · rw [hE]; exact h.sawEntry
  · rw [hR]; exact h.sawReturn
  · rw [regular_concat, h.valid]
    exact ⟨fun hv => ⟨hv, accepted_other hb hr⟩, fun hv => hv.1⟩
  · rw [hS]; exact h.samples

/-! ## The first event -/

theorem Describes.ofEntry (hn : carriedTid i es = none) :
    Describes i (es ++ [.entry (some i) f tid t])
      (SourceInvocation.onEntry ⟨i, some f, tid, some t, none, false, false, true, []⟩ f tid t) := by
  obtain ⟨hE, hR, hS, hT⟩ := eq_nil_of_carriedTid hn
  constructor <;> simp [SourceInvocation.onEntry, carriedFunction, carriedTid, entriesOf_concat,
    returnsOf_concat, samplesOf_concat, tidsOf_concat, hE, hR, hS, hT, CollectorEvent.entryOf,
    CollectorEvent.returnOf, CollectorEvent.sampleOf, regular_concat, accepted_entry,
    regular_of_carriedTid hn]

theorem Describes.ofReturn (hn : carriedTid i es = none) :
    Describes i (es ++ [.ret (some i) f tid t])
      (SourceInvocation.onReturn ⟨i, some f, tid, none, some t, false, false, true, []⟩ f tid t) := by
  obtain ⟨hE, hR, hS, hT⟩ := eq_nil_of_carriedTid hn
  constructor <;> simp [SourceInvocation.onReturn, carriedFunction, carriedTid, entriesOf_concat,
    returnsOf_concat, samplesOf_concat, tidsOf_concat, hE, hR, hS, hT, CollectorEvent.entryOf,
    CollectorEvent.returnOf, CollectorEvent.sampleOf, CollectorEvent.tidOf, regular_concat, accepted_ret,
    ReturnAgrees, regular_of_carriedTid hn]

theorem Describes.ofSample (hn : carriedTid i es = none) (s : PendingSample) :
    Describes i (es ++ [.sample (some i) s])
      (SourceInvocation.onSample ⟨i, none, s.tid, none, none, false, false, true, []⟩ s) := by
  obtain ⟨hE, hR, hS, hT⟩ := eq_nil_of_carriedTid hn
  constructor <;> simp [SourceInvocation.onSample, carriedFunction, carriedTid, entriesOf_concat,
    returnsOf_concat, samplesOf_concat, tidsOf_concat, hE, hR, hS, hT, CollectorEvent.entryOf,
    CollectorEvent.returnOf, CollectorEvent.sampleOf, CollectorEvent.tidOf, regular_concat, accepted_sample,
    regular_of_carriedTid hn]

end Steps

/-! ## The record of a sequence of events -/

/-- An event is an entry, a return or a sample of the identity, or does not have it. -/
inductive EventFor (i : Nat) : CollectorEvent → Prop where
  | entry (f tid t : Nat) : EventFor i (.entry (some i) f tid t)
  | ret (f tid t : Nat) : EventFor i (.ret (some i) f tid t)
  | sample (s : PendingSample) : EventFor i (.sample (some i) s)
  | other {e : CollectorEvent} (hid : e.invocationId ≠ some i) : EventFor i e

theorem eventFor (i : Nat) (e : CollectorEvent) : EventFor i e := by
  by_cases h : e.invocationId = some i
  · cases e with
    | entry id f tid t => cases h; exact .entry f tid t
    | ret id f tid t => cases h; exact .ret f tid t
    | sample id s => cases h; exact .sample s
    | violation | droppedEvents | droppedSamples => cases h
  · exact .other h

theorem tidOf_of_ne {e : CollectorEvent} (h : e.invocationId ≠ some i) : e.tidOf i = none := by
  rw [tidOf_eq_none]
  cases e with
  | entry id | ret id | sample id =>
      cases id <;> simp_all [CollectorEvent.invocationId, CollectorEvent.entryOf, CollectorEvent.returnOf,
        CollectorEvent.sampleOf]
  | violation | droppedEvents | droppedSamples => exact ⟨rfl, rfl, rfl⟩

theorem assemble_of_ne {e : CollectorEvent} (h : e.invocationId ≠ some i) (found : Option SourceInvocation) :
    assemble i found e = found := by
  cases e with
  | entry id | ret id | sample id => cases id <;> simp_all [CollectorEvent.invocationId, assemble]
  | violation | droppedEvents | droppedSamples => rfl

theorem recordOf_spec (i : Nat) (es : List CollectorEvent) :
    (recordOf i es = none ∧ carriedTid i es = none) ∨ ∃ r, recordOf i es = some r ∧ Describes i es r := by
  induction es using List.reverseRecOn with
  | nil => exact .inl ⟨rfl, rfl⟩
  | append_singleton es e ih =>
      rw [recordOf_concat]
      cases eventFor i e with
      | other he =>
          rw [assemble_of_ne he]
          rcases ih with ⟨hr, hn⟩ | ⟨r, hr, hd⟩
          · refine .inl ⟨hr, carriedTid_eq_none.mpr fun e' he' => ?_⟩
            rcases List.mem_append.mp he' with he' | he'
            · exact carriedTid_eq_none.mp hn e' he'
            · rw [List.mem_singleton.mp he']; exact tidOf_of_ne he
          · exact .inr ⟨r, hr, hd.other (tidOf_of_ne he)⟩
      | entry f tid t =>
          refine .inr ⟨_, if_pos rfl, ?_⟩
          rcases ih with ⟨hr, hn⟩ | ⟨r, hr, hd⟩
          · rw [hr]; exact .ofEntry hn
          · rw [hr]
            cases hs : r.sawEntry with
            | true => exact hd.entryAgain hs
            | false => exact hd.entryFirst hs
      | ret f tid t =>
          refine .inr ⟨_, if_pos rfl, ?_⟩
          rcases ih with ⟨hr, hn⟩ | ⟨r, hr, hd⟩
          · rw [hr]; exact .ofReturn hn
          · rw [hr]; exact hd.ret
      | sample s =>
          refine .inr ⟨_, if_pos rfl, ?_⟩
          rcases ih with ⟨hr, hn⟩ | ⟨r, hr, hd⟩
          · rw [hr]; exact .ofSample hn s
          · rw [hr]; exact hd.sample s

end SliceProfiler
