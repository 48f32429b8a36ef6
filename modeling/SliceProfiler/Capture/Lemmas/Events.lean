import SliceProfiler.Capture.Lemmas.Replay
import SliceProfiler.Capture.Lemmas.Valid

/-!
# What the delivered events say of an invocation
-/

namespace SliceProfiler

open Lib

variable {request : CaptureRequest} {resolver : Resolver} {store : StackStore} {events : List Event} {i : Nat}

/-- The function that the capture follows, at the thread and the instant of a raw event. -/
def Event.boundary (request : CaptureRequest) (e : Event) : Boundary := ⟨request.function.id, e.tid, e.timestampNs⟩

/-! ## One event -/

section Translate

variable (e : Event)

theorem entryOf_translate : (translate request resolver store e).entryOf i =
    if e.kind = 1 ∧ e.invocationId = i then some (e.boundary request) else none := by
  obtain ⟨kind, tid, ts, id, stackId, cpu, weight⟩ := e
  cases kindCase kind with
  | entry => simp [translate, CollectorEvent.entryOf, Event.boundary]
  | ret | sample | violation | offCpu => simp [translate, CollectorEvent.entryOf]
  | unknown h => simp [translate, CollectorEvent.entryOf, h]

theorem returnOf_translate : (translate request resolver store e).returnOf i =
    if e.kind = 2 ∧ e.invocationId = i then some (e.boundary request) else none := by
  obtain ⟨kind, tid, ts, id, stackId, cpu, weight⟩ := e
  cases kindCase kind with
  | ret => simp [translate, CollectorEvent.returnOf, Event.boundary]
  | entry | sample | violation | offCpu => simp [translate, CollectorEvent.returnOf]
  | unknown h => simp [translate, CollectorEvent.returnOf, h]

theorem violationAt_translate : (translate request resolver store e).violationAt =
    if e.kind = 4 then some (e.tid, e.timestampNs) else none := by
  obtain ⟨kind, tid, ts, id, stackId, cpu, weight⟩ := e
  cases kindCase kind with
  | violation => simp [translate, CollectorEvent.violationAt]
  | entry | ret | sample | offCpu => simp [translate, CollectorEvent.violationAt]
  | unknown h => simp [translate, CollectorEvent.violationAt, h]

theorem sampleOf_translate {s : PendingSample} (h : (translate request resolver store e).sampleOf i = some s) :
    (e.kind = 3 ∨ e.kind = 5) ∧ e.invocationId = i ∧ s.tid = e.tid ∧ s.timestampNs = e.timestampNs := by
  obtain ⟨kind, tid, ts, id, stackId, cpu, weight⟩ := e
  cases kindCase kind with
  | sample | offCpu =>
      simp only [translate, CollectorEvent.sampleOf] at h
      split at h <;> cases h
      rename_i hid
      simp [hid]
  | entry | ret | violation => cases h
  | unknown hk => simp [translate, CollectorEvent.sampleOf, hk] at h

/-- Only the records of a violation carry no identity. -/
theorem tidOf_translate {tid : Nat} (h : (translate request resolver store e).tidOf i = some tid) :
    e.kind ≠ 4 ∧ e.invocationId = i ∧ tid = e.tid := by
  simp only [CollectorEvent.tidOf, Option.or_eq_some_iff, Option.map_eq_some_iff, entryOf_translate,
    returnOf_translate, Option.ite_none_right_eq_some] at h
  rcases h with ⟨b, ⟨⟨hk, hid⟩, hb⟩, rfl⟩ | ⟨-, ⟨b, ⟨⟨hk, hid⟩, hb⟩, rfl⟩ | ⟨-, s, hs, rfl⟩⟩
  · cases hb; exact ⟨by omega, hid, rfl⟩
  · cases hb; exact ⟨by omega, hid, rfl⟩
  · obtain ⟨hk, hid, htid, -⟩ := sampleOf_translate e hs
    exact ⟨by omega, hid, htid⟩

end Translate

/-! ## All events -/

theorem mem_translateAll {x : CollectorEvent} :
    x ∈ translateAll request resolver store events ↔ ∃ e ∈ events, translate request resolver store e = x := by
  simp only [translateAll, sortEvents, List.mem_map, mem_sortByKey]

theorem mem_entriesOf {b : Boundary} : b ∈ entriesOf i (translateAll request resolver store events) ↔
    ∃ e ∈ events, e.kind = 1 ∧ e.invocationId = i ∧ e.boundary request = b := by
  simp only [entriesOf, List.mem_filterMap, mem_translateAll, exists_exists_and_eq_and, entryOf_translate,
    Option.ite_none_right_eq_some, Option.some.injEq, and_assoc]

theorem mem_returnsOf {b : Boundary} : b ∈ returnsOf i (translateAll request resolver store events) ↔
    ∃ e ∈ events, e.kind = 2 ∧ e.invocationId = i ∧ e.boundary request = b := by
  simp only [returnsOf, List.mem_filterMap, mem_translateAll, exists_exists_and_eq_and, returnOf_translate,
    Option.ite_none_right_eq_some, Option.some.injEq, and_assoc]

theorem mem_violationsOf {v : Nat × Nat} : v ∈ violationsOf (translateAll request resolver store events) ↔
    ∃ e ∈ events, e.kind = 4 ∧ (e.tid, e.timestampNs) = v := by
  simp only [violationsOf, List.mem_filterMap, mem_translateAll, exists_exists_and_eq_and, violationAt_translate,
    Option.ite_none_right_eq_some, Option.some.injEq]

theorem of_mem_samplesOf {s : PendingSample} (h : s ∈ samplesOf i (translateAll request resolver store events)) :
    ∃ e ∈ events, (e.kind = 3 ∨ e.kind = 5) ∧ e.invocationId = i ∧ s.tid = e.tid ∧
      s.timestampNs = e.timestampNs := by
  obtain ⟨x, hx, hs⟩ := List.mem_filterMap.mp h
  obtain ⟨e, he, rfl⟩ := mem_translateAll.mp hx
  exact ⟨e, he, sampleOf_translate e hs⟩

/-- How many records of a kind an identity has. -/
def countRecords (kind i : Nat) (events : List Event) : Nat :=
  events.countP fun e => e.kind = kind ∧ e.invocationId = i

theorem length_entriesOf : (entriesOf i (translateAll request resolver store events)).length =
    countRecords 1 i events := by
  rw [entriesOf, List.length_filterMap_eq_countP, translateAll, sortEvents, List.countP_map,
    (sortByKey_perm Event.sortKey events).countP_eq]
  refine List.countP_congr fun e _ => ?_
  simp [entryOf_translate, Option.isSome_ite]

theorem length_returnsOf : (returnsOf i (translateAll request resolver store events)).length =
    countRecords 2 i events := by
  rw [returnsOf, List.length_filterMap_eq_countP, translateAll, sortEvents, List.countP_map,
    (sortByKey_perm Event.sortKey events).countP_eq]
  refine List.countP_congr fun e _ => ?_
  simp [returnOf_translate, Option.isSome_ite]

theorem eq_singleton_of_mem {α : Type} {l : List α} {a : α} (ha : a ∈ l) (hl : l.length ≤ 1) : l = [a] := by
  obtain ⟨b, rfl⟩ := List.length_eq_one_iff.mp (hl.antisymm (List.length_pos_of_mem ha))
  rw [List.mem_singleton.mp ha]

/-- The returns of an identity agree when all its events come from one thread. -/
theorem returnsAgree_translateAll {tid : Nat}
    (h : ∀ e ∈ events, e.kind ≠ 4 → e.invocationId = i → e.tid = tid) :
    ReturnsAgree i (translateAll request resolver store events) := by
  refine returnsAgree_of_uniform request.function.id tid ?_ ?_
  · intro x hx b hb
    obtain ⟨e, he, rfl⟩ := mem_translateAll.mp hx
    simp only [entryOf_translate, returnOf_translate, Option.ite_none_right_eq_some, Option.some.injEq] at hb
    rcases hb with ⟨-, rfl⟩ | ⟨-, rfl⟩ <;> rfl
  · intro x hx n hn
    obtain ⟨e, he, rfl⟩ := mem_translateAll.mp hx
    obtain ⟨hk, hid, rfl⟩ := tidOf_translate e hn
    exact h e he hk hid

/-! ## The invocations of a capture -/

/-- The records of a valid invocation: its entry, its return, and no violation of its thread between them. -/
structure Spans (events : List Event) (inv : Invocation) (e r : Event) : Prop where
  entry : e ∈ events ∧ e.kind = 1 ∧ e.invocationId = inv.id
  ret : r ∈ events ∧ r.kind = 2 ∧ r.invocationId = inv.id
  tid : inv.tid = e.tid
  startNs : inv.startNs = e.timestampNs
  endNs : inv.endNs = r.timestampNs
  clear : ∀ v ∈ events, v.kind = 4 → v.tid = e.tid → e.timestampNs ≤ v.timestampNs → r.timestampNs < v.timestampNs

section Capture

variable {names : Map Nat String} {now eventsDropped samplesDropped finishNs : Nat} {release : String}
  {inv : Invocation}

theorem freshStartProfile : (startProfile request now release eventsDropped samplesDropped).Fresh :=
  ⟨rfl, List.nodup_singleton _, rfl, rfl, rfl, rfl, rfl⟩

theorem collected_capture (request : CaptureRequest) (resolver : Resolver) (store : StackStore)
    (now : Nat) (release : String) (eventsDropped samplesDropped : Nat) (events : List Event) (finishNs : Nat) :
    ∃ ks ss, Collected (startProfile request now release eventsDropped samplesDropped)
      (translateAll request resolver store events) finishNs ks ss :=
  collected (tagged_translateAll events) (framesIn_translateAll events).le rfl rfl finishNs

theorem mem_capture_invocations :
    inv ∈ (capture request resolver store names now release eventsDropped samplesDropped events finishNs).invocations ↔
      inv ∈ reports (translateAll request resolver store events) finishNs := by
  obtain ⟨ks, ss, h⟩ :=
    collected_capture request resolver store now release eventsDropped samplesDropped events finishNs
  simp only [capture, replay_eq, h.invocations freshStartProfile]

theorem spans_of_valid
    (h : inv ∈ (capture request resolver store names now release eventsDropped samplesDropped events
      finishNs).invocations) (hv : inv.valid = true) : ∃ e r, Spans events inv e r := by
  obtain ⟨b, hb, hr⟩ := mem_reports.mp (mem_capture_invocations.mp h)
  obtain ⟨b', hret⟩ := hr.valid.mp hv
  obtain ⟨e, he, hek, heid, hbe⟩ := mem_entriesOf.mp (List.mem_of_mem_head? hb)
  have hb' : b' ∈ returnsOf inv.id (translateAll request resolver store events) := by
    rw [hret.ret]; exact List.mem_singleton_self b'
  obtain ⟨r, hrm, hrk, hrid, hbr⟩ := mem_returnsOf.mp hb'
  have hend : inv.endNs = b'.timestampNs := by rw [hr.endNs, hret.ret]; rfl
  subst hbe hbr
  refine ⟨e, r, ⟨he, hek, heid⟩, ⟨hrm, hrk, hrid⟩, hr.tid, hr.startNs, hend, fun v hv hvk hvt hle => ?_⟩
  have hclear := hret.clear (v.tid, v.timestampNs) (mem_violationsOf.mpr ⟨v, hv, hvk, rfl⟩)
  exact Nat.lt_of_not_le fun hle' => hclear ⟨hvt, hle, hle'⟩

/-- An identity whose records are one entry and one return of a thread, without a violation between them, is
reported as valid. -/
theorem exists_valid {e r : Event} (he : e ∈ events ∧ e.kind = 1 ∧ e.invocationId = i)
    (hr : r ∈ events ∧ r.kind = 2 ∧ r.invocationId = i) (hentries : countRecords 1 i events ≤ 1)
    (hreturns : countRecords 2 i events ≤ 1)
    (htid : ∀ x ∈ events, x.kind ≠ 4 → x.invocationId = i → x.tid = e.tid)
    (hle : e.timestampNs ≤ r.timestampNs)
    (hclear : ∀ v ∈ events, v.kind = 4 → v.tid = e.tid → e.timestampNs ≤ v.timestampNs →
      r.timestampNs < v.timestampNs) :
    ∃ inv ∈ (capture request resolver store names now release eventsDropped samplesDropped events
      finishNs).invocations, inv.id = i ∧ inv.complete = true ∧ inv.valid = true := by
  obtain ⟨he, hek, heid⟩ := he
  obtain ⟨hr, hrk, hrid⟩ := hr
  have hE : entriesOf i (translateAll request resolver store events) = [e.boundary request] :=
    eq_singleton_of_mem (mem_entriesOf.mpr ⟨e, he, hek, heid, rfl⟩) (length_entriesOf.trans_le hentries)
  have hR : returnsOf i (translateAll request resolver store events) = [r.boundary request] :=
    eq_singleton_of_mem (mem_returnsOf.mpr ⟨r, hr, hrk, hrid, rfl⟩) (length_returnsOf.trans_le hreturns)
  have hret : Retained i (translateAll request resolver store events) (e.boundary request) (r.boundary request) := by
    refine ⟨hE, hR, returnsAgree_translateAll htid, hle, fun v hv hc => ?_⟩
    obtain ⟨x, hx, hxk, rfl⟩ := mem_violationsOf.mp hv
    have := hclear x hx hxk hc.1 hc.2.1
    exact absurd hc.2.2 (Nat.not_le_of_lt this)
  obtain ⟨inv, hinv, hrep⟩ := exists_report (t := finishNs) (by rw [hE]; rfl)
  refine ⟨inv, mem_capture_invocations.mpr hinv, hrep.id, hrep.complete.mpr ?_, hrep.valid.mpr ⟨_, hret⟩⟩
  rw [hR]; exact List.cons_ne_nil _ _

/-! ## Validity -/

theorem knownFunctions_translateAll :
    KnownFunctions (startProfile request now release eventsDropped samplesDropped)
      (translateAll request resolver store events) := by
  have hframes : ∀ addresses, ∀ f ∈ resolver.frames addresses, f.functionId = none := by
    intro addresses f hf
    obtain ⟨a, -, rfl⟩ := List.mem_map.mp (List.mem_reverse.mp hf)
    rfl
  intro x hx id hid
  obtain ⟨e, -, rfl⟩ := mem_translateAll.mp hx
  refine ⟨request.function, List.mem_singleton_self _, ?_⟩
  obtain ⟨kind, tid, ts, i, stackId, cpu, weight⟩ := e
  cases kindCase kind with
  | entry | ret => exact (List.mem_singleton.mp hid).symm
  | violation => cases hid
  | sample =>
      obtain ⟨f, hf, hfid⟩ := List.mem_filterMap.mp hid
      rw [hframes _ f hf] at hfid
      cases hfid
  | offCpu =>
      obtain ⟨f, hf, hfid⟩ := List.mem_filterMap.mp hid
      unfold CaptureRequest.offCpuFrames at hf
      split at hf
      · rw [hframes _ f hf] at hfid
        cases hfid
      · rcases List.mem_cons.mp hf with rfl | hf
        · exact Option.some.inj hfid
        · rw [hframes _ f hf] at hfid
          cases hfid
  | unknown h => simp [translate, h, CollectorEvent.functionIds] at hid

theorem countP_isSample_translateAll (h : events.length ≤ u64Max) :
    (translateAll request resolver store events).countP CollectorEvent.isSample ≤ u64Max := by
  refine List.countP_le_length.trans ?_
  rwa [translateAll, sortEvents, List.length_map, length_sortByKey]

theorem Profile.WellFormed.setEventsGenerated {p : Profile} (h : p.WellFormed) (n : Nat) :
    ({ p with quality := { p.quality with eventsGenerated := n } } : Profile).WellFormed := by
  have hrooted : ∀ id, p.Rooted id →
      ({ p with quality := { p.quality with eventsGenerated := n } } : Profile).Rooted id := by
    intro id hr
    induction hr with
    | root hi hp => exact .root hi hp
    | child hi hp _ ih => exact .child hi hp ih
  refine ⟨h.version, h.functionIds, h.threadIds, h.invocationIds, h.stackIds, fun i hi => ?_, h.frames,
    fun s hs => ?_, h.quality.complete, h.quality.incomplete, h.quality.samples⟩
  · have hw := h.invocations i hi
    exact ⟨hw.function, hw.thread, hw.bounds, hw.parent, hrooted _ hw.rooted⟩
  · have hw := h.samples s hs
    exact ⟨hw.stack, hw.invocation⟩

theorem capture_validate (hlen : events.length ≤ u64Max)
    (ho : OrderedBoundaries (translateAll request resolver store events))
    (hs : SamplesOnThread (translateAll request resolver store events)) :
    (capture request resolver store names now release eventsDropped samplesDropped events finishNs).validate =
      .ok () := by
  obtain ⟨ks, ss, h⟩ :=
    collected_capture request resolver store now release eventsDropped samplesDropped events finishNs
  have hw := (h.wellFormed_iff freshStartProfile knownFunctions_translateAll
    (countP_isSample_translateAll hlen) names).mpr ⟨ho, hs⟩
  simp only [capture, replay_eq]
  exact (hw.setEventsGenerated _).validate

end Capture

end SliceProfiler
