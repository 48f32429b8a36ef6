import Mathlib.Tactic.NormNum
import SliceProfiler.Capture.Ring

/-! # Lemmas on the ring buffer -/

namespace SliceProfiler

open Lib

variable {e : Event} {bytes rest : List UInt8} {start stop width n : Nat}

/-! ## Records -/

theorem le_u32Max_iff : n ≤ u32Max ↔ n < 256 ^ 4 := by
  rw [u32Max]
  norm_num
  omega

theorem le_u64Max_iff : n ≤ u64Max ↔ n < 256 ^ 8 := by
  rw [u64Max]
  norm_num
  omega

theorem toWord32_lt_pow (i : Int) : toWord32 i < 256 ^ 4 := by
  have := toWord32_lt i
  norm_num
  omega

theorem readField_head (h : n < 256 ^ width) : readField (toLittleEndian width n ++ rest) 0 width = n := by
  have hfirst : (toLittleEndian width n ++ rest).take width = toLittleEndian width n :=
    List.take_left' (length_toLittleEndian width n)
  rw [readField, List.drop_zero, Nat.sub_zero, hfirst, ofLittleEndian_toLittleEndian h]

theorem readField_tail (h : width ≤ start) :
    readField (toLittleEndian width n ++ rest) start stop = readField rest (start - width) (stop - width) := by
  obtain ⟨k, rfl⟩ := Nat.exists_eq_add_of_le h
  have hdrop : (toLittleEndian width n ++ rest).drop (width + k) = rest.drop k := by
    rw [← List.drop_drop, List.drop_left' (length_toLittleEndian width n)]
  have hlen : stop - (width + k) = stop - width - (width + k - width) := by omega
  rw [readField, hdrop, hlen, Nat.add_sub_cancel_left, readField]

theorem length_eventBytes (e : Event) : e.toBytes.length = eventSize := by
  simp [Event.toBytes, eventSize]

theorem readEvent_toBytes (h : e.Fits) : readEvent e.toBytes = e := by
  obtain ⟨kind, tid, timestampNs, invocationId, stackId, cpu, weightNs⟩ := e
  obtain ⟨hkind, htid, htimestamp, hinvocation, hstack, hcpu, hweight⟩ := h
  have hlast : readField (toLittleEndian 8 weightNs) 0 8 = weightNs := by
    rw [← List.append_nil (toLittleEndian 8 weightNs)]
    exact readField_head (le_u64Max_iff.mp hweight)
  simp only [readEvent, Event.toBytes, Event.mk.injEq]
  refine ⟨?_, ?_, ?_, ?_, ?_, ?_, ?_⟩
  · exact readField_head (le_u32Max_iff.mp hkind)
  · rw [readField_tail (by decide)]
    exact readField_head (le_u32Max_iff.mp htid)
  · rw [readField_tail (by decide), readField_tail (by decide)]
    exact readField_head (le_u64Max_iff.mp htimestamp)
  · rw [readField_tail (by decide), readField_tail (by decide), readField_tail (by decide)]
    exact readField_head (le_u64Max_iff.mp hinvocation)
  · rw [readField_tail (by decide), readField_tail (by decide), readField_tail (by decide), readField_tail (by decide)]
    exact (congrArg ofWord32 (readField_head (toWord32_lt_pow _))).trans (ofWord32_toWord32 hstack.1 hstack.2)
  · rw [readField_tail (by decide), readField_tail (by decide), readField_tail (by decide), readField_tail (by decide),
      readField_tail (by decide)]
    exact readField_head (le_u32Max_iff.mp hcpu)
  · rw [readField_tail (by decide), readField_tail (by decide), readField_tail (by decide), readField_tail (by decide),
      readField_tail (by decide), readField_tail (by decide)]
    exact hlast

/-- A field and what is behind it. -/
theorem toLittleEndian_readField (start width : Nat) (h : start + width ≤ bytes.length) :
    toLittleEndian width (readField bytes start (start + width)) ++ bytes.drop (start + width) = bytes.drop start := by
  have hlen : ((bytes.drop start).take width).length = width := by
    rw [List.length_take, List.length_drop]
    omega
  have hfield : toLittleEndian width (readField bytes start (start + width)) = (bytes.drop start).take width := by
    rw [readField, Nat.add_sub_cancel_left]
    calc toLittleEndian width (ofLittleEndian ((bytes.drop start).take width))
        = toLittleEndian ((bytes.drop start).take width).length (ofLittleEndian ((bytes.drop start).take width)) := by
          rw [hlen]
      _ = (bytes.drop start).take width := toLittleEndian_ofLittleEndian _
  rw [hfield, ← List.drop_drop, List.take_append_drop]

theorem readField_lt (bytes : List UInt8) (start width : Nat) :
    readField bytes start (start + width) < 256 ^ width := by
  rw [readField, Nat.add_sub_cancel_left]
  calc ofLittleEndian ((bytes.drop start).take width) < 256 ^ ((bytes.drop start).take width).length :=
        ofLittleEndian_lt _
    _ ≤ 256 ^ width := Nat.pow_le_pow_right (by decide) (List.length_take_le ..)

theorem toBytes_readEvent (h : bytes.length = eventSize) : (readEvent bytes).toBytes = bytes := by
  have hword : toWord32 (ofWord32 (readField bytes 24 28)) = readField bytes 24 28 :=
    toWord32_ofWord32 (Nat.lt_of_le_of_lt (le_u32Max_iff.mpr (readField_lt bytes 24 4)) (by decide))
  have hend : bytes.drop 40 = [] := List.drop_of_length_le h.le
  have hlast := toLittleEndian_readField 32 8 h.ge
  rw [hend, List.append_nil] at hlast
  rw [eventSize] at h
  unfold Event.toBytes readEvent
  rw [hword, hlast, toLittleEndian_readField 28 4 (by omega), toLittleEndian_readField 24 4 (by omega),
    toLittleEndian_readField 16 8 (by omega), toLittleEndian_readField 8 8 (by omega),
    toLittleEndian_readField 4 4 (by omega), toLittleEndian_readField 0 4 (by omega), List.drop_zero]

theorem readEvent_fits (bytes : List UInt8) : (readEvent bytes).Fits where
  kind := le_u32Max_iff.mpr (readField_lt bytes 0 4)
  tid := le_u32Max_iff.mpr (readField_lt bytes 4 4)
  timestampNs := le_u64Max_iff.mpr (readField_lt bytes 8 8)
  invocationId := le_u64Max_iff.mpr (readField_lt bytes 16 8)
  stackId := by
    simp only [readEvent]
    exact ofWord32_bounds _
  cpu := le_u32Max_iff.mpr (readField_lt bytes 28 4)
  weightNs := le_u64Max_iff.mpr (readField_lt bytes 32 8)

/-! ## Stack traces -/

theorem readAddresses_traceBytes {trace : List Nat} (h : ∀ address ∈ trace, address ≠ 0 ∧ address ≤ u64Max) :
    readAddresses (traceBytes trace) = trace := by
  have hwords : ∀ address ∈ trace ++ List.replicate (127 - trace.length) 0,
      (ofLittleEndian ∘ toLittleEndian 8) address = id address := by
    intro address ha
    refine ofLittleEndian_toLittleEndian (le_u64Max_iff.mp ?_)
    rcases List.mem_append.mp ha with ha | ha
    · exact (h address ha).2
    · rw [List.eq_of_mem_replicate ha]
      exact Nat.zero_le _
  have hchunks : ∀ chunk ∈ (trace ++ List.replicate (127 - trace.length) 0).map (toLittleEndian 8),
      chunk.length = 8 := by
    intro chunk hc
    obtain ⟨address, -, rfl⟩ := List.mem_map.mp hc
    exact length_toLittleEndian 8 address
  have hzeros : (List.replicate (127 - trace.length) 0).takeWhile (fun address => address != 0) = [] := by
    cases 127 - trace.length with
    | zero => rfl
    | succ n => rfl
  rw [readAddresses, traceBytes, chunksExact_flatten (by decide) hchunks, List.map_map, List.map_congr_left hwords,
    List.map_id, List.takeWhile_append_of_pos fun address ha => by simpa using (h address ha).1, hzeros,
    List.append_nil]

theorem readAddresses_le (raw : List UInt8) : ∀ address ∈ readAddresses raw, address ≤ u64Max := by
  intro address ha
  obtain ⟨chunk, hchunk, rfl⟩ := List.mem_map.mp (List.takeWhile_subset _ ha)
  have hlt := ofLittleEndian_lt chunk
  rw [length_of_mem_chunksExact hchunk] at hlt
  exact le_u64Max_iff.mpr hlt

/-! ## Deliveries -/

variable {traces : StackTraces} {r : Ring} {d : Delivery} {events : List Event} {deliveries : List Delivery}

theorem get_insertStack (store : StackStore) (stackId k : Int) (h : 0 ≤ stackId ∧ stackId < 32768)
    (addresses : List Nat) :
    (store.insertStack stackId h addresses).get k = if k = stackId then addresses else store.get k := by
  rw [StackStore.get, StackStore.insertStack, lookup_insert_if]
  split
  · rfl
  · rfl

/-- A lookup succeeds only for the id of a stack. -/
theorem StackTraces.nonneg (h : (traces.addresses.lookup stackId).isSome = true) : 0 ≤ stackId :=
  (traces.bounded stackId (AList.mem_keys.mp (AList.lookup_isSome.mp h))).1

theorem callback_delivers (h : traces.Delivers e d) (he : e.Fits) (r : Ring) :
    (r.callback d).events = r.events ++ [e] ∧ ∀ k, (r.callback d).stackStore.get k =
      if k = e.stackId ∧ (traces.addresses.lookup k).isSome = true then traces.get k else r.stackStore.get k := by
  have hread : readEvent d.bytes = e := by rw [h.bytes, readEvent_toBytes he]
  have hlen : d.bytes.length = eventSize := by rw [h.bytes, length_eventBytes]
  have hid : (readEvent d.bytes).stackId = e.stackId := congrArg Event.stackId hread
  unfold Ring.callback
  rw [if_neg (not_not.mpr hlen)]
  refine ⟨congrArg (fun e => r.events ++ [e]) hread, fun k => ?_⟩
  dsimp only
  split
  · split
    · rename_i raw hraw
      obtain ⟨trace, htrace, rfl⟩ := Option.map_eq_some_iff.mp (h.raw.symm.trans hraw)
      simp only [get_insertStack, hid, readAddresses_traceBytes (traces.traces _ _ htrace).2]
      split
      · rename_i he
        subst he
        simp [StackStore.get, htrace]
      · rename_i he
        simp [he]
    · rename_i hraw
      have hnone := Option.map_eq_none_iff.mp (h.raw.symm.trans hraw)
      rw [if_neg]
      rintro ⟨rfl, hs⟩
      simp [hnone] at hs
  · rename_i hneg
    rw [if_neg]
    rintro ⟨rfl, hs⟩
    rw [hid] at hneg
    exact hneg (traces.nonneg hs)

/-- What the kernel side delivers of a record. -/
def StackTraces.deliver (traces : StackTraces) (e : Event) (h : e.Fits) : Delivery where
  bytes := e.toBytes
  raw := (traces.addresses.lookup e.stackId).map traceBytes
  bounded hs := by
    rw [readEvent_toBytes h]
    rw [Option.isSome_map] at hs
    exact (traces.bounded e.stackId (AList.mem_keys.mp (AList.lookup_isSome.mp hs))).2

theorem delivers_pmap (events : List Event) (h : ∀ e ∈ events, e.Fits) :
    List.Forall₂ traces.Delivers events (events.pmap traces.deliver h) := by
  induction events with
  | nil => exact .nil
  | cons e events ih => exact .cons ⟨rfl, rfl⟩ (ih _)

/-- The stacks in user space are those of the kernel, as far as they are delivered. -/
def Ring.Faithful (traces : StackTraces) (r : Ring) : Prop :=
  ∀ k, r.stackStore.get k = traces.get k ∨ r.stackStore.get k = [] ∧ ∀ e ∈ r.events, e.stackId ≠ k

theorem Ring.Faithful.callback (hr : r.Faithful traces) (h : traces.Delivers e d) (he : e.Fits) :
    (r.callback d).Faithful traces := by
  obtain ⟨hevents, hget⟩ := callback_delivers h he r
  intro k
  rw [hget]
  split
  · exact .inl rfl
  · rename_i hk
    rcases hr k with hsame | ⟨hnil, hnone⟩
    · exact .inl hsame
    · by_cases hek : k = e.stackId
      · subst hek
        have hlookup : traces.addresses.lookup e.stackId = none := by simpa using hk
        refine .inl ?_
        rw [hnil, StackStore.get, hlookup]
        rfl
      · refine .inr ⟨hnil, fun e' he' => ?_⟩
        rw [hevents, List.mem_append, List.mem_singleton] at he'
        rcases he' with he' | rfl
        · exact hnone e' he'
        · exact Ne.symm hek

theorem foldl_callback (h : List.Forall₂ traces.Delivers events deliveries) (he : ∀ e ∈ events, e.Fits)
    (hr : r.Faithful traces) : (deliveries.foldl Ring.callback r).events = r.events ++ events ∧
      (deliveries.foldl Ring.callback r).Faithful traces := by
  induction h generalizing r with
  | nil => exact ⟨(List.append_nil _).symm, hr⟩
  | cons hd _ ih =>
      have hfirst := he _ (List.mem_cons_self ..)
      obtain ⟨hevents, hfaithful⟩ := ih (fun e hm => he e (List.mem_cons_of_mem _ hm)) (hr.callback hd hfirst)
      rw [List.foldl_cons, hevents, (callback_delivers hd hfirst r).1, List.append_assoc]
      exact ⟨rfl, hfaithful⟩

theorem drain_delivers (h : List.Forall₂ traces.Delivers events deliveries) (he : ∀ e ∈ events, e.Fits) :
    (Ring.drain deliveries).events = events ∧
      ∀ e ∈ events, (Ring.drain deliveries).stackStore.get e.stackId = traces.get e.stackId := by
  obtain ⟨hevents, hfaithful⟩ := foldl_callback (r := {}) h he fun k => .inr ⟨rfl, by simp⟩
  rw [List.nil_append] at hevents
  refine ⟨hevents, fun e hm => ?_⟩
  rcases hfaithful e.stackId with hsame | ⟨-, hnone⟩
  · exact hsame
  · exact absurd rfl (hnone e (by rwa [hevents]))

/-! ## The capture -/

theorem replayEvent_congr (request : CaptureRequest) (resolver : Resolver) {store store' : StackStore}
    (h : store.get e.stackId = store'.get e.stackId) (s : Correlator × Profile) :
    replayEvent request resolver store s e = replayEvent request resolver store' s e := by
  unfold replayEvent
  rw [h]

/-- The replay reads only the stacks of the events. -/
theorem replay_congr (request : CaptureRequest) (resolver : Resolver) {store store' : StackStore}
    (h : ∀ e ∈ events, store.get e.stackId = store'.get e.stackId) (p : Profile) (finishNs : Nat) :
    replay request resolver store p events finishNs = replay request resolver store' p events finishNs := by
  have hfold : (sortEvents events).foldl (replayEvent request resolver store) ({}, p) =
      (sortEvents events).foldl (replayEvent request resolver store') ({}, p) :=
    List.foldl_ext _ _ _ fun s e he => replayEvent_congr request resolver (h e (mem_sortByKey.mp he)) s
  rw [replay, hfold, replay]

theorem capture_congr (request : CaptureRequest) (resolver : Resolver) {store store' : StackStore}
    (h : ∀ e ∈ events, store.get e.stackId = store'.get e.stackId) (names : Map Nat String) (now : Nat)
    (release : String) (eventsDropped samplesDropped finishNs : Nat) :
    capture request resolver store names now release eventsDropped samplesDropped events finishNs =
      capture request resolver store' names now release eventsDropped samplesDropped events finishNs := by
  simp only [capture, replay_congr request resolver h]

end SliceProfiler
