import SliceProfiler.Collector.Lemmas.Overflow
import SliceProfiler.Core.Lemmas.Bands

/-!
# Streams that use up the ids

The two paths allocate stack ids in different orders, and only the local one allocates ids of invocations.
Past the bounds of the ids they differ.
-/

namespace SliceProfiler

open Lib

def blankProfile : Profile where
  formatVersion := 1
  metadata := ⟨0, ["target"], "6.6", 1000000⟩
  functions := []
  threads := []
  invocations := []
  «stacks» := []
  samples := []
  quality := {}

/-! ## More stacks than stack ids -/

def numberedSample (m k : Nat) : PendingSample :=
  ⟨1, k + 3, 0, .onCpu, 1, [⟨if k = m then some 1 else none, "", none, some k⟩]⟩

def numberedSamples (m : Nat) : List PendingSample := (List.range (m + 2)).map (numberedSample m)

def emptySample : PendingSample := ⟨1, 1, 0, .onCpu, 1, []⟩

/-- A call that ends in an entry on its thread, with one sample. -/
def nestedStart : List CollectorEvent := [.entry none 2 1 0, .sample none emptySample, .entry none 1 1 2]

/-- After the nested entry `m + 2` samples with different stacks. -/
def nestedCall (m : Nat) : List CollectorEvent :=
  nestedStart ++ (numberedSamples m).map (.sample none) ++ [.ret none 1 1 (m + 5)]

def nestedCallTagged (m : Nat) : List CollectorEvent :=
  [.entry (some 1) 2 1 0, .sample (some 1) emptySample, .entry (some 2) 1 1 2] ++
    (numberedSamples m).map (.sample (some 2)) ++ [.ret (some 2) 1 1 (m + 5)]

theorem nestedCall_untagged (m : Nat) : ∀ e ∈ nestedCall m, e.Untagged := by
  intro e he
  simp only [nestedCall, nestedStart, List.mem_append, List.mem_cons, List.mem_map, List.not_mem_nil, or_false] at he
  rcases he with ((rfl | rfl | rfl) | ⟨s, -, rfl⟩) | rfl <;> rfl

theorem nestedCall_increase (m : Nat) : StampsIncrease (nestedCall m) := by
  have hstamps : stampsOf (nestedCall m) =
      [(1, 0), (1, 1), (1, 2)] ++ (List.range (m + 2)).map (fun k => (1, k + 3)) ++ [(1, m + 5)] := by
    simp [stampsOf, nestedCall, nestedStart, numberedSamples, numberedSample, emptySample, List.filterMap_map,
      Function.comp_def,
      CollectorEvent.stamp]
  rw [StampsIncrease, hstamps, List.pairwise_append, List.pairwise_append, List.pairwise_map]
  refine ⟨⟨by decide, ?_, ?_⟩, by simp, ?_⟩
  · refine List.pairwise_lt_range.imp ?_
    intro a b h _
    exact Nat.add_lt_add_right h 3
  · intro a ha b hb _
    obtain ⟨k, -, rfl⟩ := List.mem_map.mp hb
    have hlt : ∀ x ∈ [(1, 0), (1, 1), (1, 2)], x.2 < 3 := by decide
    exact (hlt a ha).trans_le (Nat.le_add_left 3 k)
  · intro a ha b hb _
    rw [List.mem_singleton.mp hb]
    rcases List.mem_append.mp ha with ha | ha
    · have hlt : ∀ x ∈ [(1, 0), (1, 1), (1, 2)], x.2 < 3 := by decide
      exact (hlt a ha).trans_le (by omega)
    · obtain ⟨k, hk, rfl⟩ := List.mem_map.mp ha
      have hk := List.mem_range.mp hk
      change k + 3 < m + 5
      omega

theorem numberedSamples_nodup (m : Nat) : ((numberedSamples m).map (·.frames)).Nodup := by
  rw [numberedSamples, List.map_map]
  refine List.nodup_range.map fun a b h => ?_
  simp only [Function.comp_apply, numberedSample, List.cons.injEq, Frame.mk.injEq, Option.some.injEq] at h
  exact h.1.2.2.2

theorem numberedSample_frames (m k : Nat) : (numberedSample m k).frames ≠ [] := List.cons_ne_nil _ _

theorem nestedCall_run (m t : Nat) : (∃ c, Numbered c (collectEvents blankProfile (nestedCall m) t)
      ((1, emptySample) :: (numberedSamples m).map fun s => (2, s))) ∧
    (collectEvents blankProfile (nestedCall m) t).functions = [] ∧
    tagAll ({}, blankProfile) (nestedCall m) = nestedCallTagged m := by
  have hstart : Numbered (pushAll ({}, blankProfile) nestedStart).1 (pushAll ({}, blankProfile) nestedStart).2
      [(1, emptySample)] := by
    have hfirst := (Numbered.nil (c := {}) (p := blankProfile) rfl rfl rfl rfl).append
      (x := (1, emptySample)) List.not_mem_nil
    exact hfirst.keep rfl rfl rfl rfl
  have hactive : (pushAll ({}, blankProfile) nestedStart).1.active.lookup 1 = some ⟨2, 1, 1, 2, true⟩ := by decide
  have hmode : (pushAll ({}, blankProfile) nestedStart).1.sourceMode = false := by decide
  have hnodup : (([(1, emptySample)] ++ (numberedSamples m).map fun s => (2, s)).map
      fun x : Nat × PendingSample => x.2.frames).Nodup := by
    rw [List.singleton_append, List.map_cons, List.map_map]
    refine List.nodup_cons.mpr ⟨?_, numberedSamples_nodup m⟩
    intro hm
    obtain ⟨s, hs, he⟩ := List.mem_map.mp hm
    obtain ⟨k, -, rfl⟩ := List.mem_map.mp hs
    exact numberedSample_frames m k he
  have htid : ∀ s ∈ numberedSamples m, s.tid = 1 := by
    intro s hs
    obtain ⟨k, -, rfl⟩ := List.mem_map.mp hs
    rfl
  obtain ⟨⟨c', p', hrun, hmode', hactive', hnum⟩, htag⟩ := hstart.pushSamples hactive rfl htid hnodup
  have hbefore : pushAll ({}, blankProfile) (nestedStart ++ (numberedSamples m).map (.sample none)) = (c', p') :=
    pushAll_append.trans hrun
  have hcount : Numbered c' (p'.count .generateEvent) _ := hnum.keep rfl rfl rfl rfl
  obtain ⟨hret, hmode''⟩ := hcount.localReturn 1 1 (m + 5)
  have hend : pushAll ({}, blankProfile) (nestedCall m) = c'.localReturn (p'.count .generateEvent) 1 1 (m + 5) := by
    rw [nestedCall, pushAll_concat, hbefore]
    rfl
  have hlocal := hmode''.trans (hmode'.trans hmode)
  refine ⟨⟨_, by rw [collectEvents, hend]; exact hret.finish hlocal t⟩, ?_, ?_⟩
  · have hfunctions := pushAll_functions ({}, blankProfile) (nestedCall m)
    rw [hend] at hfunctions
    rw [collectEvents, hend]
    simp only [Correlator.finish, hlocal, Bool.false_eq_true, ↓reduceIte, foldl_finishActive]
    exact hfunctions
  · have hactive : c'.active.lookup 1 = some ⟨2, 1, 1, 2, true⟩ := by rw [hactive', hactive]
    rw [nestedCall, tagAll_concat, hbefore, tagAll_append, htag, Correlator.tag, hactive]
    rfl

theorem nestedCallTagged_mem {m : Nat} {e : CollectorEvent} (h : e ∈ nestedCallTagged m) : e.Tagged ∧
    ((e = .entry (some 1) 2 1 0 ∨ e = .sample (some 1) emptySample) ∨ e = .entry (some 2) 1 1 2 ∨
      (∃ k < m + 2, e = .sample (some 2) (numberedSample m k)) ∨ e = .ret (some 2) 1 1 (m + 5)) := by
  simp only [nestedCallTagged, numberedSamples, List.mem_append, List.mem_cons, List.mem_map, List.mem_range,
    List.not_mem_nil, or_false] at h
  rcases h with ((rfl | rfl | rfl) | ⟨s, ⟨k, hk, rfl⟩, rfl⟩) | rfl
  · exact ⟨rfl, .inl (.inl rfl)⟩
  · exact ⟨rfl, .inl (.inr rfl)⟩
  · exact ⟨rfl, .inr (.inl rfl)⟩
  · exact ⟨rfl, .inr (.inr (.inl ⟨k, hk, rfl⟩))⟩
  · exact ⟨rfl, .inr (.inr (.inr rfl))⟩

theorem returnsOf_nestedCallTagged (m i : Nat) :
    returnsOf i (nestedCallTagged m) = if 2 = i then [⟨1, 1, m + 5⟩] else [] := by
  by_cases h : 2 = i <;>
    simp [returnsOf, nestedCallTagged, CollectorEvent.returnOf, List.filterMap_cons, List.filterMap_map,
      Function.comp_def, h]

theorem entriesOf_nestedCallTagged (m i : Nat) : entriesOf i (nestedCallTagged m) =
    (if 1 = i then [⟨2, 1, 0⟩] else []) ++ if 2 = i then [⟨1, 1, 2⟩] else [] := by
  by_cases h : 1 = i <;> by_cases h' : 2 = i <;>
    simp [entriesOf, nestedCallTagged, CollectorEvent.entryOf, List.filterMap_cons, List.filterMap_map,
      Function.comp_def, h, h']

theorem samplesOf_nestedCallTagged (m : Nat) : samplesOf 2 (nestedCallTagged m) = numberedSamples m := by
  simp [samplesOf, nestedCallTagged, CollectorEvent.sampleOf, List.filterMap_cons, List.filterMap_map,
    Function.comp_def]

theorem nestedCallTagged_retained (m : Nat) : Retained 2 (nestedCallTagged m) ⟨1, 1, 2⟩ ⟨1, 1, m + 5⟩ where
  entry := by rw [entriesOf_nestedCallTagged]; rfl
  ret := by rw [returnsOf_nestedCallTagged]; rfl
  agree := by
    apply returnsAgree_of_uniform 1 1
    · intro e he b hb
      rcases (nestedCallTagged_mem he).2 with (rfl | rfl) | rfl | ⟨k, -, rfl⟩ | rfl <;>
        simp [CollectorEvent.entryOf, CollectorEvent.returnOf] at hb <;> rw [← hb]
    · intro e he n hn
      rcases (nestedCallTagged_mem he).2 with (rfl | rfl) | rfl | ⟨k, -, rfl⟩ | rfl <;>
        simp [CollectorEvent.tidOf, CollectorEvent.entryOf, CollectorEvent.returnOf, CollectorEvent.sampleOf,
          numberedSample] at hn <;> rw [← hn]
  ordered := by simp
  clear v hv := by
    obtain ⟨e, he, hv⟩ := List.mem_filterMap.mp hv
    rcases (nestedCallTagged_mem he).2 with (rfl | rfl) | rfl | ⟨k, -, rfl⟩ | rfl <;> cases hv

theorem nestedCallTagged_only {m j : Nat} {e b : Boundary} (h : Retained j (nestedCallTagged m) e b) : j = 2 := by
  have hret := h.ret
  rw [returnsOf_nestedCallTagged] at hret
  split at hret
  · rename_i hj
    exact hj.symm
  · cases hret

theorem keptSamples_nestedCallTagged (m t : Nat) :
    keptSamples (nestedCallTagged m) t = (numberedSamples m).map fun s => (2, s) := by
  have hall : (numberedSamples m).filter (fun s => 2 ≤ s.timestampNs ∧ s.timestampNs ≤ m + 5) = numberedSamples m := by
    apply List.filter_eq_self.mpr
    intro s hs
    obtain ⟨k, hk, rfl⟩ := List.mem_map.mp hs
    have hk := List.mem_range.mp hk
    refine decide_eq_true ?_
    change 2 ≤ k + 3 ∧ k + 3 ≤ m + 5
    omega
  rw [keptSamples_of_only (nestedCallTagged_retained m) fun _ _ _ => nestedCallTagged_only,
    samplesOf_nestedCallTagged, hall]

/-- The calls of the function with id 1, with all their samples. -/
def workQuery : Query := ⟨1, none, none, ⟨0, 100⟩, .wall⟩

theorem nestedCallTagged_selected {m t : Nat} {p : Profile}
    (hp : p.invocations = reports (nestedCallTagged m) t) : 2 ∈ (selected p workQuery).map (·.id) := by
  obtain ⟨inv, hinv, hrep⟩ : ∃ inv ∈ reports (nestedCallTagged m) t, Reported 2 (nestedCallTagged m) t ⟨1, 1, 2⟩ inv :=
    exists_report (by rw [(nestedCallTagged_retained m).entry]; rfl)
  have hvalid : inv.valid = true := hrep.valid.mpr ⟨_, nestedCallTagged_retained m⟩
  have hcand : inv ∈ candidates p workQuery :=
    mem_candidates.mpr ⟨hp ▸ hinv, hrep.functionId, reports_complete hinv hvalid, hvalid, nofun, nofun⟩
  have hids : (candidates p workQuery).map (·.id) ⊆ [2] := by
    intro id hid
    obtain ⟨i, hi, rfl⟩ := List.mem_map.mp hid
    obtain ⟨hmem, he⟩ := mem_candidates.mp hi
    obtain ⟨e, -, hrep'⟩ := mem_reports.mp (hp ▸ hmem)
    obtain ⟨b, hb⟩ := hrep'.valid.mp he.valid
    exact List.mem_singleton.mpr (nestedCallTagged_only hb)
  have hnodup : ((candidates p workQuery).map (·.id)).Nodup := by
    apply candidates_ids_nodup
    rw [hp]
    exact List.pairwise_map.mpr ((reports_strict _ t).imp fun hlt => hlt.ne)
  have hlen : (candidates p workQuery).length ≤ 1 := by
    have := (hnodup.subperm hids).length_le
    rwa [List.length_map] at this
  have hall : selected p workQuery = candidates p workQuery :=
    selected_all (q := workQuery) (by omega)
  rw [hall, ← hrep.id]
  exact List.mem_map_of_mem hcand

theorem nestedCall_lookup {m : Nat} (hm : m + 2 = u32Max) {c : Correlator} {p : Profile}
    (h : Numbered c p ((1, emptySample) :: (numberedSamples m).map fun s => (2, s))) {id : Nat} {k : Stack}
    (hk : (Map.ofList (p.stacks.map fun k => (k.id, k))).lookup id = some k) : ∀ f ∈ k.frames, f.functionId = none := by
  have hsplit : ((1, emptySample) :: (numberedSamples m).map fun s => (2, s)) =
      ((1, emptySample) :: (List.range m).map fun k => (2, numberedSample m k)) ++
        [(2, numberedSample m m)] ++ [(2, numberedSample m (m + 1))] := by
    simp [numberedSamples, List.range_succ]
  rw [hsplit] at h
  have hinj : ∀ k, (numberedSample m k).frames = (numberedSample m m).frames → k = m := by
    intro k he
    simp only [numberedSample, List.cons.injEq, Frame.mk.injEq, Option.some.injEq] at he
    exact he.1.2.2.2
  have hother : ∀ k, k ≠ m → ∀ f ∈ (numberedSample m k).frames, f.functionId = none := by
    intro k hk f hf
    rw [List.mem_singleton.mp hf]
    exact if_neg hk
  have hfresh : (numberedSample m m).frames ∉
      (((1, emptySample) :: (List.range m).map fun k => (2, numberedSample m k)).map
        fun x : Nat × PendingSample => x.2.frames) := by
    rw [List.map_cons, List.map_map, List.mem_cons, List.mem_map, not_or]
    refine ⟨List.cons_ne_nil _ _, ?_⟩
    rintro ⟨k, hk, he⟩
    exact absurd (hinj k he) (List.mem_range.mp hk).ne
  obtain ⟨hmem, hne⟩ := h.lookup_lost (by simpa using hm) hfresh (fun he => absurd (hinj _ he) (by omega)) hk
  obtain ⟨x, hx, hframes⟩ := List.mem_map.mp hmem
  rw [← hframes] at hne ⊢
  simp only [List.mem_append, List.mem_cons, List.mem_map, List.not_mem_nil, or_false] at hx
  rcases hx with (rfl | ⟨j, hj, rfl⟩) | rfl
  · exact fun f hf => absurd hf List.not_mem_nil
  · exact hother j (List.mem_range.mp hj).ne
  · exact hother (m + 1) (by omega)

/-- The last but one stack loses its id on the local path only, which has interned one stack more. -/
theorem nestedCall_query {m : Nat} (hm : m + 2 = u32Max) (t : Nat) :
    executeQuery (collectEvents blankProfile (nestedCall m) t) workQuery ≠
      executeQuery (collectEvents blankProfile (tagAll ({}, blankProfile) (nestedCall m)) t) workQuery := by
  intro hqueries
  obtain ⟨⟨c, hnum⟩, hfunctions, htag⟩ := nestedCall_run m t
  rw [htag] at hqueries
  have hcard : (keptFrames (nestedCallTagged m) t).card ≤ u32Max := by
    rw [keptFrames, keptSamples_nestedCallTagged]
    refine (List.toFinset_card_le _).trans ?_
    simp [numberedSamples, hm]
  obtain ⟨ks, ss, h⟩ := collected_of_kept (p := blankProfile) (t := t) (fun e he => (nestedCallTagged_mem he).1)
    hcard rfl rfl
  obtain ⟨c', htable⟩ := h.table
  have hknown : (collectEvents blankProfile (nestedCallTagged m) t).KnownStacks := h.eq ▸ htable.knownStacks
  obtain ⟨r, hr, hsel, -⟩ := executeQuery_ok_of_known (q := workQuery) hknown (by decide) (by decide) nofun
  have hsample : (numberedSample m m).resolved 2 ∈
      (collectEvents blankProfile (nestedCallTagged m) t).resolvedSamples := by
    have hmem : (numberedSample m m).resolved 2 ∈
        (collectEvents blankProfile (nestedCallTagged m) t).samplesUnder 2 := by
      rw [h.samplesUnder, keptSamples_nestedCallTagged]
      refine List.mem_map_of_mem (f := fun x : Nat × PendingSample => x.2.resolved x.1)
        (a := (2, numberedSample m m)) (List.mem_filter.mpr ⟨List.mem_map_of_mem ?_, by simp⟩)
      exact List.mem_map_of_mem (List.mem_range.mpr (by omega))
    exact List.mem_of_mem_filter hmem
  have hpos : 0 < r.sampledCpuNs := by
    refine sampledCpuNs_pos hknown hr hsample ?_ rfl rfl Nat.one_pos (f := ⟨some 1, "", none, some m⟩) ?_ rfl
    · rw [hsel]
      exact nestedCallTagged_selected (h.invocations_eq rfl)
    · simp [PendingSample.resolved, numberedSample]
  have hzero : r.sampledCpuNs = 0 := by
    refine sampledCpuNs_of_not_startsAt ?_ (hqueries.trans hr)
    intro id k hk f hf
    have hname : workQuery.selectedName (collectEvents blankProfile (nestedCall m) t) = none := by
      rw [Query.selectedName, hfunctions]
      rfl
    have hnone : f.functionId = none := nestedCall_lookup hm hnum hk f hf
    rw [Query.startsAt, hname, hnone]
    rfl
  omega

/-! ## More calls than ids -/

/-- A call that returns without samples. -/
def emptyCall (id : Option Nat) (k : Nat) : List CollectorEvent :=
  [.entry id 1 (k % 4294967296) (2 * (k / 4294967296)), .ret id 1 (k % 4294967296) (2 * (k / 4294967296) + 1)]

/-- `n` calls, one after another on all threads in turn. -/
def callPairs (n : Nat) : List CollectorEvent := (List.range n).flatMap (emptyCall none)

/-- The ids of the calls stop at the largest one. -/
def callPairsTagged (n : Nat) : List CollectorEvent :=
  (List.range n).flatMap fun k => emptyCall (some (min (k + 1) u64Max)) k

/-- The state of the local path between two calls. -/
structure BetweenCalls (n : Nat) (s : Correlator × Profile) : Prop where
  next : s.1.nextInvocationId = min (n + 1) u64Max
  idle : ∀ tid, s.1.active.lookup tid = none
  sourceMode : s.1.sourceMode = false
  complete : s.2.quality.completeInvocations = min n u64Max

theorem BetweenCalls.call {n : Nat} {s : Correlator × Profile} (h : BetweenCalls n s) :
    BetweenCalls (n + 1) (pushAll s (emptyCall none n)) ∧
      tagAll s (emptyCall none n) = emptyCall (some (min (n + 1) u64Max)) n := by
  unfold emptyCall
  generalize n % 4294967296 = tid
  generalize 2 * (n / 4294967296) = time
  let a : ActiveInvocation := ⟨s.1.nextInvocationId, 1, tid, time, true⟩
  have hentry : s.1.push s.2 (.entry none 1 tid time) =
      ({ s.1 with nextInvocationId := satAdd64 s.1.nextInvocationId 1, active := s.1.active.insert tid a },
        s.2.count .generateEvent) := by
    simp only [Correlator.push, Correlator.localEntry, h.idle]
    rfl
  have hsome : (s.1.active.insert tid a).lookup tid = some a := AList.lookup_insert _
  have hvalid : (a.valid && a.functionId == 1 && decide (time + 1 ≥ a.startNs)) = true := by simp [a]
  have hpush : pushAll s [.entry none 1 tid time, .ret none 1 tid (time + 1)] =
      (s.1.push s.2 (.entry none 1 tid time)).1.push (s.1.push s.2 (.entry none 1 tid time)).2
        (.ret none 1 tid (time + 1)) := rfl
  rw [hpush, hentry]
  simp only [Correlator.push, Correlator.localReturn, hsome, hvalid, ↓reduceIte]
  refine ⟨⟨?_, ?_, h.sourceMode, ?_⟩, ?_⟩
  · rw [h.next, satAdd64, saturatingAdd_min]
  · intro tid'
    rw [lookup_erase_if, lookup_insert_if]
    split
    · rfl
    · exact h.idle tid'
  · exact (congrArg (fun q => satAdd64 q 1) h.complete).trans saturatingAdd_min
  · rw [← h.next]
    change [.entry (some s.1.nextInvocationId) 1 tid time] ++ tagAll (s.1.push s.2 (.entry none 1 tid time)) _ = _
    rw [hentry, tagAll, Correlator.tag]
    simp only [hsome]
    rfl

theorem callPairs_run (n : Nat) : BetweenCalls n (pushAll ({}, blankProfile) (callPairs n)) ∧
    tagAll ({}, blankProfile) (callPairs n) = callPairsTagged n := by
  induction n with
  | zero => exact ⟨⟨rfl, fun _ => rfl, rfl, rfl⟩, rfl⟩
  | succ n ih =>
      have hsplit : ∀ f : Nat → List CollectorEvent,
          (List.range (n + 1)).flatMap f = (List.range n).flatMap f ++ f n := by
        intro f
        rw [List.range_succ, List.flatMap_append, List.flatMap_singleton]
      obtain ⟨hcall, htag⟩ := ih.1.call
      rw [callPairs, hsplit, pushAll_append, tagAll_append, callPairsTagged, hsplit]
      exact ⟨hcall, congrArg₂ (· ++ ·) ih.2 htag⟩

theorem callPairsTagged_tagged {n : Nat} : ∀ e ∈ callPairsTagged n, e.Tagged := by
  intro e he
  obtain ⟨k, -, he⟩ := List.mem_flatMap.mp he
  rcases List.mem_cons.mp he with rfl | he
  · rfl
  · rw [List.mem_singleton.mp he]
    rfl

theorem mem_entriesOf_callPairsTagged {n i : Nat} {b : Boundary} : b ∈ entriesOf i (callPairsTagged n) ↔
    ∃ k < n, min (k + 1) u64Max = i ∧ b = ⟨1, k % 4294967296, 2 * (k / 4294967296)⟩ := by
  simp only [entriesOf, List.mem_filterMap, callPairsTagged, List.mem_flatMap, List.mem_range]
  constructor
  · rintro ⟨e, ⟨k, hk, he⟩, hb⟩
    rcases List.mem_cons.mp he with rfl | he
    · simp only [CollectorEvent.entryOf] at hb
      split at hb
      · rename_i hi
        exact ⟨k, hk, hi, (Option.some.inj hb).symm⟩
      · cases hb
    · rw [List.mem_singleton.mp he] at hb
      cases hb
  · rintro ⟨k, hk, rfl, rfl⟩
    exact ⟨_, ⟨k, hk, List.mem_cons_self⟩, if_pos rfl⟩

/-- The largest id belongs to two calls, so that neither is valid. -/
theorem callPairsTagged_valid_le {n : Nat} (hn : n = u64Max + 1) (t : Nat) :
    (reports (callPairsTagged n) t).countP (·.valid) + 1 ≤ u64Max := by
  have hpos : 0 < u64Max := by decide
  have hids : ((reports (callPairsTagged n) t).filter (·.valid)).map (·.id) ⊆ List.range' 1 (u64Max - 1) := by
    intro id hid
    obtain ⟨inv, hinv, rfl⟩ := List.mem_map.mp hid
    obtain ⟨hmem, hv⟩ := List.mem_filter.mp hinv
    obtain ⟨e, -, hrep⟩ := mem_reports.mp hmem
    obtain ⟨b, hb⟩ := hrep.valid.mp hv
    have hentry := hb.entry
    obtain ⟨k, hk, hid, he⟩ := mem_entriesOf_callPairsTagged.mp (hentry ▸ List.mem_singleton_self e)
    have hne : inv.id ≠ u64Max := by
      intro hmax
      have hentries : ∀ k < n, u64Max ≤ k + 1 →
          ⟨1, k % 4294967296, 2 * (k / 4294967296)⟩ ∈ entriesOf inv.id (callPairsTagged n) :=
        fun k hk hle => mem_entriesOf_callPairsTagged.mpr ⟨k, hk, by omega, rfl⟩
      have h₁ := hentries (u64Max - 1) (by omega) (by omega)
      have h₂ := hentries u64Max (by omega) (by omega)
      rw [hentry, List.mem_singleton] at h₁ h₂
      have htid := congrArg Boundary.tid (h₁.trans h₂.symm)
      simp only [u64Max] at htid
      omega
    rw [List.mem_range'_1]
    omega
  have hnodup : (((reports (callPairsTagged n) t).filter (·.valid)).map (·.id)).Nodup :=
    List.pairwise_map.mpr (((reports_strict _ t).imp fun hlt => hlt.ne).filter _)
  have hlen := (hnodup.subperm hids).length_le
  rw [List.length_map, List.length_range'] at hlen
  rw [List.countP_eq_length_filter]
  omega

/-- With one call more than there are ids the local path counts the last two calls as complete. -/
theorem callPairs_complete {n : Nat} (hn : n = u64Max + 1) (t : Nat) :
    (collectEvents blankProfile (callPairs n) t).quality.completeInvocations ≠
      (collectEvents blankProfile (tagAll ({}, blankProfile) (callPairs n)) t).quality.completeInvocations := by
  intro hcomplete
  obtain ⟨hrun, htag⟩ := callPairs_run n
  rw [htag] at hcomplete
  have hlocal : (collectEvents blankProfile (callPairs n) t).quality.completeInvocations = u64Max := by
    rw [collectEvents]
    simp only [Correlator.finish, hrun.sourceMode, Bool.false_eq_true, ↓reduceIte, foldl_finishActive]
    exact (incomplete_iterate _ _).1.trans (hrun.complete.trans (Nat.min_eq_right (by omega)))
  obtain ⟨c, -, -, heq⟩ := collectEvents_eq callPairsTagged_tagged blankProfile t
  have htagged : (collectEvents blankProfile (callPairsTagged n) t).quality.completeInvocations =
      countUp ((reports (callPairsTagged n) t).countP (·.valid)) 0 := by
    rw [heq, (appendAll_book _ _).2]
    exact (bookOf_counters _ _).1
  have hle := countUp_le ((reports (callPairsTagged n) t).countP (·.valid)) 0
  have hvalid := callPairsTagged_valid_le hn t
  rw [hlocal, htagged] at hcomplete
  omega

theorem callPairs_untagged (n : Nat) : ∀ e ∈ callPairs n, e.Untagged := by
  intro e he
  obtain ⟨k, -, he⟩ := List.mem_flatMap.mp he
  rcases List.mem_cons.mp he with rfl | he
  · rfl
  · rw [List.mem_singleton.mp he]
    rfl

theorem callPairs_increase (n : Nat) : StampsIncrease (callPairs n) := by
  have hstamps : stampsOf (callPairs n) = (List.range n).flatMap fun k =>
      [(k % 4294967296, 2 * (k / 4294967296)), (k % 4294967296, 2 * (k / 4294967296) + 1)] := by
    rw [stampsOf, callPairs, List.filterMap_flatMap]
    rfl
  rw [StampsIncrease, hstamps, List.pairwise_flatMap]
  refine ⟨fun k _ => by simp, List.pairwise_lt_range.imp ?_⟩
  intro k k' hlt a ha b hb htid
  simp only [List.mem_cons, List.not_mem_nil, or_false] at ha hb
  rcases ha with rfl | rfl <;> rcases hb with rfl | rfl <;> simp only at htid ⊢ <;> omega

end SliceProfiler
